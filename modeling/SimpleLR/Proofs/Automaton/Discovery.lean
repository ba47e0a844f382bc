import Mathlib.Data.Set.Card
import Mathlib.Order.Interval.Finset.Nat
import SimpleLR.Proofs.Automaton.Existence
import SimpleLR.Proofs.Grammar.BottomUp

/-!
# The order of discovery

The states of a canonical collection are the item sets that are reached from the initial one
(`Grammar.Reaches`), numbered in the order in which they are met first when the states are explored
by number and, for each, the symbols in order (`Grammar.discoveries`). Exploring keeps this for the
states explored so far (`Collection.Discovered`). The collection is found exactly when there are
not more sets than numbers.
-/

namespace SimpleLR

/-- The sets that a set leads to over some symbols, in the order of the symbols. -/
def ItemSet.successors (g : Grammar) (s : ItemSet) (symbols : List Symbol) : List ItemSet :=
  (symbols.filter fun x ↦ s.kernel g x ≠ []).map (s.goto g)

namespace Grammar

/-- The item sets that are reached from the initial one over symbols of the grammar. -/
inductive Reaches (g : Grammar) : ItemSet → Prop
  | initial : Reaches g (.initial g)
  | goto {s : ItemSet} {x : Symbol} (before : Reaches g s) (hx : x ∈ g.symbols)
    (ne : s.kernel g x ≠ []) : Reaches g (s.goto g x)

/-- All item sets that are reached. -/
def itemSets (g : Grammar) : Set ItemSet := {s | g.Reaches s}

/-- What is met when some sets are explored in order, the initial set being there before: each set
as often as it is met. -/
def discoveries (g : Grammar) (sets : List ItemSet) : List ItemSet :=
  .initial g :: sets.flatMap fun s ↦ s.successors g g.symbols

/-- The states are the sets that are reached, in the order of discovery, and have their
transitions. -/
structure CanonicalStates (g : Grammar) (states : List State) : Prop where
  mem_iff : ∀ items, items ∈ states.map State.items ↔ g.Reaches items
  nodup : (states.map State.items).Nodup
  id_eq : ∀ (i : Nat) (s : State), states[i]? = some s → s.id = ⟨i⟩
  initial : (states.map State.items).head? = some (.initial g)
  /-- The sets stand in the order in which they are met first. -/
  order : states.map State.items = (g.discoveries (states.map State.items)).eraseDups
  /-- Each set but the first is met from an earlier one. -/
  earlier : ∀ (j : Nat) (items : ItemSet), 0 < j → (states.map State.items)[j]? = some items →
    ∃ i source, i < j ∧ (states.map State.items)[i]? = some source ∧
      items ∈ source.successors g g.symbols
  /-- With an item, a set holds the rules of the nonterminal after the dot. -/
  closed : ∀ s ∈ states, ∀ i ∈ s.items, ∀ n, i.next? g = some (.nonterminal n) →
    ∀ r ∈ g.rulesFor n, .initial r ∈ s.items
  exists_action_iff : ∀ s ∈ states, ∀ x,
    (∃ act, s.action? x = some act) ↔ s.items.kernel g x ≠ []
  target : ∀ s ∈ states, ∀ x act, s.action? x = some act →
    ∃ j target, states[j]? = some target ∧ target.items = s.items.goto g x ∧ act = .enter x ⟨j⟩

end Grammar

variable {g : Grammar} {s s' : ItemSet} {x : Symbol} {symbols : List Symbol}

namespace ItemSet

theorem mem_successors :
    s' ∈ s.successors g symbols ↔ ∃ x ∈ symbols, s.kernel g x ≠ [] ∧ s.goto g x = s' := by
  simp [successors, and_assoc]

theorem successors_cons_of_empty (e : s.kernel g x = []) :
    s.successors g (x :: symbols) = s.successors g symbols := by
  simp [successors, e]

theorem successors_cons (ne : s.kernel g x ≠ []) :
    s.successors g (x :: symbols) = [s.goto g x] ++ s.successors g symbols := by
  simp [successors, ne]

end ItemSet

theorem Grammar.Reaches.closed {i : Item} {n : Nonterminal} {r : RuleId} (h : g.Reaches s)
    (hi : i ∈ s) (next : i.next? g = some (.nonterminal n)) (hr : r ∈ g.rulesFor n) :
    .initial r ∈ s := by
  cases h with
  | initial => exact ItemSet.initial_mem_closure hi next hr
  | goto => exact ItemSet.initial_mem_closure hi next hr

/-- What holds of each item with the dot in front, and is kept when the dot moves, holds of the
items of all sets that are reached. -/
theorem Grammar.Reaches.item_induction {p : Item → Prop} (h : g.Reaches s)
    (front : ∀ r ∈ g.ruleIds, p (.initial r))
    (moved : ∀ i x, p i → i.next? g = some x → p i.moved) : ∀ i ∈ s, p i := by
  have closed : ∀ core : List Item, (∀ i ∈ core, p i) → ∀ i ∈ ItemSet.closure g core, p i :=
    fun core hc ↦ ItemSet.closure_induction hc fun _ _ r _ _ _ hr ↦
      front r (mem_ruleIds.2 (mem_rulesFor.1 hr).1)
  induction h with
  | initial =>
    refine closed _ fun i hi ↦ ?_
    rw [List.mem_singleton.1 hi]
    exact front _ accept_mem_ruleIds
  | goto _ _ _ ih =>
    refine closed _ fun j hj ↦ ?_
    obtain ⟨i, hi, next, rfl⟩ := ItemSet.mem_kernel.1 hj
    exact moved i _ (ih i hi) next

/-- A new element comes last. -/
theorem eraseDups_concat {α : Type} [DecidableEq α] (l : List α) (a : α) :
    (l ++ [a]).eraseDups = if a ∈ l then l.eraseDups else l.eraseDups ++ [a] := by
  rw [List.eraseDups_append]
  by_cases mem : a ∈ l
  · simp [List.removeAll, mem]
  · simp [List.removeAll, mem, List.eraseDups_cons]

/-- A viable form leads to a set that is reached. -/
theorem Grammar.reaches_along {form : List Symbol} (h : g.Viable form) :
    g.Reaches (.along g form) := by
  induction form using List.reverseRecOn with
  | nil => exact .initial
  | append_singleton form x ih =>
    have ne := viable_concat_iff.1 h
    rw [ItemSet.along_concat]
    exact .goto (ih (viable_of_concat h)) (ItemSet.mem_symbols_of_kernel ne) ne

namespace Collection

variable {c c' : Collection} {id : StateId} {l : List ItemSet} {r : List (Symbol × StateId)}

/-! ## Exploring a state -/

theorem mem_states_iff : s ∈ c.states.toList ↔ ∃ id, c.itemsOf id = some s := by
  refine ⟨exists_itemsOf_of_mem, fun ⟨id, place⟩ ↦ ?_⟩
  exact Array.mem_toList_iff.2 (Array.mem_of_getElem? place)

/-- Numbering a set puts it at the end, unless it is there. -/
theorem states_of_number (hc : c.Numbered) (e : c.states.toList = l.eraseDups)
    (h : number s c = some (id, c')) : c'.states.toList = (l ++ [s]).eraseDups := by
  have mem : s ∈ l ↔ ∃ id, c.itemsOf id = some s := by
    rw [← mem_states_iff, e, List.mem_eraseDups]
  rw [eraseDups_concat]
  rcases number_cases h with ⟨old, rfl⟩ | ⟨new, _, rfl, rfl⟩
  · rw [if_pos (mem.2 ⟨id, (hc s id).1 old⟩), e]
  · have fresh : s ∉ l := by
      rw [mem]
      rintro ⟨id, place⟩
      rw [(hc s id).2 place] at new
      cases new
    rw [if_neg fresh, Array.toList_push, e]

/-- Making a row puts what the set leads to at the end, as far as it is new. -/
theorem states_of_row (hc : c.Numbered) (e : c.states.toList = l.eraseDups)
    (h : row g g.cornerTable s symbols c = some (r, c')) :
    c'.states.toList = (l ++ s.successors g symbols).eraseDups := by
  induction symbols generalizing c l r with
  | nil =>
    cases h
    rw [e]
    simp [ItemSet.successors]
  | cons x xs ih =>
    rcases row_cons_cases h with ⟨empty, h₂⟩ | ⟨ne, target, c₁, rest, h₁, h₂, _⟩
    · rw [ItemSet.successors_cons_of_empty empty]
      exact ih hc e h₂
    · rw [ItemSet.successors_cons ne, ← List.append_assoc]
      exact ih (numbered_of_number hc h₁) (states_of_number hc e h₁) h₂

/-- A collection while it is explored: its sets are those that the explored states lead to. -/
structure Discovered (g : Grammar) (c : Collection) : Prop where
  growing : Growing g c
  order : c.states.toList = (g.discoveries (c.states.toList.take c.rows.size)).eraseDups
  earlier : ∀ j s, 0 < j → c.states.toList[j]? = some s →
    ∃ i source, i < j ∧ c.states.toList[i]? = some source ∧ s ∈ source.successors g g.symbols

theorem discovered_single : Discovered g (single (.initial g)) where
  growing := growing_single
  order := by simp [single, Grammar.discoveries, List.eraseDups_cons]
  earlier j s pos hs := by
    have lt := (List.getElem?_eq_some_iff.1 hs).1
    simp only [single, List.length_singleton] at lt
    omega

/-- Exploring one more state. -/
theorem Discovered.push_row (h : Discovered g c) (hs : c.states[c.rows.size]? = some s)
    (hr : row g g.cornerTable s g.symbols c = some (r, c')) :
    Discovered g { c' with rows := c'.rows.push r } := by
  have lt : c.rows.size < c.states.toList.length := (Array.getElem?_eq_some_iff.1 hs).1
  have order := states_of_row h.growing.numbered h.order hr
  have ⟨new, append, sound⟩ : ∃ new, c'.states.toList = c.states.toList ++ new ∧
      ∀ s' ∈ new, s' ∈ s.successors g g.symbols := by
    rw [List.eraseDups_append, ← h.order] at order
    refine ⟨_, order, fun s' hs' ↦ ?_⟩
    rw [List.mem_eraseDups] at hs'
    exact (List.mem_filter.1 hs').1
  refine ⟨h.growing.push_row hs hr, ?_, fun j s' pos hs' ↦ ?_⟩
  · -- one more state has been explored
    have explored : c'.states.toList.take (c.rows.size + 1) =
        c.states.toList.take c.rows.size ++ [s] := by
      rw [append, List.take_append_of_le_length lt, List.take_add_one, Array.getElem?_toList, hs]
      rfl
    simp only [Array.size_push, (keeps_of_row hr).2.1, explored]
    rw [order]
    simp [Grammar.discoveries]
  · simp only [append] at hs' ⊢
    by_cases old : j < c.states.toList.length
    · rw [List.getElem?_append_left old] at hs'
      obtain ⟨i, source, before, place, mem⟩ := h.earlier j s' pos hs'
      refine ⟨i, source, before, ?_, mem⟩
      rw [List.getElem?_append_left (Nat.lt_trans before old), place]
    · rw [List.getElem?_append_right (Nat.le_of_not_lt old)] at hs'
      refine ⟨c.rows.size, s, Nat.lt_of_lt_of_le lt (Nat.le_of_not_lt old), ?_,
        sound s' (List.mem_of_getElem? hs')⟩
      rw [List.getElem?_append_left lt, Array.getElem?_toList, hs]

theorem discovered_of_explore {rounds : Nat} (h : Discovered g c)
    (e : explore g g.cornerTable g.symbols rounds c = some c') : Discovered g c' := by
  induction rounds generalizing c with
  | zero =>
    cases e
    exact h
  | succ rounds ih =>
    rw [explore] at e
    split at e
    · cases e
      exact h
    · next s hs =>
      split at e
      · cases e
      · next r c₁ hr => exact ih (h.push_row hs hr) e

/-! ## The whole collection -/

/-- At the end all states have been explored. -/
theorem order_of_canonical (h : canonical g = some c) :
    c.states.toList = (g.discoveries c.states.toList).eraseDups ∧
    ∀ j s, 0 < j → c.states.toList[j]? = some s →
      ∃ i source, i < j ∧ c.states.toList[i]? = some source ∧
        s ∈ source.successors g g.symbols := by
  have discovered := discovered_of_explore discovered_single h
  have all := (growing_of_explore growing_single (Nat.le_add_left ..) h).2
  have order := discovered.order
  rw [List.take_of_length_le (by simpa using all)] at order
  exact ⟨order, discovered.earlier⟩

/-- The sets of a canonical collection are those that are reached. -/
theorem mem_states_iff_reaches (h : canonical g = some c) :
    s ∈ c.states.toList ↔ g.Reaches s := by
  have explored := explored_of_canonical h
  constructor
  · intro hs
    obtain ⟨j, place⟩ := List.mem_iff_getElem?.1 hs
    induction j using Nat.strongRecOn generalizing s with
    | ind j ih =>
      rcases Nat.eq_zero_or_pos j with rfl | pos
      · rw [Array.getElem?_toList] at place
        obtain rfl : .initial g = s := Option.some.inj (explored.initial.symm.trans place)
        exact .initial
      · obtain ⟨i, source, lt, before, mem⟩ := (order_of_canonical h).2 j s pos place
        obtain ⟨x, hx, ne, rfl⟩ := ItemSet.mem_successors.1 mem
        exact .goto (ih i lt (List.mem_of_getElem? before) before) hx ne
  · intro reaches
    rw [mem_states_iff]
    induction reaches with
    | initial => exact ⟨_, explored.initial⟩
    | goto _ hx ne ih =>
      obtain ⟨id, place⟩ := ih
      obtain ⟨target, mem⟩ := (explored.row id _ place).complete _ hx ne
      exact ⟨target, ((explored.row id _ place).sound _ _ mem).2.2⟩

/-- There are as many sets as states. -/
theorem encard_itemSets (h : canonical g = some c) : g.itemSets.encard = c.states.size := by
  have nodup := (explored_of_canonical h).numbered.nodup
  have sets : g.itemSets = (c.states.toList.toFinset : Set ItemSet) := by
    ext s
    rw [List.coe_toFinset]
    exact (mem_states_iff_reaches h).symm
  rw [sets, Set.encard_coe_eq_coe_finsetCard, List.toFinset_card_of_nodup nodup,
    Array.length_toList]

theorem encard_le_of_canonical (h : canonical g = some c) : g.itemSets.encard ≤ stateLimit := by
  rw [encard_itemSets h]
  exact_mod_cast (growing_of_explore growing_single (Nat.le_add_left ..) h).1.size_le

theorem exists_canonical_of_encard_le (h : g.itemSets.encard ≤ stateLimit) :
    ∃ c, canonical g = some c := by
  obtain ⟨finite, card⟩ := Set.encard_le_coe_iff_finite_ncard_le.1 h
  have mem : ∀ s, s ∈ finite.toFinset.toList ↔ g.Reaches s := fun s ↦ by
    rw [Finset.mem_toList, Set.Finite.mem_toFinset]
    rfl
  have size : finite.toFinset.toList.length ≤ stateLimit := by
    rwa [Finset.length_toList, ← Set.ncard_eq_toFinset_card _ finite]
  obtain ⟨c, found, _⟩ := exists_canonical size ((mem _).2 .initial)
    (fun s hs x ne ↦ (mem _).2 (.goto ((mem s).1 hs) (ItemSet.mem_symbols_of_kernel ne) ne))
  exact ⟨c, found⟩

theorem items_transitions (c : Collection) :
    (Automaton.transitions c).map State.items = c.states.toList := by
  refine List.ext_getElem? fun i ↦ ?_
  rw [List.getElem?_map, Automaton.transitions_getElem?, Option.map_map, Array.getElem?_toList]
  exact Option.map_id' ..

/-- The transitions of a state of a collection. -/
theorem exists_of_mem_transitions {state : State} (h : canonical g = some c)
    (hs : state ∈ Automaton.transitions c) :
    ∃ id, c.itemsOf id = some state.items ∧ ∀ x act, state.action? x = some act ↔
      state.items.kernel g x ≠ [] ∧ ∃ target,
        c.itemsOf target = some (state.items.goto g x) ∧ act = .enter x target := by
  have explored := explored_of_canonical h
  obtain ⟨i, place⟩ := List.mem_iff_getElem?.1 hs
  rw [Automaton.transitions_getElem?, Option.map_eq_some_iff] at place
  obtain ⟨items, place, rfl⟩ := place
  exact ⟨⟨i⟩, place, fun x act ↦
    Automaton.action?_of_rowOf explored.numbered (explored.row _ _ place)⟩

theorem canonicalStates_of_canonical (h : canonical g = some c) :
    g.CanonicalStates (Automaton.transitions c) where
  mem_iff items := by rw [items_transitions, mem_states_iff_reaches h]
  nodup := by
    rw [items_transitions]
    exact (explored_of_canonical h).numbered.nodup
  id_eq i s hs := by
    rw [Automaton.transitions_getElem?, Option.map_eq_some_iff] at hs
    obtain ⟨_, _, rfl⟩ := hs
    rfl
  initial := by
    rw [items_transitions, List.head?_eq_getElem?, Array.getElem?_toList]
    exact (explored_of_canonical h).initial
  order := by
    rw [items_transitions]
    exact (order_of_canonical h).1
  earlier := by
    rw [items_transitions]
    exact fun j s ↦ (order_of_canonical h).2 j s
  closed s hs i hi n next r hr := by
    have mem := List.mem_map_of_mem (f := State.items) hs
    rw [items_transitions, mem_states_iff_reaches h] at mem
    exact mem.closed hi next hr
  exists_action_iff s hs x := by
    obtain ⟨id, place, action_iff⟩ := exists_of_mem_transitions h hs
    refine ⟨fun ⟨act, ha⟩ ↦ ((action_iff x act).1 ha).1, fun ne ↦ ?_⟩
    have row := (explored_of_canonical h).row id _ place
    obtain ⟨target, mem⟩ := row.complete x (ItemSet.mem_symbols_of_kernel ne) ne
    exact ⟨_, (action_iff x _).2 ⟨ne, target, (row.sound x target mem).2.2, rfl⟩⟩
  target s hs x act ha := by
    obtain ⟨_, _, action_iff⟩ := exists_of_mem_transitions h hs
    obtain ⟨_, target, place, rfl⟩ := (action_iff x act).1 ha
    exact ⟨target.index, _, by rw [Automaton.transitions_getElem?, place]; rfl, rfl, rfl⟩

end Collection

/-! ## A grammar with many states -/

/-- The grammar of `A -> a ... a`, with so many `a`. -/
def Grammar.repeated (k : Nat) : Grammar where
  terminals := #["$end", "a"]
  nonterminals := #["$start", "A"]
  terminals_zero := rfl
  nonterminals_zero := rfl
  names_nodup := by decide
  start := ⟨1⟩
  rules := #[.augmenting ⟨1⟩, ⟨⟨1⟩, .replicate k (.terminal ⟨1⟩)⟩]
  start_declared := by decide
  rules_zero := rfl
  rules_declared := by
    intro r hr
    simp only [List.tail_cons, List.mem_singleton] at hr
    subst hr
    refine ⟨⟨Nat.zero_lt_one, Nat.le_of_ble_eq_true rfl⟩, fun x hx ↦ ?_⟩
    rw [Array.toList_replicate] at hx
    rw [(List.mem_replicate.1 hx).2]
    decide
  rules_nodup := by simp [Rule.augmenting, Nonterminal.augmented]

namespace Repeated

open Grammar

variable {k d : Nat} {form front : List Symbol} {n : Nonterminal} {i : Item}

theorem dotsFit (hk : k ≤ 65535) : (repeated k).DotsFit := by
  intro r mem _
  rcases List.mem_pair.1 mem with rfl | rfl
  · exact Nat.le_of_ble_eq_true rfl
  · simpa using hk

/-- There is a nonterminal in front only. -/
theorem leftContext_eq_nil (h : (repeated k).LeftContext n front) : front = [] := by
  induction h with
  | augmented => rfl
  | @enter r mem context before after n _ e ih =>
    rw [ih, List.nil_append]
    rcases List.mem_pair.1 mem with rfl | rfl
    · rcases List.append_eq_singleton_iff.1 e.symm with ⟨rfl, _⟩ | ⟨_, none⟩
      · rfl
      · cases none
    · have terminal : .nonterminal n ∈ before ++ .nonterminal n :: after := by simp
      rw [← e, Array.toList_replicate] at terminal
      cases (List.mem_replicate.1 terminal).2

/-- The set after so many symbols. -/
def read (k d : Nat) : ItemSet := .along (repeated k) (List.replicate d (.terminal ⟨1⟩))

/-- The dot of the long rule tells how many symbols have been read. -/
theorem eq_take_of_mem (hk : k ≤ 65535) (hi : i ∈ ItemSet.along (repeated k) form)
    (rule : i.rule = ⟨1⟩) : form = List.replicate (min i.dot.toNat k) (.terminal ⟨1⟩) := by
  obtain ⟨_, front, e, context⟩ := ItemSet.leftContext_of_mem_along (dotsFit hk) hi
  rw [e, leftContext_eq_nil context, rule]
  exact (congrArg _ Array.toList_replicate).trans List.take_replicate

theorem exists_mem_read (hk : k ≤ 65535) (hd : d ≤ k) :
    ∃ i ∈ read k d, i.rule = ⟨1⟩ ∧ i.dot.toNat = d := by
  have entered : .initial ⟨1⟩ ∈ ItemSet.along (repeated k) [] :=
    ItemSet.initial_mem_along (n := ⟨1⟩) ItemSet.initial_accept_mem_along_nil rfl
      (mem_rulesFor.2 ⟨Nat.le_of_ble_eq_true rfl, rfl⟩)
  have size : ((repeated k).rule ⟨1⟩).right.size = k := Array.size_replicate
  have right : ((repeated k).rule ⟨1⟩).right.toList = List.replicate k (.terminal ⟨1⟩) :=
    Array.toList_replicate
  have met := ItemSet.mem_along_of_initial_mem entered (k := d) (by omega) (by omega)
  rwa [List.nil_append, right, List.take_replicate, Nat.min_eq_left hd] at met

/-- The dot tells the sets after different numbers of symbols apart. -/
theorem read_injOn (hk : k ≤ 65535) : Set.InjOn (read k) (Finset.Iic k) := by
  intro d hd e _ same
  have le := Finset.mem_Iic.1 (Finset.mem_coe.1 hd)
  obtain ⟨i, hi, rule, dot⟩ := exists_mem_read hk le
  rw [same] at hi
  have length := congrArg List.length (eq_take_of_mem hk hi rule)
  simp only [List.length_replicate, dot] at length
  omega

theorem read_ne_along_start (hk : k ≤ 65535) (hd : d ≤ k) :
    read k d ≠ ItemSet.along (repeated k) [.nonterminal ⟨1⟩] := by
  intro same
  obtain ⟨i, hi, rule, _⟩ := exists_mem_read hk hd
  rw [same] at hi
  have other : Symbol.nonterminal ⟨1⟩ ∈ [Symbol.nonterminal ⟨1⟩] := List.mem_singleton.2 rfl
  rw [eq_take_of_mem hk hi rule] at other
  cases (List.mem_replicate.1 other).2

/-- There is a set for each number of symbols read, and one more for the start symbol. -/
theorem le_encard_itemSets (hk : k ≤ 65535) : (k + 2 : Nat) ≤ (repeated k).itemSets.encard := by
  have fresh : ItemSet.along (repeated k) [.nonterminal ⟨1⟩] ∉ read k '' Finset.Iic k := by
    rintro ⟨d, hd, same⟩
    exact read_ne_along_start hk (Finset.mem_Iic.1 (Finset.mem_coe.1 hd)) same
  have count : (insert (ItemSet.along (repeated k) [.nonterminal ⟨1⟩])
      (read k '' Finset.Iic k)).encard = (k + 2 : Nat) := by
    rw [Set.encard_insert_of_notMem fresh, (read_injOn hk).encard_image,
      Set.encard_coe_eq_coe_finsetCard, Nat.card_Iic]
    rfl
  rw [← count]
  refine Set.encard_le_encard (Set.insert_subset ?_ ?_)
  · obtain ⟨i, hi, _⟩ := exists_accept_mem (repeated k)
    exact reaches_along ⟨i, hi⟩
  · rintro _ ⟨d, hd, rfl⟩
    obtain ⟨i, hi, _⟩ := exists_mem_read hk (Finset.mem_Iic.1 (Finset.mem_coe.1 hd))
    exact reaches_along ⟨i, hi⟩

end Repeated

end SimpleLR

import SimpleLR.Automaton.Basic
import SimpleLR.Proofs.Automaton.Collection
import SimpleLR.Proofs.Outcome

/-!
# The cells of a built automaton

An item set claims a cell when one of its items does: for entering a state over the symbol after
the dot, or, if the dot is at the end, for reducing on the FOLLOW set of the left side. A built
automaton has in each cell what the items of the state claim, and nothing else
(`Automaton.tabulates_of_build`).
-/

namespace SimpleLR

/-- A list mapped with success, place by place. -/
theorem mapM_getElem?_cases {ε α β : Type} {f : α → Except ε β} {l : List α} {l' : List β}
    (h : l.mapM f = .ok l') (i : Nat) :
    l[i]? = none ∧ l'[i]? = none ∨ ∃ a b, l[i]? = some a ∧ l'[i]? = some b ∧ f a = .ok b := by
  have placed := Except.mapM_eq_ok_iff.1 h
  clear h
  induction placed generalizing i with
  | nil => exact .inl ⟨rfl, rfl⟩
  | cons hb _ ih =>
    cases i with
    | zero => exact .inr ⟨_, _, rfl, rfl, hb⟩
    | succ i => exact ih i

/-! ## Placing the reductions of a state -/

namespace State

variable {g : Grammar} {s s' s'' : State} {x : Symbol} {act : Action} {r : RuleId} {t : Terminal}

/-- A state has the cells of another and those that are given. -/
structure Adds (s' s : State) (cells : Symbol → Action → Prop) : Prop where
  id : s'.id = s.id
  items : s'.items = s.items
  action_iff : ∀ x act, s'.action? x = some act ↔ s.action? x = some act ∨ cells x act

theorem adds_none (s : State) : s.Adds s fun _ _ ↦ False :=
  ⟨rfl, rfl, by simp⟩

theorem Adds.congr {p q : Symbol → Action → Prop} (h : s'.Adds s p)
    (e : ∀ x act, p x act ↔ q x act) : s'.Adds s q :=
  ⟨h.id, h.items, fun x act ↦ (h.action_iff x act).trans (or_congr_right (e x act))⟩

theorem Adds.trans {p q : Symbol → Action → Prop} (h' : s''.Adds s' q) (h : s'.Adds s p) :
    s''.Adds s fun x act ↦ p x act ∨ q x act where
  id := h'.id.trans h.id
  items := h'.items.trans h.items
  action_iff x act := by rw [h'.action_iff, h.action_iff, or_assoc]

/-- Each step of a fold adds its cells. -/
theorem adds_foldlM {α : Type} {f : State → α → Except BuildError State}
    {cells : α → Symbol → Action → Prop}
    (step : ∀ s a s', f s a = .ok s' → s'.Adds s (cells a)) {l : List α}
    (h : l.foldlM f s = .ok s') : s'.Adds s fun x act ↦ ∃ a ∈ l, cells a x act := by
  induction l generalizing s with
  | nil =>
    cases h
    exact (adds_none s').congr (by simp)
  | cons a l ih =>
    rw [List.foldlM_cons] at h
    obtain ⟨s₁, h₁, h⟩ := Except.bind_eq_ok_iff.1 h
    exact ((ih h).trans (step s a s₁ h₁)).congr (by simp)

/-- A free cell is filled, and one that holds the same action is left as it is. -/
theorem place_cases (h : s.place r t = .ok s') :
    s.action? (.terminal t) = some (.complete r) ∧ s' = s ∨
      s.action? (.terminal t) = none ∧
        s' = { s with actions := s.actions ++ [(.terminal t, .complete r)] } := by
  rw [place] at h
  split at h
  · next free =>
    cases h
    exact .inr ⟨free, rfl⟩
  · next act taken =>
    split at h
    · next e =>
      cases h
      exact .inl ⟨taken.trans (congrArg some e), rfl⟩
    · split at h <;> cases h

theorem adds_of_place (h : s.place r t = .ok s') :
    s'.Adds s fun x act ↦ x = .terminal t ∧ act = .complete r := by
  rcases place_cases h with ⟨taken, rfl⟩ | ⟨free, rfl⟩
  · refine ⟨rfl, rfl, fun x act ↦ ⟨.inl, ?_⟩⟩
    rintro (h | ⟨rfl, rfl⟩)
    · exact h
    · exact taken
  · refine ⟨rfl, rfl, fun x act ↦ ?_⟩
    have single : ([(.terminal t, .complete r)] : List (Symbol × Action)).lookup x = some act ↔
        x = .terminal t ∧ act = .complete r := by
      by_cases e : x = .terminal t
      · simp [e, eq_comm]
      · rw [List.lookup_cons, beq_false_of_ne e]
        simp [e]
    rw [action?, List.lookup_append, Option.or_eq_some_iff, single]
    constructor
    · rintro (h | ⟨_, h⟩)
      · exact .inl h
      · exact .inr h
    · rintro (h | ⟨rfl, rfl⟩)
      · exact .inl h
      · exact .inr ⟨free, rfl, rfl⟩

theorem mem_completeRules :
    r ∈ s.completeRules g ↔ ∃ i ∈ s.items, i.isComplete g = true ∧ i.rule = r := by
  rw [completeRules, List.mem_filterMap]
  apply exists_congr
  intro i
  apply and_congr_right
  intro _
  by_cases h : i.isComplete g <;> simp [h]

theorem adds_of_placeAll {f : FirstFollow} (h : s.placeAll g f = .ok s') :
    s'.Adds s fun x act ↦ ∃ i ∈ s.items, i.isComplete g = true ∧
      ∃ t ∈ f.follow (g.rule i.rule).left, x = .terminal t ∧ act = .complete i.rule := by
  have adds := adds_foldlM (fun s r s' h ↦ adds_foldlM (fun s t s' h ↦ adds_of_place h) h) h
  apply adds.congr
  intro x act
  simp only [mem_completeRules, IndexSet.mem_toList]
  constructor
  · rintro ⟨_, ⟨i, hi, complete, rfl⟩, t, ht, rfl, rfl⟩
    exact ⟨i, hi, complete, t, ht, rfl, rfl⟩
  · rintro ⟨i, hi, complete, t, ht, rfl, rfl⟩
    exact ⟨_, ⟨i, hi, complete, rfl⟩, t, ht, rfl, rfl⟩

end State

/-! ## The transitions -/

theorem ItemSet.mem_symbols_of_kernel {g : Grammar} {s : ItemSet} {x : Symbol}
    (h : s.kernel g x ≠ []) : x ∈ g.symbols := by
  obtain ⟨j, hj⟩ := List.exists_mem_of_ne_nil _ h
  obtain ⟨i, _, next, _⟩ := ItemSet.mem_kernel.1 hj
  have declared := Grammar.declares_of_mem_right (Item.mem_right_of_next next)
  rw [Alphabet.symbols, List.mem_append]
  cases x with
  | terminal t =>
    refine .inl (List.mem_map_of_mem (List.mem_map.2 ⟨t.index, List.mem_range.2 ?_, rfl⟩))
    exact declared.2
  | nonterminal n =>
    refine .inr (List.mem_map_of_mem (List.mem_map.2 ⟨n.index, List.mem_range.2 ?_, rfl⟩))
    exact declared.2

namespace Automaton

variable {g : Grammar} {c : Collection} {s : State} {items : ItemSet} {id : StateId} {x : Symbol}
  {act : Action}

theorem transitions_getElem? (i : Nat) :
    (transitions c)[i]? = (c.itemsOf ⟨i⟩).map fun items ↦
      { id := ⟨i⟩, items, actions := (c.rows[i]?.getD []).map fun (x, n) ↦ (x, .enter x n) } := by
  simp [transitions, Collection.itemsOf]

theorem lookup_enter_eq_some {r : List (Symbol × StateId)} :
    (r.map fun (x, n) ↦ (x, Action.enter x n)).lookup x = some act ↔
      ∃ target, r.lookup x = some target ∧ act = .enter x target := by
  induction r with
  | nil => simp
  | cons p r ih =>
    obtain ⟨y, n⟩ := p
    rw [List.map_cons, List.lookup_cons, List.lookup_cons]
    by_cases e : x = y
    · subst e
      simp [eq_comm]
    · rw [beq_false_of_ne e]
      exact ih

/-- The transitions of a state, read off its row. -/
theorem action?_of_rowOf {r : List (Symbol × StateId)} (hc : c.Numbered)
    (hr : Collection.RowOf g c items g.symbols r) :
    (r.map fun (x, n) ↦ (x, Action.enter x n)).lookup x = some act ↔
      items.kernel g x ≠ [] ∧ ∃ target, c.itemsOf target = some (items.goto g x) ∧
        act = .enter x target := by
  rw [lookup_enter_eq_some]
  constructor
  · rintro ⟨target, h, rfl⟩
    obtain ⟨front, rest, rfl, _⟩ := List.lookup_eq_some_iff.1 h
    obtain ⟨_, ne, place⟩ := hr.sound x target (by simp)
    exact ⟨ne, target, place, rfl⟩
  · rintro ⟨ne, target, place, rfl⟩
    obtain ⟨target', mem⟩ := hr.complete x (ItemSet.mem_symbols_of_kernel ne) ne
    have found : (r.lookup x).isSome := List.lookup_isSome_iff.2 ⟨_, mem, beq_self_eq_true x⟩
    obtain ⟨target', h⟩ := Option.isSome_iff_exists.1 found
    obtain ⟨front, rest, rfl, _⟩ := List.lookup_eq_some_iff.1 h
    -- the row may hold another number only if it is the number of the same set
    obtain rfl := hc.inj place (hr.sound x target' (by simp)).2.2
    exact ⟨target, h, rfl⟩

/-! ## The whole table -/

/-- The items of the state of that number. -/
def itemsOf (a : Automaton) (id : StateId) : Option ItemSet := (a.state? id).map State.items

/-- What the items of a set claim for the cell of a symbol. -/
inductive Claims (a : Automaton) (items : ItemSet) : Symbol → Action → Prop
  /-- The dot moves over the symbol. -/
  | enter {x : Symbol} {target : StateId} (ne : items.kernel a.grammar x ≠ [])
    (place : a.itemsOf target = some (items.goto a.grammar x)) : Claims a items x (.enter x target)
  /-- The dot is at the end, and the terminal may follow. -/
  | complete {i : Item} {t : Terminal} (hi : i ∈ items) (complete : i.isComplete a.grammar = true)
    (ht : t ∈ (FirstFollow.ofGrammar a.grammar).follow (a.grammar.rule i.rule).left) :
    Claims a items (.terminal t) (.complete i.rule)

/-- An automaton has in its cells what the items of its states claim. -/
structure Tabulates (a : Automaton) : Prop where
  /-- The first state is the one in which reading starts. -/
  initial : a.itemsOf .initial = some (.initial a.grammar)
  /-- Every transition has a target. -/
  goto : ∀ id items, a.itemsOf id = some items → ∀ x, items.kernel a.grammar x ≠ [] →
    ∃ target, a.itemsOf target = some (items.goto a.grammar x)
  action_iff : ∀ id items, a.itemsOf id = some items → ∀ x act,
    a.action? id x = some act ↔ a.Claims items x act

variable {a : Automaton}

theorem build_eq_ok_iff :
    build g = .ok a ↔ ∃ c, Collection.canonical g = some c ∧ ∃ states,
      (transitions c).mapM (State.placeAll g (.ofGrammar g)) = .ok states ∧
        a = { grammar := g, states := states.toArray } := by
  rw [build]
  cases Collection.canonical g with
  | none => simp
  | some c =>
    simp only [Option.some.injEq, exists_eq_left']
    refine Except.bind_eq_ok_iff.trans (exists_congr fun states ↦ and_congr_right fun _ ↦ ?_)
    exact ⟨fun h ↦ by cases h; rfl, fun h ↦ by rw [h]; rfl⟩

/-- The state of a collection before the reductions are placed. -/
def unreduced (c : Collection) (id : StateId) (items : ItemSet) : State where
  id := id
  items := items
  actions := (c.rows[id.index]?.getD []).map fun (x, n) ↦ (x, .enter x n)

/-- The states of a built automaton are those of the collection, with the reductions placed. -/
theorem state?_cases {c : Collection} {states : List State}
    (h : (transitions c).mapM (State.placeAll g (.ofGrammar g)) = .ok states) (id : StateId) :
    c.itemsOf id = none ∧ (⟨g, states.toArray⟩ : Automaton).state? id = none ∨
      ∃ items s, c.itemsOf id = some items ∧
        (⟨g, states.toArray⟩ : Automaton).state? id = some s ∧
          (unreduced c id items).placeAll g (.ofGrammar g) = .ok s := by
  rw [state?, List.getElem?_toArray]
  rcases mapM_getElem?_cases h id.index with ⟨none, none'⟩ | ⟨s, s', hs, hs', placed⟩
  · rw [transitions_getElem?, Option.map_eq_none_iff] at none
    exact .inl ⟨none, none'⟩
  · rw [transitions_getElem?, Option.map_eq_some_iff] at hs
    obtain ⟨items, hitems, rfl⟩ := hs
    exact .inr ⟨items, s', hitems, hs', placed⟩

/-- Placing the reductions keeps the item sets. -/
theorem itemsOf_of_placed {c : Collection} {states : List State}
    (h : (transitions c).mapM (State.placeAll g (.ofGrammar g)) = .ok states) (id : StateId) :
    (⟨g, states.toArray⟩ : Automaton).itemsOf id = c.itemsOf id := by
  rw [itemsOf]
  rcases state?_cases h id with ⟨none, none'⟩ | ⟨items, s, hs, hs', placed⟩
  · rw [none, none']
    rfl
  · rw [hs, hs']
    exact congrArg some (State.adds_of_placeAll placed).items

/-- A built automaton has the cells that its items claim. -/
theorem tabulates_of_build (h : build g = .ok a) : a.grammar = g ∧ a.Tabulates := by
  obtain ⟨c, hc, states, placed, rfl⟩ := build_eq_ok_iff.1 h
  have explored := Collection.explored_of_canonical hc
  have same := itemsOf_of_placed placed
  refine ⟨rfl, (same _).trans explored.initial, fun id items hs x ne ↦ ?_,
    fun id items hs x act ↦ ?_⟩
  · rw [same] at hs
    obtain ⟨target, mem⟩ :=
      (explored.row id items hs).complete x (ItemSet.mem_symbols_of_kernel ne) ne
    exact ⟨target, (same _).trans ((explored.row id items hs).sound x target mem).2.2⟩
  · rw [same] at hs
    rcases state?_cases placed id with ⟨none, _⟩ | ⟨items', s, hs', hs'', placed⟩
    · rw [none] at hs
      cases hs
    · obtain rfl : items = items' := Option.some.inj (hs.symm.trans hs')
      have cells := (State.adds_of_placeAll placed).action_iff x act
      rw [action?, hs'', Option.bind_some, cells, State.action?, unreduced,
        action?_of_rowOf explored.numbered (explored.row id items hs)]
      constructor
      · rintro (⟨ne, target, place, rfl⟩ | ⟨i, hi, complete, t, ht, rfl, rfl⟩)
        · exact .enter ne ((same target).trans place)
        · exact .complete hi complete ht
      · rintro (⟨ne, place⟩ | ⟨hi, complete, ht⟩)
        · exact .inl ⟨ne, _, (same _).symm.trans place, rfl⟩
        · exact .inr ⟨_, hi, complete, _, ht, rfl, rfl⟩

/-! ## Automata of given grammars -/

theorem exists_build (h : (build g).toOption.isSome = true) : ∃ a, build g = .ok a := by
  cases e : build g with
  | error _ =>
    rw [e] at h
    cases h
  | ok a => exact ⟨a, rfl⟩

/-- What is computed from the automaton that building returns. -/
theorem eq_of_build {β : Type} {f : Automaton → β} {b : β} (h : build g = .ok a)
    (e : (build g).toOption.map f = some b) : f a = b := by
  rw [h] at e
  exact Option.some.inj e

end Automaton

/-- The grammar of `S -> a S b` and `S -> ε`. -/
def Grammar.nested : Grammar where
  terminals := #["$end", "a", "b"]
  nonterminals := #["$start", "S"]
  terminals_zero := rfl
  nonterminals_zero := rfl
  names_nodup := by decide
  start := ⟨1⟩
  rules := #[.augmenting ⟨1⟩, ⟨⟨1⟩, #[.terminal ⟨1⟩, .nonterminal ⟨1⟩, .terminal ⟨2⟩]⟩, ⟨⟨1⟩, #[]⟩]
  start_declared := by decide
  rules_zero := rfl
  rules_declared := by decide
  rules_nodup := by decide

theorem Automaton.exists_build_nested : ∃ a, build .nested = .ok a :=
  exists_build (by decide +kernel)

end SimpleLR

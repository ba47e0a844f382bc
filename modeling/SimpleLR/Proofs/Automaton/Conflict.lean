import SimpleLR.Proofs.Automaton.Table

/-!
# The first conflict

The reductions of a state are placed rule by rule and, for each rule, terminal by terminal
(`State.reductions`), so they are met in the order of rules and terminals. The first one that finds
its cell taken is therefore the least one that clashes with a transition or with an earlier rule
(`State.Stuck`), and building stops there, in the first state that has one
(`Automaton.build_first_conflict`).
-/

namespace SimpleLR

/-! ## The first failure -/

/-- How a fold fails: it goes well up to some element, and fails there. -/
theorem foldlM_error_cases {ε α β : Type} {f : β → α → Except ε β} {l : List α} {b : β} {e : ε}
    (h : l.foldlM f b = .error e) :
    ∃ front a rest b', l = front ++ a :: rest ∧ front.foldlM f b = .ok b' ∧ f b' a = .error e := by
  induction l generalizing b with
  | nil => cases h
  | cons a l ih =>
    rw [List.foldlM_cons] at h
    cases first : f b a with
    | error e' =>
      rw [first] at h
      cases h
      exact ⟨[], a, l, b, rfl, rfl, first⟩
    | ok b₁ =>
      rw [first] at h
      obtain ⟨front, a', rest, b', rfl, done, failed⟩ := ih h
      refine ⟨a :: front, a', rest, b', rfl, ?_, failed⟩
      rw [List.foldlM_cons, first]
      exact done

/-- How mapping a list fails: at some element, after all those before it have been mapped. -/
theorem mapM_error_cases {ε α β : Type} {f : α → Except ε β} {l : List α} {e : ε}
    (h : l.mapM f = .error e) :
    ∃ front a rest, l = front ++ a :: rest ∧ (∀ a' ∈ front, ∃ b, f a' = .ok b) ∧
      f a = .error e := by
  induction l with
  | nil => cases h
  | cons a l ih =>
    rw [List.mapM_cons] at h
    cases first : f a with
    | error e' =>
      rw [first] at h
      cases h
      exact ⟨[], a, l, rfl, by simp, first⟩
    | ok b =>
      rw [first] at h
      cases others : l.mapM f with
      | ok bs =>
        rw [others] at h
        cases h
      | error e' =>
        rw [others] at h
        cases h
        obtain ⟨front, a', rest, rfl, done, failed⟩ := ih others
        refine ⟨a :: front, a', rest, rfl, fun x hx ↦ ?_, failed⟩
        rcases List.mem_cons.1 hx with rfl | hx
        · exact ⟨b, first⟩
        · exact done x hx

theorem foldlM_flatMap {ε α β γ : Type} (f : γ → β → Except ε γ) (parts : α → List β) (l : List α)
    (c : γ) : (l.flatMap parts).foldlM f c = l.foldlM (fun c a ↦ (parts a).foldlM f c) c := by
  induction l generalizing c with
  | nil => rfl
  | cons a l ih =>
    rw [List.flatMap_cons, List.foldlM_append, List.foldlM_cons]
    exact bind_congr ih

/-! ## The order of the reductions -/

/-- A rule can be reduced before a terminal: its item is complete, and the terminal may follow. -/
def ItemSet.Reduces (g : Grammar) (items : ItemSet) (r : RuleId) (t : Terminal) : Prop :=
  ∃ i ∈ items, i.isComplete g = true ∧ i.rule = r ∧
    t ∈ (FirstFollow.ofGrammar g).follow (g.rule r).left

/-- A rule can be reduced before a terminal, but the terminal can be read there as well, or an
earlier rule can be reduced. -/
def ItemSet.Clashes (g : Grammar) (items : ItemSet) (r : RuleId) (t : Terminal) : Prop :=
  items.Reduces g r t ∧
    (items.kernel g (.terminal t) ≠ [] ∨ ∃ r', r'.index < r.index ∧ items.Reduces g r' t)

namespace Item

variable {g : Grammar} {i j : Item}

/-- The dot does not stand behind the end of the right side. -/
def InBounds (g : Grammar) (i : Item) : Prop := i.dot.toNat ≤ (g.rule i.rule).right.size

theorem inBounds_initial (g : Grammar) (r : RuleId) : (initial r).InBounds g := Nat.zero_le _

theorem inBounds_moved {x : Symbol} (h : i.next? g = some x) : i.moved.InBounds g := by
  have lt := dot_lt_of_next h
  rw [InBounds, moved, UInt16.toNat_add]
  exact Nat.le_trans (Nat.mod_le _ _) lt

/-- Of two complete items the rules decide which comes first. -/
theorem rule_lt_of_before (hi : i.InBounds g) (hj : j.InBounds g) (ci : i.isComplete g = true)
    (cj : j.isComplete g = true) (h : i.Before j) : i.rule.index < j.rule.index := by
  have di : i.dot.toNat = (g.rule i.rule).right.size := Nat.le_antisymm hi (of_decide_eq_true ci)
  have dj : j.dot.toNat = (g.rule j.rule).right.size := Nat.le_antisymm hj (of_decide_eq_true cj)
  have lt := i.dot.toNat_lt
  have lt' := j.dot.toNat_lt
  simp only [Before, code] at h
  by_contra not_lt
  have le : j.rule.index ≤ i.rule.index := Nat.le_of_not_lt not_lt
  have same : i.rule.index = j.rule.index := by omega
  rw [di, dj, show i.rule = j.rule from congrArg RuleId.mk same] at h
  exact Nat.lt_irrefl _ h

end Item

theorem Grammar.Reaches.inBounds {g : Grammar} {items : ItemSet} {i : Item} (h : g.Reaches items)
    (hi : i ∈ items) : i.InBounds g :=
  h.item_induction (fun r _ ↦ Item.inBounds_initial g r)
    (fun _ _ _ next ↦ Item.inBounds_moved next) i hi

namespace State

variable {g : Grammar} {s s' : State} {r r' : RuleId} {t : Terminal} {e : BuildError}

/-- The reductions of a state, in the order in which they are placed. -/
def reductions (g : Grammar) (s : State) : List (RuleId × Terminal) :=
  (s.completeRules g).flatMap fun r ↦
    ((FirstFollow.ofGrammar g).follow (g.rule r).left).toList.map (r, ·)

theorem mem_reductions : (r, t) ∈ s.reductions g ↔ s.items.Reduces g r t := by
  simp only [reductions, List.mem_flatMap, List.mem_map, IndexSet.mem_toList, Prod.mk.injEq,
    mem_completeRules, ItemSet.Reduces]
  constructor
  · rintro ⟨_, ⟨i, hi, complete, rfl⟩, t, follow, rfl, rfl⟩
    exact ⟨i, hi, complete, rfl, follow⟩
  · rintro ⟨i, hi, complete, rfl, follow⟩
    exact ⟨_, ⟨i, hi, complete, rfl⟩, t, follow, rfl, rfl⟩

/-- Placing all reductions is placing them one after another. -/
theorem placeAll_eq_foldlM :
    s.placeAll g (.ofGrammar g) = (s.reductions g).foldlM (fun s p ↦ s.place p.1 p.2) s := by
  rw [reductions, foldlM_flatMap]
  simp only [List.foldlM_map]
  rfl

/-- One reduction is placed before another. -/
def Earlier (p q : RuleId × Terminal) : Prop :=
  p.1.index < q.1.index ∨ p.1 = q.1 ∧ p.2.index < q.2.index

/-- The reductions of a set that is reached are placed in order. -/
theorem reductions_pairwise (h : g.Reaches s.items) : (s.reductions g).Pairwise Earlier := by
  have rules : (s.completeRules g).Pairwise fun r r' ↦ r.index < r'.index := by
    rw [completeRules, List.pairwise_filterMap]
    refine s.items.ascending.imp_of_mem fun {i j} hi hj before r hr r' hr' ↦ ?_
    obtain ⟨ci, e⟩ := Option.ite_none_right_eq_some.1 hr
    obtain ⟨cj, e'⟩ := Option.ite_none_right_eq_some.1 hr'
    cases e
    cases e'
    exact Item.rule_lt_of_before (h.inBounds hi) (h.inBounds hj) ci cj before
  rw [reductions, List.pairwise_flatMap]
  refine ⟨fun r _ ↦ ?_, rules.imp fun {r r'} lt p hp q hq ↦ ?_⟩
  · rw [List.pairwise_map]
    exact (IndexSet.toList_ascending _).imp fun lt ↦ .inr ⟨rfl, lt⟩
  · obtain ⟨_, _, rfl⟩ := List.mem_map.1 hp
    obtain ⟨_, _, rfl⟩ := List.mem_map.1 hq
    exact .inl lt

/-! ## Where placing the reductions of a state stops -/

/-- The error for a cell in which another action stands. -/
def conflict (s : StateId) (t : Terminal) (r : RuleId) : Action → BuildError
  | .shift next | .goto next => .shiftReduce s t next r
  | .reduce first => .reduceReduce s t first r
  | .accept => .reduceReduce s t .accept r

theorem conflict_complete (id : StateId) :
    conflict id t r (.complete r') = .reduceReduce id t r' r := by
  rw [Action.complete]
  split
  · next e => rw [e, conflict]
  · rfl

theorem place_error_cases (h : s.place r t = .error e) :
    ∃ act, s.action? (.terminal t) = some act ∧ act ≠ .complete r ∧ e = conflict s.id t r act := by
  rw [place] at h
  split at h
  · cases h
  · next act taken =>
    split at h
    · cases h
    · next ne =>
      refine ⟨act, taken, ne, ?_⟩
      split at h <;> cases h <;> rfl

/-- Some reductions are placed: each of them in its cell, and the other cells stay as they are. -/
theorem adds_of_places {l : List (RuleId × Terminal)}
    (h : l.foldlM (fun s p ↦ s.place p.1 p.2) s = .ok s') :
    s'.Adds s fun x act ↦ ∃ p ∈ l, x = .terminal p.2 ∧ act = .complete p.1 :=
  adds_foldlM (fun _ _ _ h ↦ adds_of_place h) h

/-- The actions of a state on terminals are its transitions. -/
structure Unreduced (g : Grammar) (s : State) : Prop where
  shift : ∀ t act, s.action? (.terminal t) = some act → ∃ j, act = .shift j
  exists_iff : ∀ t, (∃ act, s.action? (.terminal t) = some act) ↔
    s.items.kernel g (.terminal t) ≠ []

/-- Placing the reductions of a state stops at the first one that clashes: its cell holds a shift,
or else the only earlier rule that can be reduced there. -/
structure Stuck (g : Grammar) (s : State) (r : RuleId) (t : Terminal) (e : BuildError) : Prop where
  clashes : s.items.Clashes g r t
  first : ∀ r' t', s.items.Clashes g r' t' → ¬ Earlier (r', t') (r, t)
  error : (∃ j, s.action? (.terminal t) = some (.shift j) ∧ e = .shiftReduce s.id t j r) ∨
    s.items.kernel g (.terminal t) = [] ∧ ∃ r', r'.index < r.index ∧ s.items.Reduces g r' t ∧
      (∀ r'', r''.index < r.index → s.items.Reduces g r'' t → r'' = r') ∧
        e = .reduceReduce s.id t r' r

/-- A reduction that comes before others has been placed when they have not. -/
theorem mem_of_earlier {front rest : List (RuleId × Terminal)} {p q : RuleId × Terminal}
    (order : (front ++ p :: rest).Pairwise Earlier) (hq : q ∈ front ++ p :: rest)
    (earlier : Earlier q p) : q ∈ front := by
  rw [List.pairwise_append, List.pairwise_cons] at order
  rcases List.mem_append.1 hq with hq | hq
  · exact hq
  · refine absurd earlier ?_
    rcases List.mem_cons.1 hq with rfl | hq
    · simp [Earlier]
    · have later := order.2.1.1 q hq
      simp only [Earlier] at later ⊢
      grind

variable {front rest : List (RuleId × Terminal)} {p : RuleId × Terminal}

/-- Among reductions that have been placed there is no clash. -/
theorem not_clashes_of_places (hs : s.Unreduced g) (order : (front ++ rest).Pairwise Earlier)
    (all : s.reductions g = front ++ rest)
    (h : front.foldlM (fun s p ↦ s.place p.1 p.2) s = .ok s') (hr : (r, t) ∈ front) :
    ¬ s.items.Clashes g r t := by
  have adds := adds_of_places h
  have placed : s'.action? (.terminal t) = some (.complete r) :=
    (adds.action_iff _ _).2 (.inr ⟨_, hr, rfl, rfl⟩)
  rintro ⟨_, ne | ⟨r', lt, reduces⟩⟩
  · obtain ⟨act, taken⟩ := (hs.exists_iff t).2 ne
    obtain ⟨j, rfl⟩ := hs.shift t act taken
    have kept := (adds.action_iff _ _).2 (.inl taken)
    rw [placed] at kept
    exact Action.complete_ne_shift (Option.some.inj kept)
  · -- the earlier rule has been placed as well
    have mem : (r', t) ∈ front := by
      have mem := mem_reductions.2 reduces
      rw [all, List.mem_append] at mem
      refine mem.resolve_right fun later ↦ ?_
      rw [List.pairwise_append] at order
      have misplaced := order.2.2 _ hr _ later
      simp only [Earlier] at misplaced
      grind
    have kept := (adds.action_iff _ _).2 (.inr ⟨_, mem, rfl, rfl⟩)
    rw [placed] at kept
    rw [Action.complete_inj (Option.some.inj kept)] at lt
    exact Nat.lt_irrefl _ lt

theorem not_clashes_of_placeAll (hs : s.Unreduced g) (reached : g.Reaches s.items)
    (h : s.placeAll g (.ofGrammar g) = .ok s') : ¬ s.items.Clashes g r t := by
  intro clash
  rw [placeAll_eq_foldlM] at h
  have order := reductions_pairwise reached
  rw [← List.append_nil (s.reductions g)] at order
  exact not_clashes_of_places hs order (List.append_nil _).symm h (mem_reductions.2 clash.1) clash

/-- If the reductions of a state cannot be placed, placing them stops at the first clash. -/
theorem stuck_of_placeAll (hs : s.Unreduced g) (reached : g.Reaches s.items)
    (h : s.placeAll g (.ofGrammar g) = .error e) : ∃ r t, s.Stuck g r t e := by
  rw [placeAll_eq_foldlM] at h
  obtain ⟨front, ⟨r, t⟩, rest, s', all, done, failed⟩ := foldlM_error_cases h
  have order := reductions_pairwise reached
  rw [all] at order
  have adds := adds_of_places done
  obtain ⟨act, taken, ne, rfl⟩ := place_error_cases failed
  rw [adds.id]
  have reduces : s.items.Reduces g r t := mem_reductions.1 (by rw [all]; simp)
  have placed : ∀ r' t', s.items.Reduces g r' t' → Earlier (r', t') (r, t) → (r', t') ∈ front :=
    fun r' t' reduces' ↦ mem_of_earlier order (by rw [← all]; exact mem_reductions.2 reduces')
  have first : ∀ r' t', s.items.Clashes g r' t' → ¬ Earlier (r', t') (r, t) :=
    fun r' t' clash earlier ↦
      not_clashes_of_places hs order all done (placed r' t' clash.1 earlier) clash
  refine ⟨r, t, ?_⟩
  rcases (adds.action_iff _ _).1 taken with shifted | ⟨⟨r', _⟩, mem, same, rfl⟩
  · have read := (hs.exists_iff t).1 ⟨act, shifted⟩
    obtain ⟨j, rfl⟩ := hs.shift t act shifted
    exact ⟨⟨reduces, .inl read⟩, first, .inl ⟨j, shifted, rfl⟩⟩
  · cases same
    have lt : r'.index < r.index := by
      rw [List.pairwise_append] at order
      rcases order.2.2 _ mem _ List.mem_cons_self with lt | ⟨_, lt⟩
      · exact lt
      · exact absurd lt (Nat.lt_irrefl _)
    have reduces' : s.items.Reduces g r' t := mem_reductions.1 (by rw [all]; simp [mem])
    refine ⟨⟨reduces, .inr ⟨r', lt, reduces'⟩⟩, first, .inr ⟨?_, r', lt, reduces', ?_, ?_⟩⟩
    · -- a shift would stand in the cell
      by_contra read
      obtain ⟨act, shifted⟩ := (hs.exists_iff t).2 read
      obtain ⟨j, rfl⟩ := hs.shift t act shifted
      have kept := (adds.action_iff _ _).2 (.inl shifted)
      rw [taken] at kept
      exact Action.complete_ne_shift (Option.some.inj kept)
    · intro r'' lt' reduces''
      have kept := (adds.action_iff _ _).2
        (.inr ⟨_, placed r'' t reduces'' (.inl lt'), rfl, rfl⟩)
      rw [taken] at kept
      exact (Action.complete_inj (Option.some.inj kept)).symm
    · exact conflict_complete s.id

end State

/-! ## Where building stops -/

namespace Collection

variable {g : Grammar} {c : Collection} {id : StateId} {items : ItemSet}

/-- A state, a rule and a terminal. -/
structure Spot where
  state : StateId
  rule : RuleId
  terminal : Terminal

/-- Spots are ordered by the state, then by the rule, then by the terminal. -/
def Spot.Le (x y : Spot) : Prop :=
  x.state.index < y.state.index ∨ x.state = y.state ∧
    (x.rule.index < y.rule.index ∨ x.rule = y.rule ∧ x.terminal.index ≤ y.terminal.index)

/-- The rule can be reduced in the state before the terminal, but clashes there. -/
def ClashesAt (g : Grammar) (c : Collection) (x : Spot) : Prop :=
  ∃ items, c.itemsOf x.state = some items ∧ items.Clashes g x.rule x.terminal

/-- The error for a spot: with the target of the transition on the terminal if there is one, and
otherwise with the only earlier rule that can be reduced there. -/
inductive Reports (g : Grammar) (c : Collection) (x : Spot) : BuildError → Prop
  | shift {items : ItemSet} {j : StateId} (place : c.itemsOf x.state = some items)
    (ne : items.kernel g (.terminal x.terminal) ≠ [])
    (target : c.itemsOf j = some (items.goto g (.terminal x.terminal))) :
    Reports g c x (.shiftReduce x.state x.terminal j x.rule)
  | reduce {items : ItemSet} {r : RuleId} (place : c.itemsOf x.state = some items)
    (empty : items.kernel g (.terminal x.terminal) = []) (lt : r.index < x.rule.index)
    (reduces : items.Reduces g r x.terminal)
    (only : ∀ r', r'.index < x.rule.index → items.Reduces g r' x.terminal → r' = r) :
    Reports g c x (.reduceReduce x.state x.terminal r x.rule)

theorem unreduced (hc : Explored g c) (place : c.itemsOf id = some items) :
    (Automaton.unreduced c id items).Unreduced g := by
  have row := hc.row id items place
  have action_iff : ∀ t act, (Automaton.unreduced c id items).action? (.terminal t) = some act ↔
      items.kernel g (.terminal t) ≠ [] ∧ ∃ j,
        c.itemsOf j = some (items.goto g (.terminal t)) ∧ act = .enter (.terminal t) j :=
    fun t act ↦ Automaton.action?_of_rowOf hc.numbered row
  refine ⟨fun t act taken ↦ ?_, fun t ↦ ⟨fun ⟨act, taken⟩ ↦ ((action_iff t act).1 taken).1,
    fun ne ↦ ?_⟩⟩
  · obtain ⟨_, j, _, rfl⟩ := (action_iff t act).1 taken
    exact ⟨j, rfl⟩
  · obtain ⟨j, mem⟩ := row.complete _ (ItemSet.mem_symbols_of_kernel ne) ne
    exact ⟨_, (action_iff t _).2 ⟨ne, j, (row.sound _ _ mem).2.2, rfl⟩⟩

theorem reaches_of_itemsOf (h : canonical g = some c) (place : c.itemsOf id = some items) :
    g.Reaches items :=
  (mem_states_iff_reaches h).1 (mem_states_iff.2 ⟨id, place⟩)

end Collection

namespace Automaton

variable {g : Grammar} {c : Collection} {e : BuildError}

/-- If building fails though there is a collection, placing the reductions of some state stops, and
no state before it has a clash. -/
theorem stuck_of_build (hc : Collection.canonical g = some c) (h : build g = .error e) :
    ∃ id items r t, c.itemsOf id = some items ∧ (unreduced c id items).Stuck g r t e ∧
      ∀ id' items', id'.index < id.index → c.itemsOf id' = some items' →
        ∀ r t, ¬ items'.Clashes g r t := by
  have explored := Collection.explored_of_canonical hc
  have failed : (transitions c).mapM (State.placeAll g (.ofGrammar g)) = .error e := by
    rw [build, hc] at h
    dsimp only at h
    cases mapped : (transitions c).mapM (State.placeAll g (.ofGrammar g)) with
    | error e' =>
      rw [mapped] at h
      cases h
      rfl
    | ok states =>
      rw [mapped] at h
      cases h
  obtain ⟨front, s, rest, all, done, failed⟩ := mapM_error_cases failed
  have state : (transitions c)[front.length]? = some s := by rw [all]; simp
  rw [transitions_getElem?, Option.map_eq_some_iff] at state
  obtain ⟨items, place, rfl⟩ := state
  obtain ⟨r, t, stuck⟩ := State.stuck_of_placeAll (Collection.unreduced explored place)
    (Collection.reaches_of_itemsOf hc place) failed
  refine ⟨⟨front.length⟩, items, r, t, place, stuck, fun id items' lt place' r' t' ↦ ?_⟩
  have mem : unreduced c id items' ∈ front := by
    have state : (transitions c)[id.index]? = some (unreduced c id items') := by
      rw [transitions_getElem?, place']
      rfl
    rw [all, List.getElem?_append_left lt] at state
    exact List.mem_of_getElem? state
  obtain ⟨s', placed⟩ := done _ mem
  exact State.not_clashes_of_placeAll (Collection.unreduced explored place')
    (Collection.reaches_of_itemsOf hc place') placed

/-- The cells of an automaton decide what is claimed, so there is no conflict. -/
theorem conflictFree_of_build {a : Automaton} (h : build g = .ok a)
    (hc : Collection.canonical g = some c) : c.ConflictFree g := by
  intro id items place t act act' claim claim'
  have cell := (fills_of_build h hc).terminal id items place t
  rw [← cell] at claim claim'
  exact Option.some.inj (claim.symm.trans claim')

/-- If a terminal is claimed for two actions, building fails at the least spot with a clash, and
reports the shift there if there is one, and else the only earlier rule. -/
theorem build_first_conflict (fits : g.itemSets.encard ≤ stateLimit) :
    ∃ c, Collection.canonical g = some c ∧ (¬ c.ConflictFree g →
      ∃ x e, build g = .error e ∧ c.ClashesAt g x ∧ (∀ y, c.ClashesAt g y → x.Le y) ∧
        c.Reports g x e) := by
  obtain ⟨c, hc⟩ := Collection.exists_canonical_of_encard_le fits
  refine ⟨c, hc, fun conflict ↦ ?_⟩
  cases h : build g with
  | ok a => exact absurd (conflictFree_of_build h hc) conflict
  | error e =>
    obtain ⟨id, items, r, t, place, stuck, before⟩ := stuck_of_build hc h
    refine ⟨⟨id, r, t⟩, e, rfl, ⟨items, place, stuck.clashes⟩, ?_, ?_⟩
    · rintro ⟨id', r', t'⟩ ⟨items', place', clash⟩
      have not_before : ¬ id'.index < id.index := fun lt ↦ before id' items' lt place' r' t' clash
      by_cases same : id = id'
      · subst same
        obtain rfl : items = items' := Option.some.inj (place.symm.trans place')
        have not_earlier := stuck.first r' t' clash
        refine .inr ⟨rfl, ?_⟩
        simp only [State.Earlier, not_or, not_and, not_lt] at not_earlier
        rcases Nat.lt_or_eq_of_le not_earlier.1 with lt | e
        · exact .inl lt
        · exact .inr ⟨congrArg RuleId.mk e, not_earlier.2 (congrArg RuleId.mk e.symm)⟩
      · refine .inl (Nat.lt_of_le_of_ne (Nat.le_of_not_lt not_before) fun e ↦ same ?_)
        exact congrArg StateId.mk e
    · rcases stuck.error with ⟨j, shifted, rfl⟩ | ⟨empty, r', lt, reduces, only, rfl⟩
      · have explored := Collection.explored_of_canonical hc
        obtain ⟨ne, target, place', same⟩ :=
          (action?_of_rowOf explored.numbered (explored.row id items place)).1 shifted
        cases same
        exact .shift place ne place'
      · exact .reduce place empty lt reduces only

end Automaton

/-- The grammar of `S -> A x`, `S -> B x`, `S -> a x`, `A -> a` and `B -> a`: after `a`, the `x` may
be shifted, and two rules may be reduced before it. -/
def Grammar.contested : Grammar where
  terminals := #["$end", "a", "x"]
  nonterminals := #["$start", "S", "A", "B"]
  terminals_zero := rfl
  nonterminals_zero := rfl
  names_nodup := by decide
  start := ⟨1⟩
  rules := #[.augmenting ⟨1⟩, ⟨⟨1⟩, #[.nonterminal ⟨2⟩, .terminal ⟨2⟩]⟩,
    ⟨⟨1⟩, #[.nonterminal ⟨3⟩, .terminal ⟨2⟩]⟩, ⟨⟨1⟩, #[.terminal ⟨1⟩, .terminal ⟨2⟩]⟩,
    ⟨⟨2⟩, #[.terminal ⟨1⟩]⟩, ⟨⟨3⟩, #[.terminal ⟨1⟩]⟩]
  start_declared := by decide
  rules_zero := rfl
  rules_declared := by decide
  rules_nodup := by decide

namespace Automaton

/-- The `x` after `a` is shifted, says the report, or `A -> a` is reduced. -/
theorem build_first_conflict_contested :
    Grammar.contested.itemSets.encard ≤ stateLimit ∧
    ∃ c x, Collection.canonical .contested = some c ∧ ¬ c.ConflictFree .contested ∧
      build .contested = .error (.shiftReduce ⟨1⟩ ⟨2⟩ ⟨5⟩ ⟨4⟩) ∧ c.ClashesAt .contested x ∧
      (∀ y, c.ClashesAt .contested y → x.Le y) ∧
      c.Reports .contested x (.shiftReduce ⟨1⟩ ⟨2⟩ ⟨5⟩ ⟨4⟩) := by
  have found : (Collection.canonical .contested).isSome = true := by decide +kernel
  obtain ⟨c', hc'⟩ := Option.isSome_iff_exists.1 found
  have fits := Collection.encard_le_of_canonical hc'
  obtain ⟨c, hc, first⟩ := build_first_conflict fits
  have failed : build .contested = .error (.shiftReduce ⟨1⟩ ⟨2⟩ ⟨5⟩ ⟨4⟩) := by
    have reported : (match build .contested with
      | .error e => some e
      | .ok _ => none) = some (.shiftReduce ⟨1⟩ ⟨2⟩ ⟨5⟩ ⟨4⟩) := by decide +kernel
    split at reported
    · next e h =>
      rw [h, Option.some.inj reported]
    · cases reported
  have conflict : ¬ c.ConflictFree .contested := by
    intro free
    obtain ⟨a, h⟩ := exists_build_of_consistent hc fun id items place ↦
      free.consistent (Collection.explored_of_canonical hc) place
    rw [failed] at h
    cases h
  obtain ⟨x, e, h, clash, least, report⟩ := first conflict
  obtain rfl : .shiftReduce ⟨1⟩ ⟨2⟩ ⟨5⟩ ⟨4⟩ = e := Except.error.inj (failed.symm.trans h)
  exact ⟨fits, c, x, hc, conflict, failed, clash, least, report⟩

end Automaton

end SimpleLR

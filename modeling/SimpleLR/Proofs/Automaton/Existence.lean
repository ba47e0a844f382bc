import Mathlib.Data.List.Nodup
import SimpleLR.Proofs.Automaton.Cells

/-!
# When building succeeds

A collection is found if all the sets that are reached belong to a family that the numbers of
states suffice for (`Collection.exists_canonical`). The reductions can be placed if no set of the
collection claims a cell for two actions (`Automaton.exists_build_of_consistent`).
-/

namespace SimpleLR

/-! ## Collections -/

namespace Collection

variable {g : Grammar} {c c' : Collection} {s : ItemSet} {id : StateId} {family : List ItemSet}
  {r : List (Symbol × StateId)}

/-- All sets of a collection belong to a family. -/
def Within (c : Collection) (family : List ItemSet) : Prop :=
  ∀ id s, c.itemsOf id = some s → s ∈ family

theorem Numbered.nodup (h : c.Numbered) : c.states.toList.Nodup := by
  rw [List.nodup_iff_getElem?_ne_getElem?]
  intro i j lt hj e
  rw [Array.length_toList] at hj
  have hi : i < c.states.size := Nat.lt_trans lt hj
  rw [Array.getElem?_toList, Array.getElem?_toList, Array.getElem?_eq_getElem hi] at e
  have same : (⟨i⟩ : StateId) = ⟨j⟩ := h.inj (Array.getElem?_eq_getElem hi) e.symm
  exact Nat.ne_of_lt lt (congrArg StateId.index same)

/-- What is listed in a collection has a number. -/
theorem exists_itemsOf_of_mem (hs : s ∈ c.states.toList) : ∃ id, c.itemsOf id = some s := by
  obtain ⟨i, hi, rfl⟩ := List.mem_iff_getElem.1 hs
  exact ⟨⟨i⟩, by rw [itemsOf, ← Array.getElem?_toList, List.getElem?_eq_getElem hi]⟩

theorem Within.mem (h : c.Within family) (hs : s ∈ c.states.toList) : s ∈ family := by
  obtain ⟨id, place⟩ := exists_itemsOf_of_mem hs
  exact h id s place

/-- There is a number for each set of a family that is not too large. -/
theorem exists_number (hc : c.Numbered) (hw : c.Within family)
    (size : family.length ≤ stateLimit) (hs : s ∈ family) :
    ∃ id c', number s c = some (id, c') := by
  rw [number]
  cases known : c.numbers[s.codes]? with
  | some id => exact ⟨id, c, rfl⟩
  | none =>
    have fresh : s ∉ c.states.toList := by
      intro mem
      obtain ⟨id, place⟩ := exists_itemsOf_of_mem mem
      rw [(hc s id).2 place] at known
      cases known
    have nodup : (s :: c.states.toList).Nodup := List.nodup_cons.2 ⟨fresh, hc.nodup⟩
    have lt : c.states.size < stateLimit := by
      refine Nat.lt_of_lt_of_le ?_ size
      apply nodup.length_le_of_subset
      intro s' hs'
      rcases List.mem_cons.1 hs' with rfl | hs'
      · exact hs
      · exact hw.mem hs'
    exact ⟨_, _, if_pos lt⟩

theorem within_of_number (hw : c.Within family) (hs : s ∈ family)
    (h : number s c = some (id, c')) : c'.Within family := by
  rcases number_cases h with ⟨_, rfl⟩ | ⟨_, _, rfl, rfl⟩
  · exact hw
  · intro id' s' place
    rw [itemsOf_push] at place
    split at place
    · cases place
      exact hs
    · exact hw id' s' place

theorem exists_row (hc : c.Numbered) (hw : c.Within family) (size : family.length ≤ stateLimit)
    (closed : ∀ x, s.kernel g x ≠ [] → s.goto g x ∈ family) (xs : List Symbol) :
    ∃ r c', row g g.cornerTable s xs c = some (r, c') ∧ c'.Within family := by
  induction xs generalizing c with
  | nil => exact ⟨[], c, rfl, hw⟩
  | cons x xs ih =>
    by_cases e : s.kernel g x = []
    · obtain ⟨r, c', h, hw'⟩ := ih hc hw
      refine ⟨r, c', ?_, hw'⟩
      simpa [row, e] using h
    · obtain ⟨target, c₁, h₁⟩ := exists_number hc hw size (closed x e)
      obtain ⟨r, c', h, hw'⟩ := ih (numbered_of_number hc h₁) (within_of_number hw (closed x e) h₁)
      refine ⟨(x, target) :: r, c', ?_, hw'⟩
      have nonempty : (s.kernel g x).isEmpty = false := by simpa using e
      simp only [row, nonempty]
      exact Option.bind_eq_some_iff.2 ⟨_, h₁, Option.bind_eq_some_iff.2 ⟨_, h, rfl⟩⟩

theorem exists_explore (hc : Growing g c) (hw : c.Within family)
    (size : family.length ≤ stateLimit)
    (closed : ∀ s ∈ family, ∀ x, s.kernel g x ≠ [] → s.goto g x ∈ family) (rounds : Nat) :
    ∃ c', explore g g.cornerTable g.symbols rounds c = some c' ∧ c'.Within family := by
  induction rounds generalizing c with
  | zero => exact ⟨c, rfl, hw⟩
  | succ rounds ih =>
    rw [explore]
    cases e : c.states[c.rows.size]? with
    | none => exact ⟨c, rfl, hw⟩
    | some s =>
      obtain ⟨r, c', h, hw'⟩ := exists_row hc.numbered hw size
        (closed s (hw ⟨c.rows.size⟩ s e)) g.symbols
      simp only [h]
      exact ih (hc.push_row e h) hw'

/-- A collection is found if the sets that are reached belong to a family that is not too large. -/
theorem exists_canonical (size : family.length ≤ stateLimit) (start : .initial g ∈ family)
    (closed : ∀ s ∈ family, ∀ x, s.kernel g x ≠ [] → s.goto g x ∈ family) :
    ∃ c, canonical g = some c ∧ c.Within family := by
  have within : (single (.initial g)).Within family := by
    refine within_of_number (fun id s place ↦ ?_) start (number_empty (.initial g))
    simp [itemsOf] at place
  exact exists_explore growing_single within size closed stateLimit

end Collection

/-! ## Placing the reductions of a state -/

theorem exists_mapM {ε α β : Type} {f : α → Except ε β} {l : List α}
    (h : ∀ a ∈ l, ∃ b, f a = .ok b) : ∃ bs, l.mapM f = .ok bs := by
  induction l with
  | nil => exact ⟨[], rfl⟩
  | cons a l ih =>
    obtain ⟨b, hb⟩ := h a List.mem_cons_self
    obtain ⟨bs, hbs⟩ := ih fun a ha ↦ h a (List.mem_cons_of_mem _ ha)
    refine ⟨b :: bs, ?_⟩
    rw [List.mapM_cons]
    exact Except.bind_eq_ok_iff.2 ⟨b, hb, Except.bind_eq_ok_iff.2 ⟨bs, hbs, rfl⟩⟩

theorem exists_foldlM {ε α β : Type} {p : β → Prop} {f : β → α → Except ε β} {l : List α} {b : β}
    (hb : p b) (step : ∀ b, ∀ a ∈ l, p b → ∃ b', f b a = .ok b' ∧ p b') :
    ∃ b', l.foldlM f b = .ok b' ∧ p b' := by
  induction l generalizing b with
  | nil => exact ⟨b, rfl, hb⟩
  | cons a l ih =>
    obtain ⟨b₁, h₁, hb₁⟩ := step b a List.mem_cons_self hb
    obtain ⟨b', h, hb'⟩ := ih hb₁ fun b a ha ↦ step b a (List.mem_cons_of_mem _ ha)
    refine ⟨b', ?_, hb'⟩
    rw [List.foldlM_cons]
    exact Except.bind_eq_ok_iff.2 ⟨b₁, h₁, h⟩

namespace State

variable {g : Grammar} {s : State} {cells : Symbol → Action → Prop} {r : RuleId} {t : Terminal}

/-- A state has actions in some cells only. -/
def FilledFrom (s : State) (cells : Symbol → Action → Prop) : Prop :=
  ∀ x act, s.action? x = some act → cells x act

theorem exists_place (unique : ∀ x act act', cells x act → cells x act' → act = act')
    (hs : s.FilledFrom cells) (ht : cells (.terminal t) (.complete r)) :
    ∃ s', s.place r t = .ok s' ∧ s'.FilledFrom cells := by
  have placed : ∃ s', s.place r t = .ok s' := by
    rw [place]
    cases cell : s.action? (.terminal t) with
    | none => exact ⟨_, rfl⟩
    | some act =>
      obtain rfl := unique _ _ _ (hs _ _ cell) ht
      exact ⟨s, if_pos rfl⟩
  obtain ⟨s', h⟩ := placed
  refine ⟨s', h, fun x act cell ↦ ?_⟩
  rcases ((adds_of_place h).action_iff x act).1 cell with cell | ⟨rfl, rfl⟩
  · exact hs x act cell
  · exact ht

/-- What the transitions and the complete items of a state claim. -/
def Claimed (g : Grammar) (f : FirstFollow) (s : State) (x : Symbol) (act : Action) : Prop :=
  s.action? x = some act ∨ ∃ i ∈ s.items, i.isComplete g = true ∧
    ∃ t ∈ f.follow (g.rule i.rule).left, x = .terminal t ∧ act = .complete i.rule

/-- The reductions of a state can be placed if no cell is claimed for two actions. -/
theorem exists_placeAll {f : FirstFollow}
    (unique : ∀ x act act', s.Claimed g f x act → s.Claimed g f x act' → act = act') :
    ∃ s', s.placeAll g f = .ok s' := by
  have start : s.FilledFrom (s.Claimed g f) := fun _ _ h ↦ .inl h
  have filled : ∃ s', s.placeAll g f = .ok s' ∧ s'.FilledFrom (s.Claimed g f) := by
    refine exists_foldlM start fun s₁ r hr hs₁ ↦ exists_foldlM hs₁ fun s₂ t ht hs₂ ↦ ?_
    obtain ⟨i, hi, complete, rfl⟩ := mem_completeRules.1 hr
    exact exists_place unique hs₂ (.inr ⟨i, hi, complete, t, IndexSet.mem_toList.1 ht, rfl, rfl⟩)
  obtain ⟨s', h, _⟩ := filled
  exact ⟨s', h⟩

end State

/-! ## Sets without conflicts -/

/-- A set claims no cell for two actions. -/
structure ItemSet.Consistent (g : Grammar) (s : ItemSet) : Prop where
  /-- Nothing that may follow a complete item is shifted. -/
  shift : ∀ i ∈ s, i.isComplete g = true →
    ∀ t ∈ (FirstFollow.ofGrammar g).follow (g.rule i.rule).left, s.kernel g (.terminal t) = []
  /-- Only one rule is reduced before a terminal. -/
  reduce : ∀ i ∈ s, i.isComplete g = true → ∀ j ∈ s, j.isComplete g = true →
    ∀ t ∈ (FirstFollow.ofGrammar g).follow (g.rule i.rule).left,
      t ∈ (FirstFollow.ofGrammar g).follow (g.rule j.rule).left → i.rule = j.rule

namespace Automaton

variable {g : Grammar} {c : Collection} {items : ItemSet} {id : StateId}

/-- The states of a collection without conflicts take their reductions. -/
theorem exists_placeAll_unreduced (hc : c.Numbered)
    (hr : Collection.RowOf g c items g.symbols (c.rows[id.index]?.getD []))
    (consistent : items.Consistent g) :
    ∃ s, (unreduced c id items).placeAll g (.ofGrammar g) = .ok s := by
  refine State.exists_placeAll ?_
  have shifted : ∀ {t act}, (unreduced c id items).action? (.terminal t) = some act →
      items.kernel g (.terminal t) ≠ [] := fun h ↦ ((action?_of_rowOf hc hr).1 h).1
  rintro x act act' (h | ⟨i, hi, complete, t, ht, rfl, rfl⟩)
    (h' | ⟨j, hj, complete', u, hu, e, rfl⟩)
  · exact Option.some.inj (h.symm.trans h')
  · subst e
    exact absurd (consistent.shift j hj complete' u hu) (shifted h)
  · exact absurd (consistent.shift i hi complete t ht) (shifted h')
  · obtain rfl := Symbol.terminal.inj e
    rw [consistent.reduce i hi complete j hj complete' t ht hu]

/-- Building succeeds if there is a collection and none of its sets has a conflict. -/
theorem exists_build_of_consistent (h : Collection.canonical g = some c)
    (consistent : ∀ id s, c.itemsOf id = some s → s.Consistent g) : ∃ a, build g = .ok a := by
  have explored := Collection.explored_of_canonical h
  have placed : ∀ s ∈ transitions c, ∃ s', s.placeAll g (.ofGrammar g) = .ok s' := by
    intro s hs
    obtain ⟨i, hi⟩ := List.mem_iff_getElem?.1 hs
    rw [transitions_getElem?, Option.map_eq_some_iff] at hi
    obtain ⟨items, state, rfl⟩ := hi
    exact exists_placeAll_unreduced explored.numbered (explored.row _ _ state)
      (consistent _ _ state)
  obtain ⟨states, h'⟩ := exists_mapM placed
  exact ⟨_, build_eq_ok_iff.2 ⟨c, h, states, h', rfl⟩⟩

end Automaton

end SimpleLR

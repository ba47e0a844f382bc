import Std.Data.TreeMap.Lemmas
import SimpleLR.Automaton.Collection
import SimpleLR.Proofs.Item.Closure

/-!
# What a canonical collection holds

Numbering a set gives the place at which the set stands, so that a set has one number and a number
one set (`Collection.Numbered`). A row is explored when it holds the transitions of its state, and
at the end all of them are (`Collection.explored_of_canonical`).
-/

namespace SimpleLR

namespace Collection

variable {g : Grammar} {c c' : Collection} {s s' : ItemSet} {id id' : StateId} {x : Symbol}

/-- The set of that number. -/
def itemsOf (c : Collection) (id : StateId) : Option ItemSet := c.states[id.index]?

/-- The numbers of the sets are their places. -/
def Numbered (c : Collection) : Prop :=
  ∀ s id, c.numbers[s.codes]? = some id ↔ c.itemsOf id = some s

/-- All sets of a collection keep their numbers in another. -/
def Extends (c' c : Collection) : Prop :=
  ∀ id s, c.itemsOf id = some s → c'.itemsOf id = some s

/-- A row holds the transitions of a set over some symbols, with the numbers of their targets. -/
structure RowOf (g : Grammar) (c : Collection) (s : ItemSet) (symbols : List Symbol)
    (r : List (Symbol × StateId)) : Prop where
  sound : ∀ x target, (x, target) ∈ r →
    x ∈ symbols ∧ s.kernel g x ≠ [] ∧ c.itemsOf target = some (s.goto g x)
  complete : ∀ x ∈ symbols, s.kernel g x ≠ [] → ∃ target, (x, target) ∈ r

theorem Extends.refl (c : Collection) : c.Extends c := fun _ _ h ↦ h

theorem Extends.trans {c'' : Collection} (h' : c''.Extends c') (h : c'.Extends c) :
    c''.Extends c := fun id s hs ↦ h' id s (h id s hs)

/-- A set has one number. -/
theorem Numbered.inj (h : c.Numbered) (hid : c.itemsOf id = some s)
    (hid' : c.itemsOf id' = some s) : id = id' := by
  have e := (h s id).2 hid
  rw [(h s id').2 hid'] at e
  exact (Option.some.inj e).symm

/-! ## Numbering a set -/

/-- What numbering a set does. -/
theorem number_cases (h : number s c = some (id, c')) :
    c.numbers[s.codes]? = some id ∧ c' = c ∨
      c.numbers[s.codes]? = none ∧ c.states.size < stateLimit ∧ id = ⟨c.states.size⟩ ∧
        c' = { c with
          states := c.states.push s
          numbers := c.numbers.insert s.codes ⟨c.states.size⟩ } := by
  rw [number] at h
  split at h
  · next old e =>
    cases h
    exact .inl ⟨e, rfl⟩
  · next e =>
    split at h
    · next lt =>
      cases h
      exact .inr ⟨e, lt, rfl, rfl⟩
    · cases h

theorem itemsOf_push (s : ItemSet) (numbers : Std.TreeMap (List Nat) StateId) :
    itemsOf { c with states := c.states.push s, numbers } id =
      if id.index = c.states.size then some s else c.itemsOf id := by
  rw [itemsOf, Array.getElem?_push]
  rfl

theorem extends_of_number (h : number s c = some (id, c')) : c'.Extends c := by
  rcases number_cases h with ⟨_, rfl⟩ | ⟨_, _, rfl, rfl⟩
  · exact .refl c'
  · intro id s' hs'
    rw [itemsOf_push, if_neg]
    · exact hs'
    · have lt := (Array.getElem?_eq_some_iff.1 hs').1
      omega

theorem numbered_of_number (hc : c.Numbered) (h : number s c = some (id, c')) : c'.Numbered := by
  rcases number_cases h with ⟨_, rfl⟩ | ⟨new, _, rfl, rfl⟩
  · exact hc
  · intro s' id'
    rw [itemsOf_push, Std.TreeMap.getElem?_insert]
    by_cases e : s = s'
    · subst e
      rw [if_pos Std.ReflCmp.compare_self]
      constructor
      · intro e
        rw [← Option.some.inj e, if_pos rfl]
      · intro e
        split at e
        · next place => rw [← place]
        · -- the set was not there before
          rw [(hc s id').2 e] at new
          cases new
    · have ne : ¬ compare s.codes s'.codes = .eq := fun eq ↦
        e (ItemSet.codes_inj.1 (Std.LawfulEqCmp.eq_of_compare eq))
      rw [if_neg ne, hc]
      by_cases place : id'.index = c.states.size
      · rw [if_pos place, itemsOf, place]
        simp [e]
      · rw [if_neg place]

theorem itemsOf_of_number (hc : c.Numbered) (h : number s c = some (id, c')) :
    c'.itemsOf id = some s := by
  rcases number_cases h with ⟨old, rfl⟩ | ⟨_, _, rfl, rfl⟩
  · exact (hc s id).1 old
  · rw [itemsOf_push, if_pos rfl]

theorem size_of_number (h : number s c = some (id, c')) (le : c.states.size ≤ stateLimit) :
    c'.states.size ≤ stateLimit := by
  rcases number_cases h with ⟨_, rfl⟩ | ⟨_, lt, rfl, rfl⟩
  · exact le
  · rw [Array.size_push]
    exact lt

theorem rows_of_number (h : number s c = some (id, c')) : c'.rows = c.rows := by
  rcases number_cases h with ⟨_, rfl⟩ | ⟨_, _, rfl, rfl⟩
  · rfl
  · rfl

/-! ## A row -/

variable {xs : List Symbol} {r : List (Symbol × StateId)}

/-- What making a row does with its first symbol. -/
theorem row_cons_cases (h : row g g.cornerTable s (x :: xs) c = some (r, c')) :
    s.kernel g x = [] ∧ row g g.cornerTable s xs c = some (r, c') ∨
      s.kernel g x ≠ [] ∧ ∃ target c₁ rest, number (s.goto g x) c = some (target, c₁) ∧
        row g g.cornerTable s xs c₁ = some (rest, c') ∧ r = (x, target) :: rest := by
  by_cases e : s.kernel g x = []
  · refine .inl ⟨e, ?_⟩
    simpa [row, e] using h
  · refine .inr ⟨e, ?_⟩
    have nonempty : (s.kernel g x).isEmpty = false := by simpa using e
    simp only [row, nonempty] at h
    obtain ⟨⟨target, c₁⟩, h₁, h⟩ := Option.bind_eq_some_iff.1 h
    obtain ⟨⟨rest, c₂⟩, h₂, h⟩ := Option.bind_eq_some_iff.1 h
    cases h
    exact ⟨target, c₁, rest, h₁, h₂, rfl⟩

/-- Making a row numbers new sets and does nothing else to a collection. -/
theorem keeps_of_row (h : row g g.cornerTable s xs c = some (r, c')) :
    c'.Extends c ∧ c'.rows = c.rows ∧
      (c.states.size ≤ stateLimit → c'.states.size ≤ stateLimit) := by
  induction xs generalizing c r with
  | nil =>
    cases h
    exact ⟨.refl c', rfl, id⟩
  | cons x xs ih =>
    rcases row_cons_cases h with ⟨_, h₂⟩ | ⟨_, target, c₁, rest, h₁, h₂, rfl⟩
    · exact ih h₂
    · obtain ⟨extend, rows, size⟩ := ih h₂
      exact ⟨extend.trans (extends_of_number h₁), rows.trans (rows_of_number h₁),
        fun le ↦ size (size_of_number h₁ le)⟩

theorem numbered_of_row (hc : c.Numbered) (h : row g g.cornerTable s xs c = some (r, c')) :
    c'.Numbered := by
  induction xs generalizing c r with
  | nil =>
    cases h
    exact hc
  | cons x xs ih =>
    rcases row_cons_cases h with ⟨_, h₂⟩ | ⟨_, target, c₁, rest, h₁, h₂, rfl⟩
    · exact ih hc h₂
    · exact ih (numbered_of_number hc h₁) h₂

theorem RowOf.cons_of_empty (h : RowOf g c s xs r) (e : s.kernel g x = []) :
    RowOf g c s (x :: xs) r where
  sound y target hy := by
    obtain ⟨mem, spec⟩ := h.sound y target hy
    exact ⟨List.mem_cons_of_mem x mem, spec⟩
  complete y hy ne := by
    rcases List.mem_cons.1 hy with rfl | hy
    · exact absurd e ne
    · exact h.complete y hy ne

theorem RowOf.cons (h : RowOf g c s xs r) (ne : s.kernel g x ≠ [])
    (place : c.itemsOf id = some (s.goto g x)) : RowOf g c s (x :: xs) ((x, id) :: r) where
  sound y target hy := by
    rcases List.mem_cons.1 hy with e | hy
    · cases e
      exact ⟨List.mem_cons_self, ne, place⟩
    · obtain ⟨mem, spec⟩ := h.sound y target hy
      exact ⟨List.mem_cons_of_mem x mem, spec⟩
  complete y hy ne' := by
    rcases List.mem_cons.1 hy with rfl | hy
    · exact ⟨id, List.mem_cons_self⟩
    · obtain ⟨target, mem⟩ := h.complete y hy ne'
      exact ⟨target, List.mem_cons_of_mem _ mem⟩

theorem rowOf_of_row (hc : c.Numbered) (h : row g g.cornerTable s xs c = some (r, c')) :
    RowOf g c' s xs r := by
  induction xs generalizing c r with
  | nil =>
    cases h
    exact ⟨fun _ _ h ↦ absurd h List.not_mem_nil, fun _ h ↦ absurd h List.not_mem_nil⟩
  | cons x xs ih =>
    rcases row_cons_cases h with ⟨e, h₂⟩ | ⟨ne, target, c₁, rest, h₁, h₂, rfl⟩
    · exact (ih hc h₂).cons_of_empty e
    · refine (ih (numbered_of_number hc h₁) h₂).cons ne ?_
      exact (keeps_of_row h₂).1 target _ (itemsOf_of_number hc h₁)

theorem RowOf.extends (hr : RowOf g c s xs r) (h : c'.Extends c) : RowOf g c' s xs r where
  sound x target mem := by
    obtain ⟨hx, ne, place⟩ := hr.sound x target mem
    exact ⟨hx, ne, h target _ place⟩
  complete := hr.complete

/-! ## The whole collection -/

/-- A collection while it is explored. -/
structure Growing (g : Grammar) (c : Collection) : Prop where
  numbered : c.Numbered
  /-- Reading starts in the first state. -/
  initial : c.itemsOf .initial = some (.initial g)
  size_le : c.states.size ≤ stateLimit
  /-- The rows are those of the first states. -/
  rows : ∀ i r, c.rows[i]? = some r → ∃ s, c.itemsOf ⟨i⟩ = some s ∧ RowOf g c s g.symbols r

theorem number_empty (s : ItemSet) : number s ⟨#[], ∅, #[]⟩ = some (.initial, single s) := by
  simp [number, single, stateLimit, StateId.initial]

theorem growing_single : Growing g (single (.initial g)) where
  numbered := by
    refine numbered_of_number (fun s id ↦ ?_) (number_empty (.initial g))
    simp [itemsOf]
  initial := rfl
  size_le := Nat.le_of_ble_eq_true rfl
  rows i r h := by simp [single] at h

/-- Exploring one more state. -/
theorem Growing.push_row (h : Growing g c) (hs : c.states[c.rows.size]? = some s)
    (hr : row g g.cornerTable s g.symbols c = some (r, c')) :
    Growing g { c' with rows := c'.rows.push r } := by
  obtain ⟨extend, rows, size⟩ := keeps_of_row hr
  have numbered : c'.Numbered := numbered_of_row h.numbered hr
  refine ⟨numbered, extend _ _ h.initial, size h.size_le, ?_⟩
  intro i r' hr'
  rw [rows, Array.getElem?_push] at hr'
  split at hr'
  · next e =>
    cases hr'
    rw [e]
    have spec := rowOf_of_row h.numbered hr
    exact ⟨s, extend ⟨c.rows.size⟩ s hs, spec.extends fun _ _ h ↦ h⟩
  · obtain ⟨s', hs', spec⟩ := h.rows i r' hr'
    exact ⟨s', extend _ _ hs', spec.extends extend⟩

/-- Exploring goes on until every state has its row. -/
theorem growing_of_explore {rounds : Nat} (h : Growing g c)
    (enough : stateLimit ≤ c.rows.size + rounds)
    (e : explore g g.cornerTable g.symbols rounds c = some c') :
    Growing g c' ∧ c'.states.size ≤ c'.rows.size := by
  induction rounds generalizing c with
  | zero =>
    cases e
    exact ⟨h, Nat.le_trans h.size_le enough⟩
  | succ rounds ih =>
    rw [explore] at e
    split at e
    · next none =>
      cases e
      exact ⟨h, Array.getElem?_eq_none_iff.1 none⟩
    · next s hs =>
      split at e
      · cases e
      · next r c₁ hr =>
        refine ih (h.push_row hs hr) ?_ e
        have rows := (keeps_of_row hr).2.1
        simp only [Array.size_push, rows]
        omega

/-- What a canonical collection holds. -/
structure Explored (g : Grammar) (c : Collection) : Prop where
  numbered : c.Numbered
  initial : c.itemsOf .initial = some (.initial g)
  /-- Each state has its row. -/
  row : ∀ id s, c.itemsOf id = some s → RowOf g c s g.symbols (c.rows[id.index]?.getD [])

theorem explored_of_canonical (h : canonical g = some c) : Explored g c := by
  obtain ⟨growing, size⟩ := growing_of_explore growing_single (Nat.le_add_left ..) h
  refine ⟨growing.numbered, growing.initial, fun id s hs ↦ ?_⟩
  have lt := (Array.getElem?_eq_some_iff.1 hs).1
  have hr := Array.getElem?_eq_getElem (Nat.lt_of_lt_of_le lt size)
  obtain ⟨s', hs', spec⟩ := growing.rows id.index _ hr
  obtain rfl : s = s' := by
    have e : some s = some s' := hs.symm.trans hs'
    exact Option.some.inj e
  rw [hr]
  exact spec

end Collection

end SimpleLR

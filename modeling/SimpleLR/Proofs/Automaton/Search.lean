import SimpleLR.Automaton.Search
import SimpleLR.Proofs.Automaton.Cells
import SimpleLR.Proofs.Grammar.Search
import SimpleLR.Proofs.Item.Search

/-!
# Construction ends

Exploring states from a queue follows the collection of states by number: the states that wait are
those beyond the explored ones (`Exploration.StandsFor`), so each is taken once, in the order of the
numbers, and there are no more than can be numbered. All the loops by which an automaton is
constructed end, and building returns what they end with (`Automaton.construction_ends`).
-/

namespace SimpleLR

namespace Exploration

open Automaton

variable {g : Grammar} {e : Exploration} {c c' : Collection} {s : ItemSet} {id target : StateId}
  {x : Symbol} {xs : List Symbol} {rows : Array (List (Symbol × StateId))}
  {done r : List (Symbol × StateId)}

/-- An exploration has the states and the numbers of a collection and these rows of transitions;
what is beyond the rows waits. -/
structure StandsFor (e : Exploration) (c : Collection) (rows : Array (List (Symbol × StateId))) :
    Prop where
  states : e.states.toList = transitions { c with rows }
  numbers : e.numbers = c.numbers
  waiting : e.waiting = (List.range' rows.size (c.states.size - rows.size)).map StateId.mk
  le : rows.size ≤ c.states.size

theorem StandsFor.size (h : e.StandsFor c rows) : e.states.size = c.states.size := by
  rw [← Array.length_toList, h.states]
  simp [transitions]

theorem StandsFor.getElem? (h : e.StandsFor c rows) (i : Nat) :
    e.states[i]? = c.states[i]?.map fun items ↦
      { id := ⟨i⟩, items, actions := (rows[i]?.getD []).map fun (x, n) ↦ (x, .enter x n) } := by
  rw [← Array.getElem?_toList, h.states, transitions_getElem?]
  rfl

theorem standsFor_single (s : ItemSet) : (single s).StandsFor (.single s) #[] where
  states := rfl
  numbers := rfl
  waiting := rfl
  le := Nat.zero_le _

/-! ## A round -/

theorem StandsFor.number (h : e.StandsFor c rows) (hn : Collection.number s c = some (id, c')) :
    ∃ e', e.number s = .ok (id, e') ∧ e'.StandsFor c' rows := by
  rcases Collection.number_cases hn with ⟨old, rfl⟩ | ⟨new, lt, rfl, rfl⟩
  · refine ⟨e, ?_, h⟩
    rw [Exploration.number, h.numbers, old]
    rfl
  · have known : e.numbers[s.codes]? = none := by rw [h.numbers, new]
    have beyond : rows[c.states.size]? = none := Array.getElem?_eq_none h.le
    refine ⟨_, by rw [Exploration.number, known, h.size]; exact if_pos lt, ?_, ?_, ?_, ?_⟩
    · simp [h.states, transitions, beyond]
    · simp [h.numbers]
    · rw [Array.size_push, Nat.succ_sub h.le, List.range'_concat, List.map_append, h.waiting]
      simp [Nat.add_sub_cancel' h.le]
    · simpa using Nat.le_succ_of_le h.le

theorem StandsFor.number_none (h : e.StandsFor c rows) (hn : Collection.number s c = none) :
    e.number s = .error e ∧ stateLimit ≤ e.states.size := by
  rw [Collection.number] at hn
  split at hn
  · cases hn
  · next new =>
    split at hn
    · cases hn
    · next full =>
      rw [← h.size] at full
      refine ⟨?_, Nat.le_of_not_lt full⟩
      rw [Exploration.number, h.numbers, new]
      exact if_neg full

theorem StandsFor.place (h : e.StandsFor c (rows.push done)) :
    (e.place ⟨rows.size⟩ x target).StandsFor c (rows.push (done ++ [(x, target)])) where
  states := by
    refine List.ext_getElem? fun i ↦ ?_
    rw [Exploration.place, Array.getElem?_toList, Array.getElem?_modify, h.getElem?,
      transitions_getElem?, Collection.itemsOf]
    by_cases here : rows.size = i
    · subst here
      cases c.states[rows.size]? <;> simp
    · have elsewhere : ∀ row, (rows.push row)[i]? = rows[i]? := fun row ↦ by
        rw [Array.getElem?_push, if_neg (Ne.symm here)]
      simp [here, elsewhere]
  numbers := h.numbers
  waiting := by simpa [Exploration.place] using h.waiting
  le := by simpa using h.le

theorem StandsFor.itemsAt {i : Nat} (h : e.StandsFor c rows) (hs : c.states[i]? = some s) :
    e.itemsAt ⟨i⟩ = s := by
  rw [Exploration.itemsAt, h.getElem?, hs]
  rfl

theorem follow_of_empty (hs : e.itemsAt id = s) (empty : s.kernel g x = []) :
    follow g id e x = .ok e := by
  rw [follow, hs, empty]
  rfl

theorem follow_eq (hs : e.itemsAt id = s) (ne : s.kernel g x ≠ []) :
    follow g id e x = (e.number (s.goto g x)).map fun (target, e) ↦ e.place id x target := by
  have nonempty : (s.kernel g x).isEmpty = false := by simpa using ne
  rw [follow, hs, nonempty]
  rfl

/-- Following a symbol from the state whose row is last puts a transition at the end of the row. -/
theorem StandsFor.advance (h : e.StandsFor c (rows.push done))
    (hs : c.states[rows.size]? = some s) (ne : s.kernel g x ≠ [])
    (hn : Collection.number (s.goto g x) c = some (target, c')) :
    ∃ e', follow g ⟨rows.size⟩ e x = .ok e' ∧
      e'.StandsFor c' (rows.push (done ++ [(x, target)])) := by
  obtain ⟨e₁, he₁, h₁⟩ := h.number hn
  refine ⟨_, ?_, h₁.place⟩
  rw [follow_eq (h.itemsAt hs) ne, he₁]
  rfl

/-- Following symbols from the state whose row is last makes its row. -/
theorem StandsFor.follows (h : e.StandsFor c (rows.push done))
    (hs : c.states[rows.size]? = some s)
    (hr : Collection.row g g.cornerTable s xs c = some (r, c')) :
    ∃ e', xs.foldlM (follow g ⟨rows.size⟩) e = .ok e' ∧
      e'.StandsFor c' (rows.push (done ++ r)) := by
  induction xs generalizing e c done r with
  | nil =>
    cases hr
    exact ⟨e, rfl, by simpa using h⟩
  | cons x xs ih =>
    rw [List.foldlM_cons]
    rcases Collection.row_cons_cases hr with ⟨empty, later⟩ | ⟨ne, target, c₁, rest, hn, later, rfl⟩
    · rw [follow_of_empty (h.itemsAt hs) empty]
      exact ih h hs later
    · obtain ⟨e₁, he₁, h₁⟩ := h.advance hs ne hn
      have hs₁ : c₁.states[rows.size]? = some s := Collection.extends_of_number hn ⟨_⟩ s hs
      obtain ⟨e', he, h'⟩ := ih h₁ hs₁ later
      rw [he₁]
      exact ⟨e', he, by simpa using h'⟩

/-- What making a row does with its first symbol when it fails. -/
theorem row_cons_none_cases
    (hr : Collection.row g g.cornerTable s (x :: xs) c = none) :
    s.kernel g x = [] ∧ Collection.row g g.cornerTable s xs c = none ∨
      s.kernel g x ≠ [] ∧ (Collection.number (s.goto g x) c = none ∨
        ∃ target c₁, Collection.number (s.goto g x) c = some (target, c₁) ∧
          Collection.row g g.cornerTable s xs c₁ = none) := by
  by_cases e : s.kernel g x = []
  · refine .inl ⟨e, ?_⟩
    simpa [Collection.row, e] using hr
  · refine .inr ⟨e, ?_⟩
    have nonempty : (s.kernel g x).isEmpty = false := by simpa using e
    simp only [Collection.row, nonempty] at hr
    cases hn : Collection.number (s.goto g x) c with
    | none => exact .inl rfl
    | some p =>
      obtain ⟨target, c₁⟩ := p
      refine .inr ⟨target, c₁, rfl, ?_⟩
      have failed := Option.bind_eq_none_iff.1 hr (target, c₁) hn
      cases later : Collection.row g g.cornerTable s xs c₁ with
      | none => rfl
      | some p => cases Option.bind_eq_none_iff.1 failed p later

/-- If the row cannot be made, all numbers have been given. -/
theorem StandsFor.givesUp (h : e.StandsFor c (rows.push done))
    (hs : c.states[rows.size]? = some s) (size : c.states.size ≤ stateLimit)
    (hr : Collection.row g g.cornerTable s xs c = none) :
    ∃ e', xs.foldlM (follow g ⟨rows.size⟩) e = .error e' ∧ e'.states.size = stateLimit := by
  induction xs generalizing e c done with
  | nil => cases hr
  | cons x xs ih =>
    rw [List.foldlM_cons]
    rcases row_cons_none_cases hr with ⟨empty, later⟩ | ⟨ne, full | ⟨target, c₁, hn, later⟩⟩
    · rw [follow_of_empty (h.itemsAt hs) empty]
      exact ih h hs size later
    · obtain ⟨failed, le⟩ := h.number_none full
      rw [follow_eq (h.itemsAt hs) ne, failed]
      exact ⟨e, rfl, Nat.le_antisymm (h.size ▸ size) le⟩
    · obtain ⟨e₁, he₁, h₁⟩ := h.advance hs ne hn
      have hs₁ : c₁.states[rows.size]? = some s := Collection.extends_of_number hn ⟨_⟩ s hs
      rw [he₁]
      exact ih h₁ hs₁ (Collection.size_of_number hn size) later

/-- The state that has waited longest is taken, and gets a row of its own. -/
theorem StandsFor.begin (h : e.StandsFor c rows) (lt : rows.size < c.states.size) :
    ∃ e', round g (.ok e) =
        some (⟨rows.size⟩, g.symbols.foldlM (follow g ⟨rows.size⟩) e') ∧
      e'.StandsFor c (rows.push []) := by
  have waiting := h.waiting
  obtain ⟨left, size⟩ := Nat.exists_eq_add_of_lt lt
  have unexplored : c.states.size - rows.size = left + 1 := by omega
  rw [unexplored, List.range'_succ, List.map_cons] at waiting
  refine ⟨{ e with waiting := (List.range' (rows.size + 1) left).map StateId.mk },
    by rw [round, waiting], ?_, h.numbers, ?_, ?_⟩
  · refine List.ext_getElem? fun i ↦ ?_
    rw [Array.getElem?_toList, h.getElem?, transitions_getElem?, Collection.itemsOf]
    by_cases here : i = rows.size
    · subst here
      simp
    · simp [Array.getElem?_push, here]
  · rw [Array.size_push, show c.states.size - (rows.size + 1) = left by omega]
  · rw [Array.size_push]
    exact lt

/-! ## The whole loop -/

/-- The end of the loop fits the collection: its states with their transitions, or, if there is
none, as many states as there are numbers. -/
inductive Agrees : Except Exploration Exploration → Option Collection → Prop
  | found {e : Exploration} {c : Collection} (h : e.StandsFor c c.rows) : Agrees (.ok e) (some c)
  | givenUp {e : Exploration} (full : e.states.size = stateLimit) : Agrees (.error e) none

/-- From an explored part on, the loop takes the states by number and ends as the collection
says. -/
theorem StandsFor.exists_ends {rounds : Nat} (h : e.StandsFor c c.rows)
    (growing : Collection.Growing g c) (enough : stateLimit ≤ c.rows.size + rounds) :
    ∃ count out, Ends (round g) (.ok e) ((List.range' c.rows.size count).map StateId.mk) out ∧
      Agrees out (Collection.explore g g.cornerTable g.symbols rounds c) := by
  have waiting := h.waiting
  induction rounds generalizing e c with
  | zero =>
    have le := growing.size_le
    rw [Nat.sub_eq_zero_of_le (by omega)] at waiting
    refine ⟨0, .ok e, ⟨.none _, ?_⟩, .found h⟩
    rw [round, waiting]
    rfl
  | succ rounds ih =>
    rw [Collection.explore]
    cases hs : c.states[c.rows.size]? with
    | none =>
      rw [Nat.sub_eq_zero_of_le (Array.getElem?_eq_none_iff.1 hs)] at waiting
      refine ⟨0, .ok e, ⟨.none _, ?_⟩, .found h⟩
      rw [round, waiting]
      rfl
    | some s =>
      have lt := (Array.getElem?_eq_some_iff.1 hs).1
      obtain ⟨e₁, first, begun⟩ := h.begin (g := g) lt
      cases hr : Collection.row g g.cornerTable s g.symbols c with
      | none =>
        obtain ⟨e₂, he, full⟩ := begun.givesUp hs growing.size_le hr
        rw [he] at first
        simp only [hr]
        exact ⟨1, .error e₂, .next first ⟨.none _, rfl⟩, .givenUp full⟩
      | some p =>
        obtain ⟨r, c₁⟩ := p
        obtain ⟨e₂, he, done⟩ := begun.follows hs hr
        rw [he] at first
        have rows : c₁.rows = c.rows := (Collection.keeps_of_row hr).2.1
        have grown := growing.push_row hs hr
        simp only [hr]
        rw [rows] at grown ⊢
        have explored : e₂.StandsFor { c₁ with rows := c.rows.push r } (c.rows.push r) :=
          ⟨done.states, done.numbers, done.waiting, done.le⟩
        have size : (c.rows.push r).size = c.rows.size + 1 := Array.size_push ..
        have enough' : stateLimit ≤ (c.rows.push r).size + rounds := by omega
        obtain ⟨count, out, ends, agrees⟩ := ih explored grown enough' explored.waiting
        rw [size] at ends
        exact ⟨count + 1, out, ends.next first, agrees⟩

/-- The loop over the states of a grammar takes them by number, each once, and ends as the canonical
collection says. -/
theorem exists_ends (g : Grammar) :
    ∃ count out,
      Ends (round g) (.ok (single (.initial g))) ((List.range count).map StateId.mk) out ∧
        Agrees out (Collection.canonical g) := by
  obtain ⟨count, out, ends, agrees⟩ := (standsFor_single (.initial g)).exists_ends
    Collection.growing_single (Nat.le_add_left ..)
  exact ⟨count, out, List.range_eq_range' ▸ ends, agrees⟩

theorem Agrees.size_le {out : Except Exploration Exploration}
    (h : Agrees out (Collection.canonical g)) :
    (Exploration.found out).states.size ≤ stateLimit := by
  generalize collection : Collection.canonical g = c at h
  cases h with
  | found h =>
    have growing := (Collection.growing_of_explore Collection.growing_single
      (Nat.le_add_left ..) collection).1
    rw [Exploration.found, h.size]
    exact growing.size_le
  | givenUp full => exact full.le

theorem Agrees.build_eq {out : Except Exploration Exploration}
    (h : Agrees out (Collection.canonical g)) : build g = automaton g out := by
  rw [build]
  generalize Collection.canonical g = c at h ⊢
  cases h with
  | found h =>
    rw [automaton, h.states]
  | givenUp => rfl

end Exploration

end SimpleLR

import SimpleLR.Proofs.Automaton.Conflict
import SimpleLR.Proofs.Item.Renaming

/-!
# Automata under a renaming

Renaming takes the item sets that are reached to those that are reached in the renamed grammar, so
there are equally many, and it takes sets without conflicts to sets without conflicts. Building is
therefore decided alike for both grammars (`Renaming.exists_build_iff`), and the cells of one
automaton are the renamed cells of the other (`Renaming.action?_eq`).
-/

namespace SimpleLR

/-! ## What building depends on -/

namespace Automaton

variable {g : Grammar}

/-- An automaton is built when there are not too many sets and none of them has a conflict. -/
theorem exists_build_iff : (∃ a, build g = .ok a) ↔
    g.itemSets.encard ≤ stateLimit ∧ ∀ s, g.Reaches s → s.Consistent g := by
  constructor
  · rintro ⟨a, h⟩
    obtain ⟨c, hc, _⟩ := build_eq_ok_iff.1 h
    refine ⟨Collection.encard_le_of_canonical hc, fun s hs ↦ ?_⟩
    obtain ⟨id, place⟩ := Collection.mem_states_iff.1 ((Collection.mem_states_iff_reaches hc).2 hs)
    exact (conflictFree_of_build h hc).consistent (Collection.explored_of_canonical hc) place
  · rintro ⟨fits, consistent⟩
    obtain ⟨c, hc⟩ := Collection.exists_canonical_of_encard_le fits
    exact exists_build_of_consistent hc fun id s place ↦
      consistent s (Collection.reaches_of_itemsOf hc place)

/-- Only a collection that is not found has too many states. -/
theorem build_eq_tooManyStates_iff :
    build g = .error .tooManyStates ↔ stateLimit < g.itemSets.encard := by
  constructor
  · intro h
    by_contra fits
    obtain ⟨c, hc⟩ := Collection.exists_canonical_of_encard_le (not_lt.1 fits)
    obtain ⟨_, _, _, _, _, stuck, _⟩ := stuck_of_build hc h
    rcases stuck.error with ⟨_, _, e⟩ | ⟨_, _, _, _, _, e⟩ <;> cases e
  · intro many
    cases found : Collection.canonical g with
    | some c => exact absurd (Collection.encard_le_of_canonical found) (not_le_of_gt many)
    | none =>
      rw [build, found]
      rfl

variable {a : Automaton}

/-- An automaton has as many states as there are sets. -/
theorem encard_itemSets_of_build (h : build g = .ok a) : g.itemSets.encard = a.states.size := by
  obtain ⟨c, hc, _⟩ := build_eq_ok_iff.1 h
  -- the same numbers have a set
  have beyond : ∀ i, a.states.size ≤ i ↔ c.states.size ≤ i := fun i ↦ by
    have same : a.itemsOf ⟨i⟩ = none ↔ c.itemsOf ⟨i⟩ = none := by rw [itemsOf_of_build h hc]
    simpa [itemsOf, state?, Collection.itemsOf] using same
  have size : a.states.size = c.states.size :=
    Nat.le_antisymm ((beyond _).2 (Nat.le_refl _)) ((beyond _).1 (Nat.le_refl _))
  rw [Collection.encard_itemSets hc, size]

/-- The states of an automaton hold what is reached. -/
theorem exists_itemsOf_iff (h : build g = .ok a) {s : ItemSet} :
    (∃ id, a.itemsOf id = some s) ↔ g.Reaches s := by
  obtain ⟨c, hc, _⟩ := build_eq_ok_iff.1 h
  rw [funext (itemsOf_of_build h hc), ← Collection.mem_states_iff,
    Collection.mem_states_iff_reaches hc]

/-- A set is held by one state only. -/
theorem itemsOf_inj (h : build g = .ok a) {s : ItemSet} {id id' : StateId}
    (place : a.itemsOf id = some s) (place' : a.itemsOf id' = some s) : id = id' := by
  obtain ⟨c, hc, _⟩ := build_eq_ok_iff.1 h
  rw [itemsOf_of_build h hc] at place place'
  exact (Collection.explored_of_canonical hc).numbered.inj place place'

end Automaton

namespace Renaming

variable {g g' : Grammar} (R : Renaming g g') {s : ItemSet}

/-! ## The sets that are reached -/

include R

theorem reaches (h : g.Reaches s) : g'.Reaches (R.items s) := by
  induction h with
  | initial =>
    rw [R.items_initial]
    exact .initial
  | goto _ _ ne ih =>
    rw [R.items_goto]
    have ne := mt R.kernel_eq_nil_iff.1 ne
    exact .goto ih (ItemSet.mem_symbols_of_kernel ne) ne

theorem encard_itemSets : g'.itemSets.encard = g.itemSets.encard := by
  have image : g'.itemSets = R.items '' g.itemSets := by
    ext s
    refine ⟨fun h ↦ ⟨R.symm.items s, R.symm.reaches h, R.symm.symm_items s⟩, ?_⟩
    rintro ⟨s, h, rfl⟩
    exact R.reaches h
  rw [image, R.items_injective.encard_image]

theorem consistent_of_items (h : (R.items s).Consistent g') : s.Consistent g where
  shift i hi complete t follow := by
    rw [← R.kernel_eq_nil_iff]
    exact h.shift _ (R.item_mem_items.2 hi) (by simpa using complete) _ (R.mem_follow follow)
  reduce i hi complete j hj complete' t follow follow' := by
    refine R.rule.injective ?_
    exact h.reduce _ (R.item_mem_items.2 hi) (by simpa using complete) _ (R.item_mem_items.2 hj)
      (by simpa using complete') _ (R.mem_follow follow) (R.mem_follow follow')

theorem exists_build (h : ∃ a, Automaton.build g' = .ok a) : ∃ a, Automaton.build g = .ok a := by
  rw [Automaton.exists_build_iff] at h ⊢
  rw [← R.encard_itemSets]
  exact ⟨h.1, fun s hs ↦ R.consistent_of_items (h.2 _ (R.reaches hs))⟩

theorem exists_build_iff :
    (∃ a, Automaton.build g = .ok a) ↔ ∃ a, Automaton.build g' = .ok a :=
  ⟨R.symm.exists_build, R.exists_build⟩

end Renaming

/-! ## Cells -/

/-- An action with other states and other rules. -/
def Action.rename (state : StateId → StateId) (rule : RuleId → RuleId) : Action → Action
  | .shift next => .shift (state next)
  | .goto next => .goto (state next)
  | .reduce r => .reduce (rule r)
  | .accept => .accept

theorem Grammar.Reaches.rule_mem {g : Grammar} {s : ItemSet} {i : Item} (h : g.Reaches s)
    (hi : i ∈ s) : i.rule ∈ g.ruleIds :=
  h.item_induction (p := fun i ↦ i.rule ∈ g.ruleIds) (fun _ hr ↦ hr) (fun _ _ hr _ ↦ hr) i hi

namespace Automaton

variable {a : Automaton} {id : StateId} {x : Symbol} {act : Action} {r : RuleId}

theorem exists_itemsOf_of_action (cell : a.action? id x = some act) :
    ∃ s, a.itemsOf id = some s := by
  obtain ⟨state, found, _⟩ := Option.bind_eq_some_iff.1 cell
  exact ⟨state.items, by rw [itemsOf, found]; rfl⟩

/-- Only rules of the grammar are reduced. -/
theorem mem_ruleIds_of_action {g : Grammar} (h : build g = .ok a)
    (cell : a.action? id x = some (.reduce r)) : r ∈ g.ruleIds := by
  obtain ⟨s, place⟩ := exists_itemsOf_of_action cell
  have reached := (exists_itemsOf_iff h).1 ⟨id, place⟩
  obtain ⟨rfl, ha⟩ := tabulates_of_build h
  generalize e : Action.reduce r = act at cell
  cases (ha.action_iff id s place x act).1 cell with
  | @enter x => cases x <;> cases e
  | @complete i t hi =>
    obtain ⟨rfl, _⟩ := Action.complete_eq_reduce_iff.1 e.symm
    exact reached.rule_mem hi

end Automaton

namespace Renaming

variable {a a' : Automaton} (R : Renaming a.grammar a'.grammar) {φ : StateId → StateId}
  {id : StateId} {s : ItemSet} {x : Symbol} {act : Action}

theorem rename_enter (x : Symbol) (id : StateId) :
    (Action.enter x id).rename φ R.rule = .enter (R.symbol x) (φ id) := by
  cases x <;> rfl

theorem rename_complete (r : RuleId) :
    (Action.complete r).rename φ R.rule = .complete (R.rule r) := by
  have accept : R.rule r = .accept ↔ r = .accept :=
    ⟨fun e ↦ R.rule.injective (e.trans R.rule_accept.symm), fun e ↦ by rw [e, R.rule_accept]⟩
  by_cases e : r = .accept
  · simp [Action.complete, e, R.rule_accept, Action.rename]
  · simp [Action.complete, e, accept, Action.rename]

/-- What a set claims, the renamed set claims for the renamed symbol. -/
theorem claims (state : ∀ id, a'.itemsOf (φ id) = (a.itemsOf id).map R.items)
    (h : a.Claims s x act) : a'.Claims (R.items s) (R.symbol x) (act.rename φ R.rule) := by
  cases h with
  | enter ne place =>
    rw [R.rename_enter]
    refine .enter (mt R.kernel_eq_nil_iff.1 ne) ?_
    rw [state, place, Option.map_some, R.items_goto]
  | complete hi complete follow =>
    rw [R.rename_complete]
    exact .complete (R.item_mem_items.2 hi) (by simpa using complete) (R.mem_follow follow)

/-- The cells of the state with the renamed set hold the renamed actions. -/
theorem action?_eq (ha : a.Tabulates) (ha' : a'.Tabulates) {ψ : StateId → StateId}
    (state : ∀ id, a'.itemsOf (φ id) = (a.itemsOf id).map R.items)
    (state' : ∀ id, a.itemsOf (ψ id) = (a'.itemsOf id).map R.symm.items) (id : StateId)
    (x : Symbol) : a'.action? (φ id) (R.symbol x) = (a.action? id x).map (.rename φ R.rule) := by
  cases cell : a.action? id x with
  | some act =>
    obtain ⟨s, place⟩ := Automaton.exists_itemsOf_of_action cell
    have claim := R.claims state ((ha.action_iff id s place x act).1 cell)
    exact (ha'.action_iff _ _ (by rw [state, place]; rfl) _ _).2 claim
  | none =>
    -- an action in the renamed cell would be one under the old names
    refine Option.eq_none_iff_forall_not_mem.2 fun act cell' ↦ ?_
    obtain ⟨s', place'⟩ := Automaton.exists_itemsOf_of_action cell'
    obtain ⟨s, place, rfl⟩ := Option.map_eq_some_iff.1 ((state id).symm.trans place')
    have claim := R.symm.claims state' ((ha'.action_iff _ _ place' _ _).1 cell')
    rw [R.symm_items, R.symm_symbol] at claim
    rw [(ha.action_iff id s place x _).2 claim] at cell
    cases cell

/-- Each state corresponds to the one with the renamed set. -/
theorem exists_state {g g' : Grammar} (R : Renaming g g') (h : Automaton.build g = .ok a)
    (h' : Automaton.build g' = .ok a') :
    ∃ φ : StateId → StateId, ∀ id, a'.itemsOf (φ id) = (a.itemsOf id).map R.items := by
  have each : ∀ id, ∃ id', a'.itemsOf id' = (a.itemsOf id).map R.items := fun id ↦ by
    cases place : a.itemsOf id with
    | some s =>
      have reached := R.reaches ((Automaton.exists_itemsOf_iff h).1 ⟨id, place⟩)
      exact (Automaton.exists_itemsOf_iff h').2 reached
    | none => exact ⟨⟨a'.states.size⟩, by simp [Automaton.itemsOf, Automaton.state?]⟩
  exact ⟨fun id ↦ (each id).choose, fun id ↦ (each id).choose_spec⟩

end Renaming

end SimpleLR

import SimpleLR.Automaton.Recognizer
import SimpleLR.Proofs.Automaton.Discovery

/-!
# The SLR(1) table

A terminal is claimed in a set of a collection by the items that have it after the dot, and by the
complete items of the rules after whose left side it may follow (`Collection.Claims`). An automaton
is built exactly when no terminal is claimed for two actions, and its cells hold what is claimed and
nothing else (`Automaton.Fills`), also when it is read as a parse table.
-/

namespace SimpleLR

variable {g : Grammar} {items : ItemSet} {id j : StateId} {t : Terminal} {n : Nonterminal}
  {r : RuleId}

namespace Action

theorem complete_ne_shift : complete r ≠ .shift j := by
  rw [complete]
  split <;> simp

theorem complete_eq_reduce_iff {r' : RuleId} : complete r' = .reduce r ↔ r' = r ∧ r ≠ .accept := by
  rw [complete]
  split
  · next e =>
    refine ⟨fun h ↦ (by cases h), ?_⟩
    rintro ⟨rfl, ne⟩
    exact absurd e ne
  · next ne =>
    rw [reduce.injEq]
    refine ⟨?_, And.left⟩
    rintro rfl
    exact ⟨rfl, ne⟩

theorem complete_eq_accept_iff : complete r = .accept ↔ r = .accept := by
  rw [complete]
  split
  · next e => simp [e]
  · next ne => simp [ne]

theorem complete_inj {r' : RuleId} (h : complete r = complete r') : r = r' := by
  by_cases e : r' = .accept
  · rw [e] at h ⊢
    exact complete_eq_accept_iff.1 (h.trans (complete_eq_accept_iff.2 rfl))
  · exact (complete_eq_reduce_iff.1 (h.trans (complete_eq_reduce_iff.2 ⟨rfl, e⟩))).1

end Action

namespace Collection

/-- The actions for which the items of a set claim a terminal. -/
inductive Claims (g : Grammar) (c : Collection) (items : ItemSet) (t : Terminal) : Action → Prop
  | shift {i : Item} {j : StateId} (hi : i ∈ items) (next : i.next? g = some (.terminal t))
    (place : c.itemsOf j = some (items.goto g (.terminal t))) : Claims g c items t (.shift j)
  | reduce {i : Item} (hi : i ∈ items) (complete : i.isComplete g = true) (ne : i.rule ≠ .accept)
    (follow : t ∈ (FirstFollow.ofGrammar g).follow (g.rule i.rule).left) :
    Claims g c items t (.reduce i.rule)
  | accept {i : Item} (hi : i ∈ items) (complete : i.isComplete g = true) (e : i.rule = .accept)
    (eoi : t = .endOfInput) : Claims g c items t .accept

/-- No terminal is claimed for two actions. -/
def ConflictFree (g : Grammar) (c : Collection) : Prop :=
  ∀ id items, c.itemsOf id = some items → ∀ t act act', c.Claims g items t act →
    c.Claims g items t act' → act = act'

variable {c : Collection} {i : Item} {act : Action}

/-- A complete item claims the terminals that may follow the left side of its rule; after the
augmenting rule nothing but the end of the input may come. -/
theorem Claims.complete (hi : i ∈ items) (complete : i.isComplete g = true)
    (follow : t ∈ (FirstFollow.ofGrammar g).follow (g.rule i.rule).left) :
    c.Claims g items t (.complete i.rule) := by
  by_cases e : i.rule = .accept
  · rw [Action.complete, if_pos e]
    rw [e, Grammar.left_accept] at follow
    exact .accept hi complete e (Grammar.eq_endOfInput_of_mem_follow_augmented follow)
  · rw [Action.complete, if_neg e]
    exact .reduce hi complete e follow

theorem claims_iff : c.Claims g items t act ↔
    (items.kernel g (.terminal t) ≠ [] ∧ ∃ j,
      c.itemsOf j = some (items.goto g (.terminal t)) ∧ act = .shift j) ∨
    ∃ i ∈ items, i.isComplete g = true ∧
      t ∈ (FirstFollow.ofGrammar g).follow (g.rule i.rule).left ∧ act = .complete i.rule := by
  constructor
  · rintro (⟨hi, next, place⟩ | ⟨hi, complete, ne, follow⟩ | ⟨hi, complete, e, rfl⟩)
    · have ne := List.ne_nil_of_mem (ItemSet.mem_kernel.2 ⟨_, hi, next, rfl⟩)
      exact .inl ⟨ne, _, place, rfl⟩
    · exact .inr ⟨_, hi, complete, follow, by rw [Action.complete, if_neg ne]⟩
    · refine .inr ⟨_, hi, complete, ?_, by rw [Action.complete, if_pos e]⟩
      rw [e, Grammar.left_accept]
      exact Grammar.endOfInput_mem_follow_augmented
  · rintro (⟨ne, j, place, rfl⟩ | ⟨i, hi, complete, follow, rfl⟩)
    · obtain ⟨k, hk⟩ := List.exists_mem_of_ne_nil _ ne
      obtain ⟨i, hi, next, _⟩ := ItemSet.mem_kernel.1 hk
      exact .shift hi next place
    · exact .complete hi complete follow

/-- The sets of a collection without conflicts are consistent. -/
theorem ConflictFree.consistent (free : c.ConflictFree g) (hc : Explored g c)
    (place : c.itemsOf id = some items) : items.Consistent g where
  shift i hi complete t follow := by
    by_contra ne
    obtain ⟨target, mem⟩ := (hc.row id items place).complete _ (ItemSet.mem_symbols_of_kernel ne) ne
    have shift : c.Claims g items t (.shift target) :=
      claims_iff.2 (.inl ⟨ne, target, ((hc.row id items place).sound _ _ mem).2.2, rfl⟩)
    exact Action.complete_ne_shift (free id items place t _ _ (.complete hi complete follow) shift)
  reduce i hi complete j hj complete' t follow follow' :=
    Action.complete_inj (free id items place t _ _ (.complete hi complete follow)
      (.complete hj complete' follow'))

end Collection

namespace Automaton

variable {a : Automaton} {c : Collection} {act : Action} {ahead : Option Terminal}

/-! ## The automaton as a parse table -/

theorem parseAction_eq_shift_iff : parseAction g act = some (.shift j) ↔ act = .shift j := by
  cases act <;> simp [parseAction]

theorem parseAction_eq_reduce_iff {size : Nat} : parseAction g act = some (.reduce r n size) ↔
    act = .reduce r ∧ n = (g.rule r).left ∧ size = (g.rule r).right.size := by
  cases act with
  | reduce r' =>
    simp only [parseAction, Option.some.injEq, ParseAction.reduce.injEq, Action.reduce.injEq]
    refine and_congr_right ?_
    rintro rfl
    rw [eq_comm, @eq_comm _ size]
  | _ => simp [parseAction]

theorem parseAction_eq_accept_iff : parseAction g act = some .accept ↔ act = .accept := by
  cases act <;> simp [parseAction]

theorem table_shift_iff : a.table.action id ahead = some (.shift j) ↔
    a.action? id (.terminal (ahead.getD .endOfInput)) = some (.shift j) := by
  rw [table, Option.bind_eq_some_iff]
  simp only [parseAction_eq_shift_iff, exists_eq_right]

theorem table_reduce_iff {size : Nat} : a.table.action id ahead = some (.reduce r n size) ↔
    a.action? id (.terminal (ahead.getD .endOfInput)) = some (.reduce r) ∧
      n = (a.grammar.rule r).left ∧ size = (a.grammar.rule r).right.size := by
  rw [table, Option.bind_eq_some_iff]
  simp only [parseAction_eq_reduce_iff]
  constructor
  · rintro ⟨_, cell, rfl, rule⟩
    exact ⟨cell, rule⟩
  · rintro ⟨cell, rule⟩
    exact ⟨_, cell, rfl, rule⟩

theorem table_accept_iff : a.table.action id ahead = some .accept ↔
    a.action? id (.terminal (ahead.getD .endOfInput)) = some .accept := by
  rw [table, Option.bind_eq_some_iff]
  simp only [parseAction_eq_accept_iff, exists_eq_right]

theorem table_goto_iff : a.table.goto id n = some j ↔
    a.action? id (.nonterminal n) = some (.goto j) := by
  rw [table]
  dsimp only
  split
  · next target cell => rw [cell, Option.some.injEq, Option.some.injEq, Action.goto.injEq]
  · next other =>
    refine ⟨fun none ↦ (by cases none), fun cell ↦ ?_⟩
    exact absurd cell (other j)

/-! ## What is in the cells -/

/-- The cells of an automaton hold what is claimed in a collection and its transitions. -/
structure Fills (a : Automaton) (g : Grammar) (c : Collection) : Prop where
  grammar : a.grammar = g
  itemsOf : ∀ id, a.itemsOf id = c.itemsOf id
  initial : c.itemsOf a.table.initial = some (.initial g)
  terminal : ∀ id items, c.itemsOf id = some items → ∀ t act,
    a.action? id (.terminal t) = some act ↔ c.Claims g items t act
  nonterminal : ∀ id items, c.itemsOf id = some items → ∀ n act,
    a.action? id (.nonterminal n) = some act ↔ items.kernel g (.nonterminal n) ≠ [] ∧
      ∃ j, c.itemsOf j = some (items.goto g (.nonterminal n)) ∧ act = .goto j
  shift : ∀ id items, c.itemsOf id = some items → ∀ ahead j,
    a.table.action id ahead = some (.shift j) ↔
      c.Claims g items (ahead.getD .endOfInput) (.shift j)
  reduce : ∀ id items, c.itemsOf id = some items → ∀ ahead r n size,
    a.table.action id ahead = some (.reduce r n size) ↔
      c.Claims g items (ahead.getD .endOfInput) (.reduce r) ∧
        n = (g.rule r).left ∧ size = (g.rule r).right.size
  accept : ∀ id items, c.itemsOf id = some items → ∀ ahead,
    a.table.action id ahead = some .accept ↔ c.Claims g items (ahead.getD .endOfInput) .accept
  goto : ∀ id items, c.itemsOf id = some items → ∀ n j,
    a.table.goto id n = some j ↔ items.kernel g (.nonterminal n) ≠ [] ∧
      c.itemsOf j = some (items.goto g (.nonterminal n))

theorem itemsOf_of_build (h : build g = .ok a) (hc : Collection.canonical g = some c)
    (id : StateId) : a.itemsOf id = c.itemsOf id := by
  obtain ⟨c', hc', states, placed, rfl⟩ := build_eq_ok_iff.1 h
  obtain rfl : c = c' := Option.some.inj (hc.symm.trans hc')
  exact itemsOf_of_placed placed id

theorem claims_terminal_cases : a.Claims items (.terminal t) act ↔
    (items.kernel a.grammar (.terminal t) ≠ [] ∧ ∃ j,
      a.itemsOf j = some (items.goto a.grammar (.terminal t)) ∧ act = .shift j) ∨
    ∃ i ∈ items, i.isComplete a.grammar = true ∧
      t ∈ (FirstFollow.ofGrammar a.grammar).follow (a.grammar.rule i.rule).left ∧
        act = .complete i.rule := by
  constructor
  · intro h
    generalize e : Symbol.terminal t = x at h
    cases h with
    | enter ne place =>
      subst e
      exact .inl ⟨ne, _, place, rfl⟩
    | complete hi complete follow =>
      cases e
      exact .inr ⟨_, hi, complete, follow, rfl⟩
  · rintro (⟨ne, j, place, rfl⟩ | ⟨i, hi, complete, follow, rfl⟩)
    · exact .enter ne place
    · exact .complete hi complete follow

/-- What an automaton claims for a terminal is claimed in its collection. -/
theorem claims_terminal_iff (hg : a.grammar = g) (same : ∀ id, a.itemsOf id = c.itemsOf id) :
    a.Claims items (.terminal t) act ↔ c.Claims g items t act := by
  rw [claims_terminal_cases, Collection.claims_iff, hg, funext same]

theorem claims_nonterminal_iff (hg : a.grammar = g) (same : ∀ id, a.itemsOf id = c.itemsOf id) :
    a.Claims items (.nonterminal n) act ↔ items.kernel g (.nonterminal n) ≠ [] ∧
      ∃ j, c.itemsOf j = some (items.goto g (.nonterminal n)) ∧ act = .goto j := by
  subst hg
  constructor
  · intro h
    generalize e : Symbol.nonterminal n = x at h
    cases h with
    | enter ne place =>
      subst e
      exact ⟨ne, _, (same _).symm.trans place, rfl⟩
    | complete => cases e
  · rintro ⟨ne, j, place, rfl⟩
    exact .enter ne ((same j).trans place)

theorem fills_of_build (h : build g = .ok a) (hc : Collection.canonical g = some c) :
    a.Fills g c := by
  obtain ⟨hg, ha⟩ := tabulates_of_build h
  have same := itemsOf_of_build h hc
  have terminal : ∀ id items, c.itemsOf id = some items → ∀ t act,
      a.action? id (.terminal t) = some act ↔ c.Claims g items t act :=
    fun id items place t act ↦ by
      rw [ha.action_iff id items ((same id).trans place), claims_terminal_iff hg same]
  have nonterminal : ∀ id items, c.itemsOf id = some items → ∀ n act,
      a.action? id (.nonterminal n) = some act ↔ items.kernel g (.nonterminal n) ≠ [] ∧
        ∃ j, c.itemsOf j = some (items.goto g (.nonterminal n)) ∧ act = .goto j :=
    fun id items place n act ↦ by
      rw [ha.action_iff id items ((same id).trans place), claims_nonterminal_iff hg same]
  refine ⟨hg, same, (Collection.explored_of_canonical hc).initial, terminal, nonterminal, ?_, ?_,
    ?_, ?_⟩
  · intro id items place ahead j
    rw [table_shift_iff, terminal id items place]
  · intro id items place ahead r n size
    rw [table_reduce_iff, terminal id items place, hg]
  · intro id items place ahead
    rw [table_accept_iff, terminal id items place]
  · intro id items place n j
    rw [table_goto_iff, nonterminal id items place]
    simp

/-- If there are not too many states, the collection holds the sets that are reached, in the order
of their discovery and with their transitions. An automaton is built exactly when no terminal is
claimed there for two actions, and then each cell holds the action that is claimed for it, if there
is one. -/
theorem build_slr (fits : g.itemSets.encard ≤ stateLimit) :
    ∃ c, Collection.canonical g = some c ∧ g.CanonicalStates (transitions c) ∧
      ((∃ a, build g = .ok a) ↔ c.ConflictFree g) ∧ ∀ a, build g = .ok a → a.Fills g c := by
  obtain ⟨c, hc⟩ := Collection.exists_canonical_of_encard_le fits
  refine ⟨c, hc, Collection.canonicalStates_of_canonical hc,
    ⟨fun ⟨a, h⟩ id items place t act act' claim claim' ↦ ?_, fun free ↦ ?_⟩,
    fun a h ↦ fills_of_build h hc⟩
  · have cell := (fills_of_build h hc).terminal id items place t
    rw [← cell] at claim claim'
    exact Option.some.inj (claim.symm.trans claim')
  · exact exists_build_of_consistent hc fun id items place ↦
      free.consistent (Collection.explored_of_canonical hc) place

/-- `S -> a S b` and `S -> ε`: no terminal is claimed twice, and the cells are filled. In the first
state `a` is shifted, the empty rule is reduced on `b`, and `S` leads to the state in which the end
of the input is accepted and nothing is done on `a`. -/
theorem build_slr_nested : Grammar.nested.itemSets.encard ≤ stateLimit ∧
    ∃ c a, build .nested = .ok a ∧ Collection.canonical .nested = some c ∧
      Grammar.nested.CanonicalStates (transitions c) ∧ c.ConflictFree .nested ∧
      a.Fills .nested c ∧
      a.action? .initial (.terminal ⟨1⟩) = some (.shift ⟨1⟩) ∧
      a.action? .initial (.terminal ⟨2⟩) = some (.reduce ⟨2⟩) ∧
      a.action? .initial (.nonterminal ⟨1⟩) = some (.goto ⟨2⟩) ∧
      a.action? ⟨2⟩ (.terminal .endOfInput) = some .accept ∧
      a.action? ⟨2⟩ (.terminal ⟨1⟩) = none := by
  obtain ⟨a, h⟩ := exists_build_nested
  obtain ⟨c, hc, _⟩ := build_eq_ok_iff.1 h
  have fits := Collection.encard_le_of_canonical hc
  have shift : a.action? .initial (.terminal ⟨1⟩) = some (.shift ⟨1⟩) :=
    eq_of_build (f := fun a ↦ a.action? .initial (.terminal ⟨1⟩)) h (by decide +kernel)
  have reduce : a.action? .initial (.terminal ⟨2⟩) = some (.reduce ⟨2⟩) :=
    eq_of_build (f := fun a ↦ a.action? .initial (.terminal ⟨2⟩)) h (by decide +kernel)
  have goto : a.action? .initial (.nonterminal ⟨1⟩) = some (.goto ⟨2⟩) :=
    eq_of_build (f := fun a ↦ a.action? .initial (.nonterminal ⟨1⟩)) h (by decide +kernel)
  have accept : a.action? ⟨2⟩ (.terminal .endOfInput) = some .accept :=
    eq_of_build (f := fun a ↦ a.action? ⟨2⟩ (.terminal .endOfInput)) h (by decide +kernel)
  have unclaimed : a.action? ⟨2⟩ (.terminal ⟨1⟩) = none :=
    eq_of_build (f := fun a ↦ a.action? ⟨2⟩ (.terminal ⟨1⟩)) h (by decide +kernel)
  obtain ⟨c, hc, canonical, built, fills⟩ := build_slr fits
  exact ⟨fits, c, a, h, hc, canonical, built.1 ⟨a, h⟩, fills a h, shift, reduce, goto, accept,
    unclaimed⟩

end Automaton

end SimpleLR

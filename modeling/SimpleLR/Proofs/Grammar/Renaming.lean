import Mathlib.Algebra.Group.End
import Mathlib.Data.Set.Card
import Mathlib.Order.Interval.Finset.Nat
import SimpleLR.Proofs.Grammar.Exactness

/-!
# Grammars declared in another order

A renumbering relates two grammars when it is a bijection between what they declare that fixes what
is reserved and takes rules to rules (`Renumbering.Relates`). It can be extended to permutations of
all numbers (`Renumbering.Relates.exists_renaming`), so that it can be reversed. Derivations are
renamed along with the symbols (`Renaming.derives`), and therefore the FOLLOW sets, which only
depend on what is derived (`Renaming.mem_follow`).
-/

namespace SimpleLR

/-- A symbol with another number. -/
def Symbol.map (f : Terminal → Terminal) (h : Nonterminal → Nonterminal) : Symbol → Symbol
  | .terminal t => .terminal (f t)
  | .nonterminal n => .nonterminal (h n)

/-- New numbers for the terminals, the nonterminals and the rules. -/
structure Renumbering where
  terminal : Terminal → Terminal
  nonterminal : Nonterminal → Nonterminal
  rule : RuleId → RuleId

namespace Renumbering

/-- The new number of a symbol. -/
def symbol (f : Renumbering) : Symbol → Symbol := Symbol.map f.terminal f.nonterminal

/-- A derivation by the new numbers of its rules. -/
def derivation (f : Renumbering) (d : Derivation) : Derivation := ⟨d.reductions.map f.rule⟩

/-- Two grammars are the same but for the order in which they are declared: what is declared by one
corresponds to what is declared by the other, and so do the reserved symbols, the start symbols and
the sides of the rules. -/
structure Relates (f : Renumbering) (g g' : Grammar) : Prop where
  terminals :
    Set.BijOn f.terminal {t | t.index < g.terminals.size} {t | t.index < g'.terminals.size}
  nonterminals :
    Set.BijOn f.nonterminal {n | n.index < g.nonterminals.size} {n | n.index < g'.nonterminals.size}
  rules : Set.BijOn f.rule {r | r.index < g.rules.size} {r | r.index < g'.rules.size}
  endOfInput : f.terminal .endOfInput = .endOfInput
  augmented : f.nonterminal .augmented = .augmented
  accept : f.rule .accept = .accept
  start : f.nonterminal g.start = g'.start
  left : ∀ r, r.index < g.rules.size → (g'.rule (f.rule r)).left = f.nonterminal (g.rule r).left
  right : ∀ r, r.index < g.rules.size →
    (g'.rule (f.rule r)).right = (g.rule r).right.map f.symbol

end Renumbering

/-- Permutations of all numbers that take the rules of a grammar to those of another. -/
structure Renaming (g g' : Grammar) where
  terminal : Terminal ≃ Terminal
  nonterminal : Nonterminal ≃ Nonterminal
  rule : RuleId ≃ RuleId
  terminal_endOfInput : terminal .endOfInput = .endOfInput
  rule_accept : rule .accept = .accept
  nonterminal_augmented : nonterminal .augmented = .augmented
  rule_mem_iff : ∀ r, rule r ∈ g'.ruleIds ↔ r ∈ g.ruleIds
  left_rule : ∀ r, (g'.rule (rule r)).left = nonterminal (g.rule r).left
  right_rule : ∀ r, (g'.rule (rule r)).right =
    (g.rule r).right.map (Symbol.map terminal nonterminal)

/-! ## Extending a renumbering -/

section Extend

open Indexed

variable {α : Type} [Indexed α] {f : α → α} {k k' : Nat}

theorem ncard_setOf_index_lt (k : Nat) : {a : α | index a < k}.ncard = k := by
  have numbered : Set.BijOn (index (α := α)) {a | index a < k} (Set.Iio k) :=
    ⟨fun _ ha ↦ ha, fun _ _ _ _ e ↦ index_inj.1 e,
      fun i hi ↦ ⟨ofIndex i, by simpa using hi, index_ofIndex i⟩⟩
  rw [numbered.ncard_eq, Set.ncard_eq_toFinset_card']
  simp

/-- A bijection between the things with small numbers is a part of a permutation that takes no other
thing to a small number. -/
theorem exists_equiv_of_bijOn (h : Set.BijOn f {a | index a < k} {a | index a < k'}) :
    ∃ e : α ≃ α, (∀ a, index a < k → e a = f a) ∧ ∀ a, index (e a) < k' ↔ index a < k := by
  classical
  obtain rfl : k = k' := by
    rw [← ncard_setOf_index_lt (α := α) k, h.ncard_eq, ncard_setOf_index_lt]
  have same : ∀ a, index a < k → Equiv.Perm.ofSubtype h.equiv a = f a := fun a ha ↦
    Equiv.Perm.ofSubtype_apply_of_mem (p := (· ∈ {a : α | index a < k})) h.equiv ha
  refine ⟨Equiv.Perm.ofSubtype h.equiv, same, fun a ↦ ⟨fun lt ↦ ?_, fun lt ↦ ?_⟩⟩
  · obtain ⟨b, hb, e⟩ := h.surjOn lt
    rw [← same b hb] at e
    rwa [← (Equiv.Perm.ofSubtype h.equiv).injective e]
  · rw [same a lt]
    exact h.mapsTo lt

end Extend

theorem Symbol.map_congr {f f' : Terminal → Terminal} {h h' : Nonterminal → Nonterminal}
    {s : Symbol} (terminals : ∀ t, s = .terminal t → f t = f' t)
    (nonterminals : ∀ n, s = .nonterminal n → h n = h' n) : s.map f h = s.map f' h' := by
  cases s with
  | terminal t => exact congrArg Symbol.terminal (terminals t rfl)
  | nonterminal n => exact congrArg Symbol.nonterminal (nonterminals n rfl)

theorem Symbol.map_map_symm (e : Terminal ≃ Terminal) (e' : Nonterminal ≃ Nonterminal)
    (s : Symbol) : (s.map e e').map e.symm e'.symm = s := by
  cases s <;> simp [Symbol.map]

/-- Related grammars are renamed into one another. -/
theorem Renumbering.Relates.exists_renaming {f : Renumbering} {g g' : Grammar}
    (h : f.Relates g g') :
    ∃ R : Renaming g g', (∀ t, t.index < g.terminals.size → R.terminal t = f.terminal t) ∧
      ∀ r ∈ g.ruleIds, R.rule r = f.rule r := by
  obtain ⟨terminal, terminals, _⟩ := exists_equiv_of_bijOn h.terminals
  obtain ⟨nonterminal, nonterminals, _⟩ := exists_equiv_of_bijOn h.nonterminals
  obtain ⟨rule, rules, mem_iff⟩ := exists_equiv_of_bijOn h.rules
  have terminal_zero := (Array.getElem?_eq_some_iff.1 g.terminals_zero).1
  have nonterminal_zero := (Array.getElem?_eq_some_iff.1 g.nonterminals_zero).1
  have rule_zero := (Array.getElem?_eq_some_iff.1 g.rules_zero).1
  have augmented : nonterminal .augmented = .augmented :=
    (nonterminals _ nonterminal_zero).trans h.augmented
  have start : nonterminal g.start = g'.start :=
    (nonterminals _ g.start_declared.2).trans h.start
  -- beyond the rules there is the augmenting one
  have beyond : ∀ r, ¬ r.index < g.rules.size →
      g.rule r = .augmenting g.start ∧ g'.rule (rule r) = .augmenting g'.start := fun r hr ↦
    ⟨Grammar.rule_eq_augmenting_of_le (Nat.le_of_not_lt hr),
      Grammar.rule_eq_augmenting_of_le (Nat.le_of_not_lt (mt (mem_iff r).1 hr))⟩
  refine ⟨⟨terminal, nonterminal, rule, (terminals _ terminal_zero).trans h.endOfInput,
    (rules _ rule_zero).trans h.accept, augmented, fun r ↦ ?_, fun r ↦ ?_, fun r ↦ ?_⟩, terminals,
    fun r hr ↦ rules r (Grammar.mem_ruleIds.1 hr)⟩
  · rw [Grammar.mem_ruleIds, Grammar.mem_ruleIds]
    exact mem_iff r
  · by_cases hr : r.index < g.rules.size
    · rw [rules r hr, h.left r hr]
      exact (nonterminals _ (Grammar.index_left_lt r)).symm
    · rw [(beyond r hr).1, (beyond r hr).2]
      exact augmented.symm
  · by_cases hr : r.index < g.rules.size
    · rw [rules r hr, h.right r hr]
      refine Array.map_congr_left fun s hs ↦ ?_
      have declared := Grammar.declares_of_mem_right (Array.mem_toList_iff.2 hs)
      refine Symbol.map_congr ?_ ?_
      · rintro t rfl
        exact (terminals t declared.2).symm
      · rintro n rfl
        exact (nonterminals n declared.2).symm
    · rw [(beyond r hr).1, (beyond r hr).2]
      simp [Rule.augmenting, Symbol.map, start]

namespace Renaming

variable {g g' : Grammar} (R : Renaming g g') {a b : List Symbol} {r : RuleId} {t : Terminal}

/-- The new name of a symbol. -/
def symbol : Symbol → Symbol := Symbol.map R.terminal R.nonterminal

@[simp] theorem symbol_terminal (t : Terminal) :
    R.symbol (.terminal t) = .terminal (R.terminal t) := rfl

@[simp] theorem symbol_nonterminal (n : Nonterminal) :
    R.symbol (.nonterminal n) = .nonterminal (R.nonterminal n) := rfl

theorem right_eq (r : RuleId) : (g'.rule (R.rule r)).right = (g.rule r).right.map R.symbol :=
  R.right_rule r

/-- The old names. -/
def symm : Renaming g' g where
  terminal := R.terminal.symm
  nonterminal := R.nonterminal.symm
  rule := R.rule.symm
  terminal_endOfInput := by rw [Equiv.symm_apply_eq, R.terminal_endOfInput]
  rule_accept := by rw [Equiv.symm_apply_eq, R.rule_accept]
  nonterminal_augmented := by rw [Equiv.symm_apply_eq, R.nonterminal_augmented]
  rule_mem_iff r := by rw [← R.rule_mem_iff, Equiv.apply_symm_apply]
  left_rule r := by rw [Equiv.eq_symm_apply, ← R.left_rule, Equiv.apply_symm_apply]
  right_rule r := by
    have e := R.right_rule (R.rule.symm r)
    rw [Equiv.apply_symm_apply] at e
    rw [e, Array.map_map]
    exact (Array.map_id'' (Symbol.map_map_symm R.terminal R.nonterminal) _).symm

@[simp] theorem symm_symbol (s : Symbol) : R.symm.symbol (R.symbol s) = s :=
  Symbol.map_map_symm R.terminal R.nonterminal s

theorem symbol_inj {s s' : Symbol} : R.symbol s = R.symbol s' ↔ s = s' :=
  ⟨fun e ↦ by rw [← R.symm_symbol s, e, R.symm_symbol], congrArg R.symbol⟩

/-! ## Derivations -/

theorem rewrites (h : g.Rewrites a b) : g'.Rewrites (a.map R.symbol) (b.map R.symbol) := by
  obtain ⟨mem, before, after⟩ := h
  obtain ⟨r, _, rfl⟩ := Grammar.mem_rules_iff.1 mem
  have step := Grammar.Rewrites.rule (g := g') (Grammar.rule_mem_rules (R.rule r))
    (before.map R.symbol) (after.map R.symbol)
  rw [R.left_rule, R.right_eq] at step
  simpa using step

theorem derives (h : g.Derives a b) : g'.Derives (a.map R.symbol) (b.map R.symbol) := by
  induction h with
  | refl => exact .refl _
  | tail _ last ih => exact .tail ih (R.rewrites last)

theorem mem_follow (h : t ∈ (FirstFollow.ofGrammar g).follow (g.rule r).left) :
    R.terminal t ∈ (FirstFollow.ofGrammar g').follow (g'.rule (R.rule r)).left := by
  rw [Grammar.mem_follow_iff (Grammar.index_left_lt r)] at h
  rw [Grammar.mem_follow_iff (Grammar.index_left_lt _), R.left_rule]
  rcases h with ⟨rfl, before, h⟩ | ⟨m, before, after, h⟩
  · refine .inl ⟨R.terminal_endOfInput, before.map R.symbol, ?_⟩
    simpa [R.nonterminal_augmented] using R.derives h
  · exact .inr ⟨R.nonterminal m, before.map R.symbol, after.map R.symbol,
      by simpa using R.derives h⟩

end Renaming

end SimpleLR

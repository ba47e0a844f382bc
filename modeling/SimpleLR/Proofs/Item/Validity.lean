import SimpleLR.Proofs.Automaton.Cells
import SimpleLR.Proofs.Item.ViablePrefix

/-!
# Valid items

An item is valid for a form when what stands before its dot ends the form and the rest of the form
is a left context of its rule (`Item.Valid`). If the rules fit the 16 bits of a dot, the items along
a form are exactly the valid ones (`ItemSet.mem_along_iff`), and none is met just when the form is
no viable prefix.
-/

namespace SimpleLR

/-- What stands before the dot of an item ends a form, after a left context of its rule. -/
structure Item.Valid (g : Grammar) (form : List Symbol) (i : Item) : Prop where
  rule : i.rule ∈ g.ruleIds
  dot_le : i.dot.toNat ≤ (g.rule i.rule).right.size
  exists_context : ∃ context, g.LeftContext (g.rule i.rule).left context ∧
    form = context ++ (g.rule i.rule).right.toList.take i.dot.toNat

/-- A form consists of a left context of some rule and a beginning of its right side. -/
def Grammar.ViablePrefix (g : Grammar) (form : List Symbol) : Prop :=
  ∃ r ∈ g.rules.toList, ∃ k ≤ r.right.size, ∃ context, g.LeftContext r.left context ∧
    form = context ++ r.right.toList.take k

namespace ItemSet

variable {g : Grammar} {form context : List Symbol} {i : Item} {r : RuleId} {k : Nat}

/-- The items along a form are valid. -/
theorem valid_of_mem_along (fits : g.DotsFit) (hi : i ∈ along g form) : i.Valid g form := by
  obtain ⟨mem, context, e, above⟩ := leftContext_of_mem_along fits hi
  obtain ⟨le, _⟩ := exists_front_of_mem_along hi (fits.size_le mem above.occurs)
  exact ⟨mem, le, context, above, e⟩

/-- A rule is met with its dot at each place, after each of its left contexts. -/
theorem exists_mem_along (fits : g.DotsFit) (hr : r ∈ g.ruleIds) (hk : k ≤ (g.rule r).right.size)
    (above : g.LeftContext (g.rule r).left context) :
    ∃ i ∈ along g (context ++ (g.rule r).right.toList.take k), i.rule = r ∧ i.dot.toNat = k := by
  have entered := mem_along_of_leftContext fits above
    (Grammar.mem_rulesFor.2 ⟨Grammar.mem_ruleIds.1 hr, rfl⟩)
  exact mem_along_of_initial_mem entered (fits.size_le hr above.occurs) hk

theorem mem_along_of_valid (fits : g.DotsFit) (h : i.Valid g form) : i ∈ along g form := by
  obtain ⟨context, above, rfl⟩ := h.exists_context
  obtain ⟨j, hj, rule, dot⟩ := exists_mem_along fits h.rule h.dot_le above
  -- a rule and the position of the dot are all there is to an item
  obtain rfl : j = i := by
    cases i
    cases j
    simp_all [UInt16.toNat_inj]
  exact hj

theorem exists_valid_iff (fits : g.DotsFit) :
    (∃ i : Item, i.Valid g form) ↔ g.ViablePrefix form := by
  constructor
  · rintro ⟨i, hi⟩
    obtain ⟨context, above, e⟩ := hi.exists_context
    exact ⟨_, Grammar.mem_rules_iff.2 ⟨i.rule, hi.rule, rfl⟩, _, hi.dot_le, context, above, e⟩
  · rintro ⟨_, mem, k, hk, context, above, rfl⟩
    obtain ⟨r, hr, rfl⟩ := Grammar.mem_rules_iff.1 mem
    obtain ⟨i, hi, _⟩ := exists_mem_along fits hr hk above
    exact ⟨i, valid_of_mem_along fits hi⟩

theorem eq_empty_iff {s : ItemSet} : s = .empty ↔ ∀ i, i ∉ s := by
  constructor
  · rintro rfl i
    exact not_mem_empty
  · intro none
    apply ItemSet.ext
    intro i
    simp [none i]

/-- The items along a form are those that are valid for it; there is none if and only if the form is
no viable prefix. -/
theorem mem_along_iff (fits : ∀ r ∈ g.rules.toList, r.right.size ≤ 65535) (form : List Symbol) :
    (∀ i, i ∈ along g form ↔ i.Valid g form) ∧
    (along g form = .empty ↔ ¬ g.ViablePrefix form) := by
  have fits : g.DotsFit := fun r mem _ ↦ fits r mem
  have valid : ∀ i, i ∈ along g form ↔ i.Valid g form :=
    fun i ↦ ⟨valid_of_mem_along fits, mem_along_of_valid fits⟩
  refine ⟨valid, ?_⟩
  rw [eq_empty_iff, ← exists_valid_iff fits, not_exists]
  exact forall_congr' fun i ↦ not_congr (valid i)

/-- In the grammar of `S -> a S b` and `S -> ε`: after `a a S` the dot may stand before the `b`, and
nothing begins with `b`. -/
theorem mem_along_iff_nested :
    (∀ r ∈ Grammar.nested.rules.toList, r.right.size ≤ 65535) ∧
    ⟨⟨1⟩, 2⟩ ∈ along .nested [.terminal ⟨1⟩, .terminal ⟨1⟩, .nonterminal ⟨1⟩] ∧
    ¬ Grammar.nested.ViablePrefix [.terminal ⟨2⟩] := by
  have fits : ∀ r ∈ Grammar.nested.rules.toList, r.right.size ≤ 65535 := by decide
  have right : (Grammar.nested.rule ⟨1⟩).right.toList =
      [.terminal ⟨1⟩] ++ .nonterminal ⟨1⟩ :: [.terminal ⟨2⟩] := rfl
  have inner : Grammar.nested.LeftContext ⟨1⟩ [.terminal ⟨1⟩] :=
    .enter (Grammar.rule_mem_rules ⟨1⟩) .start right
  refine ⟨fits, ?_, ?_⟩
  · exact ((mem_along_iff fits _).1 _).2 ⟨by decide, by decide, _, inner, rfl⟩
  · exact (mem_along_iff fits _).2.1 (by decide +kernel)

end ItemSet

end SimpleLR

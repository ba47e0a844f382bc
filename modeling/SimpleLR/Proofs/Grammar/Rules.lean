import SimpleLR.Grammar.Basic

/-!
# What the rules of a grammar mention

Every rule but the augmenting one mentions declared symbols only, and the augmenting one mentions
the start symbol, which is declared.  So neither reserved symbol occurs on the right of a rule
(`declares_of_mem_right`), and the left side of a rule tells whether it is the augmenting one
(`left_eq_augmented_iff`).
-/

namespace SimpleLR

namespace Grammar

variable {g : Grammar} {r : RuleId} {n : Nonterminal} {s : Symbol}

/-- A number beyond the rules reads as the augmenting rule. -/
theorem rule_eq_augmenting_of_le (h : g.rules.size ≤ r.index) :
    g.rule r = .augmenting g.start := by
  simp [rule, h]

/-- The rules are what the numbers of rules read as. -/
theorem mem_rules_iff {x : Rule} :
    x ∈ g.rules.toList ↔ ∃ r ∈ g.ruleIds, g.rule r = x := by
  constructor
  · intro h
    obtain ⟨i, hi⟩ := Array.mem_iff_getElem?.1 (Array.mem_toList_iff.1 h)
    have lt : i < g.rules.size := (Array.getElem?_eq_some_iff.1 hi).1
    exact ⟨⟨i⟩, mem_ruleIds.2 lt, rule_of_getElem? hi⟩
  · rintro ⟨r, hr, rfl⟩
    have lt := mem_ruleIds.1 hr
    rw [rule, Array.getElem?_eq_getElem lt]
    exact Array.mem_toList_iff.2 (Array.getElem_mem lt)

theorem accept_mem_ruleIds : .accept ∈ g.ruleIds :=
  mem_ruleIds.2 (Array.getElem?_eq_some_iff.1 g.rules_zero).1

/-- Every rule but the first mentions declared symbols only. -/
theorem declaresRule_of_ne_accept (hr : r ∈ g.ruleIds) (ne : r ≠ .accept) :
    g.DeclaresRule (g.rule r) := by
  obtain ⟨i⟩ := r
  have lt : i < g.rules.size := mem_ruleIds.1 hr
  cases i with
  | zero => exact absurd rfl ne
  | succ i =>
    refine g.rules_declared _ (List.mem_of_getElem? (i := i) ?_)
    rw [List.getElem?_tail, Array.getElem?_toList, rule, Array.getElem?_eq_getElem lt]
    rfl

/-- A rule is the augmenting one or mentions declared symbols only. -/
theorem rule_eq_augmenting_or_declared (r : RuleId) :
    g.rule r = .augmenting g.start ∨ g.DeclaresRule (g.rule r) := by
  by_cases h : r = .accept
  · rw [h]
    exact .inl rule_accept
  · by_cases hr : r ∈ g.ruleIds
    · exact .inr (declaresRule_of_ne_accept hr h)
    · exact .inl (rule_eq_augmenting_of_le (Nat.le_of_not_lt fun lt ↦ hr (mem_ruleIds.2 lt)))

/-- A symbol on the right of a rule is declared. -/
theorem declares_of_mem_right (h : s ∈ (g.rule r).right.toList) : g.Declares s := by
  rcases rule_eq_augmenting_or_declared (g := g) r with e | declared
  · rw [e] at h
    obtain rfl : s = .nonterminal g.start := by simpa [Rule.augmenting] using h
    exact g.start_declared
  · exact declared.2 s h

theorem not_declares_augmented : ¬ g.Declares (.nonterminal .augmented) := by
  simp [Alphabet.Declares, Nonterminal.augmented]

theorem not_declares_endOfInput : ¬ g.Declares (.terminal .endOfInput) := by
  simp [Alphabet.Declares, Terminal.endOfInput]

/-- The left side of a rule is augmented when the rule is the augmenting one. -/
theorem left_eq_augmented_iff : (g.rule r).left = .augmented ↔ g.rule r = .augmenting g.start := by
  rcases rule_eq_augmenting_or_declared (g := g) r with e | declared
  · simp [e, Rule.augmenting]
  · constructor
    · intro h
      have := declared.1
      rw [h] at this
      exact absurd this not_declares_augmented
    · intro h
      rw [h]
      rfl

theorem left_accept : (g.rule .accept).left = .augmented := by
  rw [rule_accept]
  rfl

theorem ne_accept_of_left (h : (g.rule r).left ≠ .augmented) : r ≠ .accept := by
  rintro rfl
  exact h left_accept

theorem mem_ruleIds_of_left (h : (g.rule r).left ≠ .augmented) : r ∈ g.ruleIds := by
  refine mem_ruleIds.2 (Nat.lt_of_not_le fun le ↦ h ?_)
  exact left_eq_augmented_iff.2 (rule_eq_augmenting_of_le le)

/-- No number but the first names a rule of the augmented nonterminal. -/
theorem eq_accept_of_left (h : (g.rule r).left = .augmented) (hr : r ∈ g.ruleIds) :
    r = .accept := by
  apply Classical.byContradiction
  intro ne
  have declared := (declaresRule_of_ne_accept hr ne).1
  rw [h] at declared
  exact not_declares_augmented declared

/-- A nonterminal on the right of a rule has a number below the number of nonterminals. -/
theorem index_lt_of_mem_right (h : .nonterminal n ∈ (g.rule r).right.toList) :
    n.index < g.nonterminals.size := (declares_of_mem_right h).2

theorem index_augmented_lt : Nonterminal.augmented.index < g.nonterminals.size :=
  (Array.getElem?_eq_some_iff.1 g.nonterminals_zero).1

theorem index_left_lt (r : RuleId) : (g.rule r).left.index < g.nonterminals.size := by
  rcases rule_eq_augmenting_or_declared (g := g) r with e | declared
  · rw [e]
    exact index_augmented_lt
  · exact declared.1.2

end Grammar

end SimpleLR

import SimpleLR.Proofs.Grammar.Forms

/-!
# Rightmost rewriting

`expand` applies rules one after another, each to the last nonterminal of a form, and `replay` is
what it does to the start symbol.  Nothing changes when symbols stand before the form or terminals
after it (`expand_append_left`, `expand_append_terminals`), and whatever a form yields is reached in
this way (`Yields.expand`).  What replaying does is a rightmost derivation, and for the members of
the language there is one whatever the order in which they were derived
(`Derivation.replay_decides`).
-/

namespace SimpleLR

variable {r : Rule} {form form' : List Symbol}

/-- Rewriting the last nonterminal of a form leaves what stands before the form as it is. -/
theorem Rule.rewriteLast_append_left (h : r.rewriteLast form = some form') (front : List Symbol) :
    r.rewriteLast (front ++ form) = some (front ++ form') := by
  obtain ⟨before, w, rfl, rfl⟩ := rewriteLast_eq_some_iff.1 h
  exact rewriteLast_eq_some_iff.2 ⟨front ++ before, w, by simp, by simp⟩

/-- Rewriting the last nonterminal of a form leaves terminals after the form as they are. -/
theorem Rule.rewriteLast_append_terminals (h : r.rewriteLast form = some form')
    (u : List Terminal) :
    r.rewriteLast (form ++ u.map .terminal) = some (form' ++ u.map .terminal) := by
  obtain ⟨before, w, rfl, rfl⟩ := rewriteLast_eq_some_iff.1 h
  exact rewriteLast_eq_some_iff.2 ⟨before, w ++ u, by simp, by simp⟩

/-- A nonterminal with only terminals after it is rewritten. -/
theorem Rule.rewriteLast_of_eq {n : Nonterminal} (h : r.left = n) (before : List Symbol)
    (w : List Terminal) :
    r.rewriteLast (before ++ .nonterminal n :: w.map .terminal) =
      some (before ++ (r.right.toList ++ w.map .terminal)) :=
  rewriteLast_eq_some_iff.2 ⟨before, w, by rw [h], rfl⟩

namespace Grammar

/-- Applies rules in order, each to the last nonterminal of the form. -/
def expand (g : Grammar) (rules : List RuleId) (form : List Symbol) : Option (List Symbol) :=
  rules.foldlM (fun form r ↦ (g.rule r).rewriteLast form) form

variable {g : Grammar} {rules : List RuleId} {id : RuleId} {a b c : List Symbol}
  {w : List Terminal}

@[simp] theorem expand_nil : g.expand [] a = some a := rfl

theorem expand_cons :
    g.expand (id :: rules) a = ((g.rule id).rewriteLast a).bind (g.expand rules) := rfl

theorem expand_append (rules' : List RuleId) :
    g.expand (rules ++ rules') a = (g.expand rules a).bind (g.expand rules') := by
  induction rules generalizing a with
  | nil => rfl
  | cons id rules ih =>
    rw [List.cons_append, expand_cons, expand_cons, Option.bind_assoc]
    congr 1
    funext b
    exact ih

/-- The last of some rules is applied to what the others lead to. -/
theorem expand_concat_eq_some_iff :
    g.expand (rules ++ [id]) a = some c ↔
      ∃ b, g.expand rules a = some b ∧ (g.rule id).rewriteLast b = some c := by
  rw [expand_append, Option.bind_eq_some_iff]
  simp only [expand_cons, Option.bind_eq_some_iff, expand_nil, Option.some.injEq, exists_eq_right]

theorem expand_trans {rules' : List RuleId} (h : g.expand rules a = some b)
    (h' : g.expand rules' b = some c) : g.expand (rules ++ rules') a = some c := by
  rw [expand_append, h]
  exact h'

theorem expand_append_left (h : g.expand rules a = some b) (front : List Symbol) :
    g.expand rules (front ++ a) = some (front ++ b) := by
  induction rules generalizing a with
  | nil =>
    cases h
    rfl
  | cons id rules ih =>
    rw [expand_cons, Option.bind_eq_some_iff] at h ⊢
    obtain ⟨form, step, h⟩ := h
    exact ⟨front ++ form, Rule.rewriteLast_append_left step front, ih h⟩

theorem expand_append_terminals (h : g.expand rules a = some b) (u : List Terminal) :
    g.expand rules (a ++ u.map .terminal) = some (b ++ u.map .terminal) := by
  induction rules generalizing a with
  | nil =>
    cases h
    rfl
  | cons id rules ih =>
    rw [expand_cons, Option.bind_eq_some_iff] at h ⊢
    obtain ⟨form, step, h⟩ := h
    exact ⟨form ++ u.map .terminal, Rule.rewriteLast_append_terminals step u, ih h⟩

/-- Expanding a form leads to forms that it derives. -/
theorem derives_of_expand (h : g.expand rules a = some b) : g.Derives a b := by
  induction rules generalizing a with
  | nil =>
    cases h
    exact .refl _
  | cons id rules ih =>
    rw [expand_cons, Option.bind_eq_some_iff] at h
    obtain ⟨form, step, h⟩ := h
    have first := Rule.rewrites_of_rewriteLast (rule_mem_rules id) step
    exact first.derives.trans (ih h)

/-- What a form yields is reached by rewriting its last nonterminal again and again. -/
theorem Yields.expand (h : g.Yields a w) : ∃ rules, g.expand rules a = some (w.map .terminal) := by
  induction h with
  | nil => exact ⟨[], rfl⟩
  | terminal t _ ih =>
    obtain ⟨rules, h⟩ := ih
    exact ⟨rules, expand_append_left h [.terminal t]⟩
  | @nonterminal r mem form v w _ _ ihRight ihRest =>
    obtain ⟨id, _, rfl⟩ := mem_rules_iff.1 mem
    obtain ⟨rulesRight, hRight⟩ := ihRight
    obtain ⟨rulesRest, hRest⟩ := ihRest
    -- the rest of the form comes first, then the rule, then its right side
    refine ⟨rulesRest ++ ([id] ++ rulesRight), ?_⟩
    refine expand_trans (expand_append_left hRest [.nonterminal (g.rule id).left]) ?_
    refine expand_trans (b := (g.rule id).right.toList ++ w.map .terminal) ?_ ?_
    · rw [expand_cons]
      exact Option.bind_eq_some_iff.2 ⟨_, Rule.rewriteLast_of_eq rfl [] w, rfl⟩
    · rw [List.map_append]
      exact expand_append_terminals hRight w

/-- A member of the language is reached by replaying some rules. -/
theorem Generates.exists_replay (h : g.Generates w) :
    ∃ d : Derivation, d.replay g = some (w.map .terminal) := by
  obtain ⟨rules, h⟩ := h.yields.expand
  refine ⟨⟨rules.reverse⟩, ?_⟩
  rw [Derivation.replay, Derivation.rightmost, List.reverse_reverse]
  exact h

/-! ## Rightmost derivations -/

/-- A form leads to another when rules of the grammar are applied one after another, each to a
nonterminal with only terminals to its right. -/
inductive RightmostDerives (g : Grammar) : List RuleId → List Symbol → List Symbol → Prop
  | refl (form : List Symbol) : RightmostDerives g [] form form
  | step {id : RuleId} (mem : id ∈ g.ruleIds) (before : List Symbol) (w : List Terminal)
    {rules : List RuleId} {form : List Symbol}
    (later : RightmostDerives g rules (before ++ ((g.rule id).right.toList ++ w.map .terminal))
      form) :
    RightmostDerives g (id :: rules) (before ++ .nonterminal (g.rule id).left :: w.map .terminal)
      form

theorem RightmostDerives.mem_ruleIds (h : g.RightmostDerives rules a b) :
    ∀ id ∈ rules, id ∈ g.ruleIds := by
  induction h with
  | refl => simp
  | step mem _ _ _ ih => exact List.forall_mem_cons.2 ⟨mem, ih⟩

theorem RightmostDerives.expand (h : g.RightmostDerives rules a b) : g.expand rules a = some b := by
  induction h with
  | refl => rfl
  | step _ before w _ ih =>
    rw [expand_cons, Rule.rewriteLast_of_eq rfl before w]
    exact ih

/-- The symbols stay declared when the last nonterminal is rewritten. -/
theorem declaresAll_of_rewriteLast (ha : g.DeclaresAll a)
    (h : (g.rule id).rewriteLast a = some b) : g.DeclaresAll b := by
  obtain ⟨before, w, rfl, rfl⟩ := Rule.rewriteLast_eq_some_iff.1 h
  intro s hs
  simp only [List.mem_append] at hs
  rcases hs with hs | hs | hs
  · exact ha s (List.mem_append_left _ hs)
  · exact declares_of_mem_right hs
  · exact ha s (List.mem_append_right _ (List.mem_cons_of_mem _ hs))

/-- Among declared symbols, expanding is the same as deriving: a number beyond the rules reads as
the augmenting rule, whose left side is not declared. -/
theorem expand_eq_some_iff (ha : g.DeclaresAll a) :
    g.expand rules a = some b ↔ g.RightmostDerives rules a b := by
  refine ⟨fun h ↦ ?_, RightmostDerives.expand⟩
  induction rules generalizing a with
  | nil =>
    cases h
    exact .refl b
  | cons id rules ih =>
    rw [expand_cons, Option.bind_eq_some_iff] at h
    obtain ⟨form, first, h⟩ := h
    have later := ih (declaresAll_of_rewriteLast ha first) h
    obtain ⟨before, w, rfl, rfl⟩ := Rule.rewriteLast_eq_some_iff.1 first
    have left : g.Declares (.nonterminal (g.rule id).left) :=
      ha _ (List.mem_append_right _ List.mem_cons_self)
    refine .step (mem_ruleIds_of_left fun e ↦ ?_) before w later
    rw [e] at left
    exact not_declares_augmented left

end Grammar

namespace Derivation

variable {g : Grammar} {d : Derivation} {form : List Symbol}

theorem replay_eq_some_iff :
    d.replay g = some form ↔
      g.RightmostDerives d.reductions.reverse [.nonterminal g.start] form := by
  refine Grammar.expand_eq_some_iff fun s hs ↦ ?_
  rw [List.mem_singleton.1 hs]
  exact g.start_declared

/-- Some rules are replayed to a terminal sequence exactly when rewriting anywhere and in any order
derives it from the start symbol; and replaying rules gives a form exactly when they, in reverse
order, are a rightmost derivation of it. -/
theorem replay_decides (g : Grammar) :
    (∀ w : List Terminal,
      (∃ d : Derivation, (∀ id ∈ d.reductions, id ∈ g.ruleIds) ∧
        d.replay g = some (w.map .terminal)) ↔ g.Generates w) ∧
    ∀ (d : Derivation) (form : List Symbol), d.replay g = some form ↔
      g.RightmostDerives d.reductions.reverse [.nonterminal g.start] form := by
  refine ⟨fun w ↦ ⟨?_, fun member ↦ ?_⟩, fun d form ↦ replay_eq_some_iff⟩
  · rintro ⟨d, _, h⟩
    exact derives_of_replay h
  · obtain ⟨d, h⟩ := member.exists_replay
    have known := (replay_eq_some_iff.1 h).mem_ruleIds
    exact ⟨d, fun id hid ↦ known id (List.mem_reverse.2 hid), h⟩

end Derivation

end SimpleLR

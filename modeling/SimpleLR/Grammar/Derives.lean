import SimpleLR.Grammar.Derivation

/-!
# Derivability

A form is a sequence of symbols. It is rewritten by replacing one of its nonterminals, anywhere,
by the right side of one of its rules, and it derives what repeated rewriting leads to. The
language of a grammar consists of the terminal sequences derived from the start symbol. Replaying
a list of rules gives only forms that are derived from it (`Derivation.derives_of_replay`).
-/

namespace SimpleLR

namespace Grammar

/-- One nonterminal of a form is rewritten by a rule. -/
inductive Rewrites (g : Grammar) : List Symbol → List Symbol → Prop
  | rule {r : Rule} (mem : r ∈ g.rules.toList) (before after : List Symbol) :
    Rewrites g (before ++ .nonterminal r.left :: after) (before ++ (r.right.toList ++ after))

/-- A form is rewritten any number of times. -/
inductive Derives (g : Grammar) : List Symbol → List Symbol → Prop
  | refl (form : List Symbol) : Derives g form form
  | tail {a b c : List Symbol} (front : Derives g a b) (last : Rewrites g b c) : Derives g a c

/-- A terminal sequence belongs to the language of the grammar. -/
def Generates (g : Grammar) (w : List Terminal) : Prop :=
  g.Derives [.nonterminal g.start] (w.map .terminal)

variable {g : Grammar} {a b c : List Symbol}

theorem Rewrites.append_left (h : g.Rewrites a b) (l : List Symbol) :
    g.Rewrites (l ++ a) (l ++ b) := by
  obtain ⟨mem, before, after⟩ := h
  simpa using Rewrites.rule mem (l ++ before) after

theorem Rewrites.append_right (h : g.Rewrites a b) (l : List Symbol) :
    g.Rewrites (a ++ l) (b ++ l) := by
  obtain ⟨mem, before, after⟩ := h
  simpa using Rewrites.rule mem before (after ++ l)

theorem Rewrites.derives (h : g.Rewrites a b) : g.Derives a b := .tail (.refl a) h

theorem Derives.trans (h : g.Derives a b) (h' : g.Derives b c) : g.Derives a c := by
  induction h' with
  | refl => exact h
  | tail _ last ih => exact .tail ih last

theorem Derives.append_left (h : g.Derives a b) (l : List Symbol) :
    g.Derives (l ++ a) (l ++ b) := by
  induction h with
  | refl => exact .refl _
  | tail _ last ih => exact .tail ih (last.append_left l)

theorem Derives.append_right (h : g.Derives a b) (l : List Symbol) :
    g.Derives (a ++ l) (b ++ l) := by
  induction h with
  | refl => exact .refl _
  | tail _ last ih => exact .tail ih (last.append_right l)

theorem rule_mem_rules (r : RuleId) : g.rule r ∈ g.rules.toList := by
  unfold rule
  cases h : g.rules[r.index]? with
  | some x => exact Array.mem_toList_iff.2 (Array.mem_of_getElem? h)
  | none => exact Array.mem_toList_iff.2 (Array.mem_of_getElem? g.rules_zero)

end Grammar

theorem Rule.rewriteReversed_eq_some_iff {r : Rule} {form form' : List Symbol} :
    r.rewriteReversed form = some form' ↔
      ∃ (w : List Terminal) (rest : List Symbol),
        form = w.map .terminal ++ .nonterminal r.left :: rest ∧
          form' = w.map .terminal ++ (r.right.toList.reverse ++ rest) := by
  induction form generalizing form' with
  | nil => simp [rewriteReversed]
  | cons s form ih =>
    cases s with
    | terminal t =>
      simp only [rewriteReversed, Option.map_eq_some_iff, ih]
      constructor
      · rintro ⟨_, ⟨w, rest, rfl, rfl⟩, rfl⟩
        exact ⟨t :: w, rest, rfl, rfl⟩
      · rintro ⟨w, rest, h, rfl⟩
        cases w with
        | nil => simp at h
        | cons u w =>
          simp only [List.map_cons, List.cons_append, List.cons.injEq, Symbol.terminal.injEq] at h
          obtain ⟨rfl, rfl⟩ := h
          exact ⟨_, ⟨w, rest, rfl, rfl⟩, rfl⟩
    | nonterminal n =>
      simp only [rewriteReversed]
      constructor
      · intro h
        split at h
        · next e =>
          cases h
          exact ⟨[], form, by rw [e]; rfl, rfl⟩
        · exact absurd h (by simp)
      · rintro ⟨w, rest, h, rfl⟩
        cases w with
        | nil =>
          simp only [List.map_nil, List.nil_append, List.cons.injEq,
            Symbol.nonterminal.injEq] at h
          obtain ⟨rfl, rfl⟩ := h
          simp
        | cons u w => simp at h

/-- A rule rewrites the last nonterminal of a form if that is its left side. -/
theorem Rule.rewriteLast_eq_some_iff {r : Rule} {form form' : List Symbol} :
    r.rewriteLast form = some form' ↔
      ∃ (before : List Symbol) (w : List Terminal),
        form = before ++ .nonterminal r.left :: w.map .terminal ∧
          form' = before ++ (r.right.toList ++ w.map .terminal) := by
  simp only [rewriteLast, Option.map_eq_some_iff, rewriteReversed_eq_some_iff]
  constructor
  · rintro ⟨_, ⟨w, rest, h, rfl⟩, rfl⟩
    refine ⟨rest.reverse, w.reverse, ?_, ?_⟩
    · rw [← List.reverse_reverse form, h]; simp
    · simp
  · rintro ⟨before, w, rfl, rfl⟩
    exact ⟨_, ⟨w.reverse, before.reverse, by simp, rfl⟩, by simp⟩

theorem Rule.rewrites_of_rewriteLast {g : Grammar} {r : Rule} {form form' : List Symbol}
    (mem : r ∈ g.rules.toList) (h : r.rewriteLast form = some form') : g.Rewrites form form' := by
  obtain ⟨before, w, rfl, rfl⟩ := rewriteLast_eq_some_iff.1 h
  exact .rule mem before _

/-- Replaying leads to a form that the start symbol derives. -/
theorem Derivation.derives_of_replay {d : Derivation} {g : Grammar} {form : List Symbol}
    (h : d.replay g = some form) : g.Derives [.nonterminal g.start] form := by
  have all : ∀ (rules : List RuleId) (a : List Symbol),
      rules.foldlM (fun form r => (g.rule r).rewriteLast form) a = some form →
        g.Derives a form := by
    intro rules
    induction rules with
    | nil =>
      intro a h
      cases h
      exact .refl _
    | cons r rules ih =>
      intro a h
      obtain ⟨b, hb, h⟩ := Option.bind_eq_some_iff.1 h
      exact (Rule.rewrites_of_rewriteLast (Grammar.rule_mem_rules r) hb).derives.trans (ih b h)
  exact all _ _ h

end SimpleLR

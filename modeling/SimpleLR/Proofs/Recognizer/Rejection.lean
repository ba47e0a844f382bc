import SimpleLR.Proofs.Parser.Call
import SimpleLR.Proofs.Recognizer.Completeness

/-!
# Where recognition stops

A rejection names the number of tokens that were shifted. They are the beginning of something that
the start symbol derives, for the form on the stack is viable and derives them. With the token at
which the parser stops they begin no member of the language: the parser looks at no token after it
(`Parser.collect_append_of_rejected`), so it would stop there on every continuation, but members are
recognized.
-/

namespace SimpleLR

namespace Grammar

variable {g : Grammar} {form front : List Symbol} {n : Nonterminal} {r : Rule}

/-- A rule can be applied after the left contexts of its left side. -/
theorem LeftContext.exists_derives (h : g.LeftContext n front) (mem : r ∈ g.rules.toList)
    (left : r.left = n) :
    ∃ rest, g.Derives [.nonterminal g.start] (front ++ (r.right.toList ++ rest)) := by
  induction h generalizing r with
  | augmented =>
    obtain ⟨id, _, rfl⟩ := mem_rules_iff.1 mem
    rw [left_eq_augmented_iff.1 left]
    exact ⟨[], .refl _⟩
  | @enter above mem' context before after n _ e ih =>
    obtain ⟨rest, derives⟩ := ih mem' rfl
    subst left
    rw [e] at derives
    refine ⟨after ++ rest, ?_⟩
    have step := Rewrites.rule mem (context ++ before) (after ++ rest)
    simp only [List.append_assoc, List.cons_append] at derives step ⊢
    exact .tail derives step

/-- A viable form begins something that the start symbol derives. -/
theorem Viable.exists_derives (fits : g.DotsFit) (h : g.Viable form) :
    ∃ rest, g.Derives [.nonterminal g.start] (form ++ rest) := by
  obtain ⟨i, hi⟩ := h
  obtain ⟨mem, front, rfl, context⟩ := ItemSet.leftContext_of_mem_along fits hi
  obtain ⟨rest, derives⟩ := context.exists_derives (mem_rules_iff.2 ⟨i.rule, mem, rfl⟩) rfl
  refine ⟨(g.rule i.rule).right.toList.drop i.dot.toNat ++ rest, ?_⟩
  rw [List.append_assoc, ← List.append_assoc (List.take ..), List.take_append_drop]
  exact derives

theorem viable_nil (g : Grammar) : g.Viable [] := ⟨_, ItemSet.initial_accept_mem_along_nil⟩

end Grammar

namespace Automaton

variable {a : Automaton} {ε : Type} {p q : Parser StateId Terminal Nonterminal} {position n : Nat}
  {form : List Symbol} {u w : List Terminal} {done : List RuleId} {events : Nat}
  {pending source rest c s : List (Except ε Terminal)}
  {turn : Turn StateId Terminal Nonterminal RuleId ε}

/-! ## What has been read -/

/-- A call that rejects has shifted some tokens, with which the form stays viable. -/
theorem Turns.of_reject (h : a.Turns position form pending turn) (viable : a.grammar.Viable form)
    (result : turn.result = .error (.rejected n)) :
    ∃ (v : List Terminal) (pending' : List (Except ε Terminal)), n = position + v.length ∧
      pending = v.map .ok ++ pending' ∧ a.grammar.Viable (form ++ v.map .terminal) := by
  induction h with
  | @shift _ _ t _ _ next _ ih =>
    obtain ⟨v, pending', rfl, rfl, viable'⟩ := ih next result
    refine ⟨t :: v, pending', Nat.succ_add_eq_add_succ .., rfl, ?_⟩
    simpa using viable'
  | lexer result' => cases result.symm.trans result'
  | ends _ _ ends =>
    rw [result] at ends
    cases ends with
    | reject => exact ⟨[], _, rfl, rfl, by simpa using viable⟩

/-- A run that rejects: the tokens that it has shifted are derived from a viable form. -/
theorem exists_viable_of_rejected (ha : a.Tabulates) (hs : a.Spells p.stack form)
    (reading : p.accepted = false) (viable : a.grammar.Viable form)
    (derives : a.grammar.Derives form (u.map .terminal)) (position : p.position = u.length)
    (run : p.collect a.table events source done = some (.error (.rejected n), q, rest)) :
    ∃ (v : List Terminal) (pending' : List (Except ε Terminal)) (form' : List Symbol),
      p.pending source = v.map .ok ++ pending' ∧ n = (u ++ v).length ∧ a.grammar.Viable form' ∧
        a.grammar.Derives form' ((u ++ v).map .terminal) := by
  induction events generalizing p form source done u with
  | zero => cases run
  | succ events ih =>
    have turns := next_turns ha hs reading source
    rcases Parser.collect_cases run with ⟨e, result, same⟩ | ⟨_, same⟩ | ⟨r, result, run⟩
    · cases same
      obtain ⟨v, pending', place, read, viable'⟩ := turns.of_reject viable result
      refine ⟨v, pending', _, read, ?_, viable', ?_⟩
      · rw [place, position, List.length_append]
      · rw [List.map_append]
        exact derives.append_right _
    · cases same
    · obtain ⟨v, form', read, step, spells, reading'⟩ := turns.of_reduce result
      have shifted : (p.next a.table source).parser.position = (u ++ v).length := by
        have count := Parser.position_add_pending (by rw [result]; simp)
        rw [read, List.length_append, List.length_map] at count
        rw [List.length_append]
        omega
      have step' := Rule.rewrites_of_rewriteLast (Grammar.rule_mem_rules r) step.rewriteLast
      have derives' : a.grammar.Derives form' ((u ++ v).map .terminal) := by
        rw [List.map_append]
        exact step'.derives.trans (derives.append_right _)
      obtain ⟨v', pending', form'', read', place, last⟩ :=
        ih spells reading' step.viable.2 derives' shifted run
      refine ⟨v ++ v', pending', form'', ?_, ?_, ?_⟩
      · rw [read, read', List.map_append, List.append_assoc]
      · rw [place, List.append_assoc]
      · rwa [List.append_assoc] at last

/-! ## What cannot follow -/

/-- A rejection does not depend on what comes after the token at which it happens. -/
theorem parse_append_of_rejected
    (run : a.parse events (c ++ s) = some (.error (.rejected n))) (lt : n < c.length)
    (s' : List (Except ε Terminal)) :
    a.parse events (c ++ s') = some (.error (.rejected n)) := by
  obtain ⟨q, rest, collects⟩ := parse_eq_error_iff.1 run
  obtain ⟨rest', collects'⟩ := Parser.collect_append_of_rejected collects
    (by rwa [Parser.pending_of_unread rfl, Parser.start, Nat.zero_add]) s'
  exact parse_eq_error_iff.2 ⟨q, rest', collects'⟩

theorem parse_mono {events' : Nat} {result : Except (ParseError ε) Derivation}
    (run : a.parse events source = some result) (le : events ≤ events') :
    a.parse events' source = some result := by
  obtain ⟨collected, q, rest, collects, e⟩ := parse_eq_some_iff.1 run
  exact parse_eq_some_iff.2 ⟨collected, q, rest, Parser.collect_mono collects le, e⟩

/-- What is refused does not belong to the language. -/
theorem not_generates_of_error (ha : a.Tabulates) (fits : a.grammar.DotsFit) {e : ParseError ε}
    (run : a.parse events (w.map .ok) = some (.error e)) : ¬ a.grammar.Generates w := by
  intro member
  obtain ⟨d, hd⟩ := member.exists_replay
  have enough : d.reductions.length < events + d.reductions.length + 1 := by omega
  have found := parse_of_parses (ε := ε) ha fits (parses_of_replay hd) enough
  rw [parse_mono run (by omega)] at found
  cases found

/-- A rejection is exact: the tokens before its place begin something that the start symbol
derives, but with the next token they begin no member of the language, and if there is none they
are no member. -/
theorem parse_rejected {g : Grammar} (h : build g = .ok a)
    (fits : ∀ r ∈ g.rules.toList, r.right.size ≤ 65535)
    (run : a.parse (ε := ε) events (w.map .ok) = some (.error (.rejected n))) :
    n ≤ w.length ∧
    (∃ rest, g.Derives [.nonterminal g.start] ((w.take n).map .terminal ++ rest)) ∧
    (n < w.length → ∀ v, ¬ g.Generates (w.take (n + 1) ++ v)) ∧
    (n = w.length → ¬ g.Generates w) := by
  obtain ⟨rfl, ha⟩ := tabulates_of_build h
  have fits : a.grammar.DotsFit := fun r mem _ ↦ fits r mem
  obtain ⟨q, rest, collects⟩ := parse_eq_error_iff.1 run
  obtain ⟨v, pending', form, read, rfl, viable, derives⟩ := exists_viable_of_rejected (u := []) ha
    .bottom rfl (Grammar.viable_nil _) (.refl _) rfl collects
  obtain ⟨v', w', rfl, same, _⟩ := List.map_eq_append_iff.1 read
  obtain rfl := (List.map_inj_right fun _ _ ↦ Except.ok.inj).1 same
  refine ⟨by simp, ?_, fun lt x member ↦ ?_, fun _ ↦ not_generates_of_error ha fits run⟩
  · obtain ⟨rest, whole⟩ := viable.exists_derives fits
    refine ⟨rest, ?_⟩
    rw [List.nil_append, List.take_left]
    exact whole.trans (derives.append_right rest)
  · rw [← List.take_append_drop (([] ++ v').length + 1) (v' ++ w'), List.map_append] at run
    have run' := parse_append_of_rejected run (by rw [List.length_map, List.length_take]; omega)
      (x.map .ok)
    rw [← List.map_append] at run'
    exact not_generates_of_error ha fits run' member

/-- `a b b` is rejected at its last token, which no member has there, and `a` at its end. -/
theorem parse_rejected_nested :
    (∀ r ∈ Grammar.nested.rules.toList, r.right.size ≤ 65535) ∧ ∃ a, build .nested = .ok a ∧
      a.parse (ε := Empty) 3 ([⟨1⟩, ⟨2⟩, ⟨2⟩].map .ok) = some (.error (.rejected 2)) ∧
      (∀ v, ¬ Grammar.nested.Generates ([⟨1⟩, ⟨2⟩, ⟨2⟩] ++ v)) ∧
      a.parse (ε := Empty) 2 ([⟨1⟩].map .ok) = some (.error (.rejected 1)) ∧
      (∃ rest, Grammar.nested.Derives [.nonterminal ⟨1⟩] ([.terminal ⟨1⟩] ++ rest)) ∧
      ¬ Grammar.nested.Generates [⟨1⟩] := by
  obtain ⟨a, h⟩ := exists_build_nested
  have fits : ∀ r ∈ Grammar.nested.rules.toList, r.right.size ≤ 65535 := by decide
  have inside : a.parse (ε := Empty) 3 ([⟨1⟩, ⟨2⟩, ⟨2⟩].map .ok) = some (.error (.rejected 2)) :=
    eq_of_build (f := fun a ↦ a.parse (ε := Empty) 3 ([⟨1⟩, ⟨2⟩, ⟨2⟩].map .ok)) h
      (by decide +kernel)
  have atEnd : a.parse (ε := Empty) 2 ([⟨1⟩].map .ok) = some (.error (.rejected 1)) :=
    eq_of_build (f := fun a ↦ a.parse (ε := Empty) 2 ([⟨1⟩].map .ok)) h (by decide +kernel)
  obtain ⟨_, _, never, _⟩ := parse_rejected h fits inside
  obtain ⟨_, begins, _, no⟩ := parse_rejected h fits atEnd
  exact ⟨fits, a, h, inside, never (by decide), atEnd, begins, no rfl⟩

end Automaton

end SimpleLR

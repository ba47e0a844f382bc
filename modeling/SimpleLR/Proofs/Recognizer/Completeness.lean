import SimpleLR.Proofs.Recognizer.Soundness

/-!
# Completeness of recognition

A parser over a built automaton can do nothing but follow a parse of what it is given: each step of
a parse is claimed by the items along the form, and only one action is claimed for a cell. So every
rightmost derivation is found, and there is no other for the same tokens.
-/

namespace SimpleLR

namespace Automaton

variable {a : Automaton} {ε : Type} {p : Parser StateId Terminal Nonterminal} {position : Nat}
  {form : List Symbol} {w : List Terminal} {rules : List RuleId} {act : Action}
  {turn : Turn StateId Terminal Nonterminal RuleId ε}

/-- A call does what is claimed for its lookahead. -/
theorem Turns.of_claim (ha : a.Tabulates) (viable : a.grammar.Viable form)
    (h : a.Turns position form (w.map .ok) turn)
    (claim : a.Claims (.along a.grammar form) (.terminal (w.headD .endOfInput)) act) :
    (∃ t v target, w = t :: v ∧ act = .shift target ∧
      a.Turns (position + 1) (form ++ [.terminal t]) (v.map .ok) turn) ∨
    (∃ r form', act = .reduce r ∧ turn.result = .ok (.reduce r) ∧
      a.grammar.Reduction (w.headD .endOfInput) r form form' ∧
      a.Spells turn.parser.stack form' ∧ turn.parser.accepted = false ∧
      turn.parser.pending turn.rest = w.map .ok) ∨
    (act = .accept ∧ (w = [] → turn.result = .ok .accept)) := by
  generalize e : w.map Except.ok = pending at h
  cases h with
  | @shift _ _ t pending _ next rest =>
    obtain ⟨v, w', rfl, hv, rfl⟩ := List.map_eq_cons_iff.1 e
    cases hv
    obtain ⟨target, claim'⟩ := ha.claims_of_viable next
    exact .inl ⟨_, _, target, rfl, ha.claims_unique viable claim claim', rest⟩
  | lexer =>
    obtain ⟨v, w', _, hv, _⟩ := List.map_eq_cons_iff.1 e
    cases hv
  | @ends _ _ _ _ ahead known rest ends =>
    have ahead_eq : w.headD .endOfInput = ahead.getD .endOfInput := by
      have look := lookahead_of_known known turn.rest
      rw [rest, ← e] at look
      rw [← look]
      cases w <;> rfl
    have ahead_none : w = [] → ahead = none := by
      rintro rfl
      cases ahead with
      | none => rfl
      | some t =>
        rw [Parser.pending, known, ← e] at rest
        cases rest
    rw [ahead_eq] at claim ⊢
    refine .inr ?_
    generalize turn.result = result, turn.parser = q at ends rest ⊢
    cases ends with
    | reduce step spells reading =>
      refine .inl ⟨_, _, ?_, rfl, step, spells, reading, rest⟩
      exact ha.claims_unique viable claim (claims_of_reduction step)
    | accept e' =>
      subst e'
      exact .inr ⟨ha.claims_unique viable claim (claims_accept a), fun _ ↦ rfl⟩
    | reject no =>
      obtain ⟨rfl, ne⟩ := no act claim
      exact .inr ⟨rfl, fun empty ↦ absurd (ahead_none empty) ne⟩

/-- A call follows a parse up to its next reduction, or accepts when none is left. -/
theorem Turns.of_parses (ha : a.Tabulates) (fits : a.grammar.DotsFit)
    (h : a.grammar.Parses form w rules) (turns : a.Turns position form (w.map .ok) turn) :
    (rules = [] ∧ turn.result = .ok .accept) ∨
    ∃ r rules' form' v, rules = r :: rules' ∧ turn.result = .ok (.reduce r) ∧
      a.grammar.Parses form' v rules' ∧ a.Spells turn.parser.stack form' ∧
      turn.parser.accepted = false ∧ turn.parser.pending turn.rest = v.map .ok := by
  induction h generalizing position with
  | start =>
    rcases turns.of_claim ha (Grammar.Parses.start.viable fits) (claims_accept a) with
      ⟨_, _, _, e, _⟩ | ⟨_, _, e, _⟩ | ⟨_, result⟩
    · cases e
    · cases e
    · exact .inl ⟨rfl, result rfl⟩
  | shift rest ih =>
    obtain ⟨target, claim⟩ := ha.claims_of_viable (rest.viable fits)
    rcases turns.of_claim ha (rest.shift.viable fits) claim with
      ⟨_, _, _, e, _, turns'⟩ | ⟨_, _, e, _⟩ | ⟨e, _⟩
    · cases e
      exact ih turns'
    · cases e
    · cases e
  | @reduce front w rules r rest _ =>
    have step := rest.reduction fits
    rcases turns.of_claim ha step.viable.1 (claims_of_reduction step) with
      ⟨_, _, _, _, e, _⟩ | ⟨r', form', e, result, step', spells, reading, pending⟩ | ⟨e, _⟩
    · cases e
    · obtain rfl : r = r' := Action.reduce.inj e
      obtain rfl := step.unique step'
      exact .inr ⟨r, rules, _, w, rfl, result, rest, spells, reading, pending⟩
    · cases e

/-- A parser over a built automaton follows a parse to its end. -/
theorem collect_of_parses (ha : a.Tabulates) (fits : a.grammar.DotsFit)
    (h : a.grammar.Parses form w rules) (source : List (Except ε Terminal)) (done : List RuleId)
    (hs : a.Spells p.stack form) (reading : p.accepted = false)
    (pending : p.pending source = w.map .ok) :
    ∃ q rest, p.collect a.table (rules.length + 1) source done =
      some (.ok (done.reverse ++ rules), q, rest) := by
  induction rules generalizing form w p source done with
  | nil =>
    have turns := next_turns ha hs reading source
    rw [pending] at turns
    rcases turns.of_parses ha fits h with ⟨_, result⟩ | ⟨_, _, _, _, e, _⟩
    · exact ⟨_, _, by rw [Parser.collect_of_accept result, List.append_nil]⟩
    · cases e
  | cons r rules ih =>
    have turns := next_turns ha hs reading source
    rw [pending] at turns
    rcases turns.of_parses ha fits h with
      ⟨e, _⟩ | ⟨_, _, form', v, e, result, parses, spells, reading', pending'⟩
    · cases e
    · cases e
      obtain ⟨q, rest, run⟩ := ih parses _ (r :: done) spells reading' pending'
      refine ⟨q, rest, ?_⟩
      rw [List.length_cons, Parser.collect_of_reduce result, run]
      simp

/-- Recognition returns the rules of a parse of its tokens. -/
theorem parse_of_parses (ha : a.Tabulates) (fits : a.grammar.DotsFit)
    (h : a.grammar.Parses [] w rules) {events : Nat} (enough : rules.length < events) :
    a.parse (ε := ε) events (w.map .ok) = some (.ok ⟨rules⟩) := by
  obtain ⟨q, rest, run⟩ :=
    collect_of_parses (p := .start a.table) ha fits h (w.map .ok) [] .bottom rfl rfl
  exact parse_eq_some_iff.2 ⟨_, q, rest, Parser.collect_mono run enough, rfl⟩

/-- The rules of a derivation are those of a parse. -/
theorem parses_of_replay {g : Grammar} {d : Derivation} (h : d.replay g = some (w.map .terminal)) :
    g.Parses [] w d.reductions := by
  have parses : g.Parses [] w d.rightmost.reverse := .of_expand h (.inl rfl)
  rwa [Derivation.rightmost, List.reverse_reverse] at parses

/-- Completeness of recognition: every derivation of some tokens is found, in as many events as it
has rules and one more. So every member of the language is accepted, and it has one rightmost
derivation only. -/
theorem parse_complete {g : Grammar} (h : build g = .ok a)
    (fits : ∀ r ∈ g.rules.toList, r.right.size ≤ 65535) :
    (∀ (d : Derivation) (w : List Terminal), d.replay g = some (w.map .terminal) →
      ∀ events, d.reductions.length < events →
        a.parse (ε := ε) events (w.map .ok) = some (.ok d)) ∧
    (∀ w, g.Generates w → ∃ d : Derivation, d.replay g = some (w.map .terminal) ∧
      ∀ events, d.reductions.length < events →
        a.parse (ε := ε) events (w.map .ok) = some (.ok d)) ∧
    ∀ (d d' : Derivation) (w : List Terminal), d.replay g = some (w.map .terminal) →
      d'.replay g = some (w.map .terminal) → d = d' := by
  obtain ⟨rfl, ha⟩ := tabulates_of_build h
  have fits : a.grammar.DotsFit := fun r mem _ ↦ fits r mem
  have found : ∀ (d : Derivation) (w : List Terminal),
      d.replay a.grammar = some (w.map .terminal) → ∀ events, d.reductions.length < events →
        a.parse (ε := ε) events (w.map .ok) = some (.ok d) :=
    fun d w hd events enough ↦ parse_of_parses ha fits (parses_of_replay hd) enough
  refine ⟨found, fun w hw ↦ ?_, fun d d' w hd hd' ↦ ?_⟩
  · obtain ⟨d, hd⟩ := hw.exists_replay
    exact ⟨d, hd, found d w hd⟩
  · -- both are what the same recognition returns
    have run := found d w hd (d.reductions.length + d'.reductions.length + 1) (by omega)
    rw [found d' w hd' _ (by omega)] at run
    exact (Except.ok.inj (Option.some.inj run)).symm

/-- The derivation of `a b` is found. -/
theorem parse_complete_nested :
    ∃ a, build .nested = .ok a ∧ (∀ r ∈ Grammar.nested.rules.toList, r.right.size ≤ 65535) ∧
      ∀ events, 2 < events →
        a.parse (ε := Empty) events ([⟨1⟩, ⟨2⟩].map .ok) = some (.ok ⟨[⟨2⟩, ⟨1⟩]⟩) := by
  obtain ⟨a, h⟩ := exists_build_nested
  have fits : ∀ r ∈ Grammar.nested.rules.toList, r.right.size ≤ 65535 := by decide
  exact ⟨a, h, fits, (parse_complete h fits).1 ⟨[⟨2⟩, ⟨1⟩]⟩ [⟨1⟩, ⟨2⟩] rfl⟩

end Automaton

end SimpleLR

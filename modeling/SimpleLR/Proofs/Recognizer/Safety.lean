import SimpleLR.Proofs.Command.Session
import SimpleLR.Proofs.Recognizer.Stack

/-!
# Built tables are consistent

However a parser over a built automaton is called, and whatever its sources hold, its stack spells
a form until it accepts. So no call before the acceptance finds the table at fault.
-/

namespace SimpleLR

namespace Automaton

variable {a : Automaton} {ε : Type} {p : Parser StateId Terminal Nonterminal} {events : Nat}
  {source : List (Except ε Terminal)} {e : ParseError ε}

/-- The stack of a parser that has not accepted spells a form. -/
theorem exists_spells_of_reached (ha : a.Tabulates) (h : Parser.Reached ε a.table p)
    (reading : p.accepted = false) : ∃ form, a.Spells p.stack form := by
  induction h with
  | start => exact ⟨[], .bottom⟩
  | @next p _ source ih =>
    cases before : p.accepted with
    | true =>
      rw [Parser.next_of_accepted before] at reading
      cases before.symm.trans reading
    | false =>
      obtain ⟨form, hs⟩ := ih before
      exact (next_turns ha hs before source).exists_spells reading

/-- A call before the acceptance fails because of the source or because of the tokens. -/
theorem error_of_reached (ha : a.Tabulates) (h : Parser.Reached ε a.table p)
    (reading : p.accepted = false) (result : (p.next a.table source).result = .error e) :
    (∃ l, e = .lexer l) ∨ ∃ n, e = .rejected n := by
  obtain ⟨form, hs⟩ := exists_spells_of_reached ha h reading
  exact (next_turns ha hs reading source).error_cases result

/-- The same for the calls that a recognition makes. -/
theorem error_of_collect (ha : a.Tabulates) {done : List RuleId}
    {q : Parser StateId Terminal Nonterminal} {rest : List (Except ε Terminal)}
    (h : Parser.Reached ε a.table p) (reading : p.accepted = false)
    (run : p.collect a.table events source done = some (.error e, q, rest)) :
    (∃ l, e = .lexer l) ∨ ∃ n, e = .rejected n := by
  induction events generalizing p source done with
  | zero => cases run
  | succ events ih =>
    obtain ⟨form, hs⟩ := exists_spells_of_reached ha h reading
    have turns := next_turns ha hs reading source
    rcases Parser.collect_cases run with ⟨e', result, failed⟩ | ⟨_, accepted⟩ | ⟨r, result, run⟩
    · cases failed
      exact turns.error_cases result
    · cases accepted
    · obtain ⟨_, _, _, _, _, reading'⟩ := turns.of_reduce result
      exact ih (h.next source) reading' run

theorem isRejection_of_parse {g : Grammar} (h : build g = .ok a)
    (run : a.parse events source = some (.error e)) : e.isRejection = true := by
  obtain ⟨rfl, ha⟩ := tabulates_of_build h
  obtain ⟨q, rest, collects⟩ := parse_eq_error_iff.1 run
  rcases error_of_collect ha .start rfl collects with ⟨l, rfl⟩ | ⟨n, rfl⟩ <;> rfl

/-- A built table is never found corrupt: before the acceptance, a call fails only with an error of
the source or a rejection; so recognition fails with rejections only, and no run of the command
reports an inconsistent parser, whatever its arguments are or are taken to request. -/
theorem never_corrupt :
    (∀ (g : Grammar) (a : Automaton), build g = .ok a →
      (∀ (ε : Type) (p : Parser StateId Terminal Nonterminal), Parser.Reached ε a.table p →
        p.accepted = false → ∀ (source : List (Except ε Terminal)) (e : ParseError ε),
          (p.next a.table source).result = .error e →
            (∃ l, e = .lexer l) ∨ ∃ n, e = .rejected n) ∧
      (∀ (ε : Type) (events : Nat) (source : List (Except ε Terminal)) (e : ParseError ε),
        a.parse events source = some (.error e) → e.isRejection = true) ∧
      ∀ events text e, a.parseString events text = some (.error e) → e.isRejection = true) ∧
    (∀ readFile args stdin, (Command.run readFile args stdin).Consistent) ∧
    ∀ readFile stdin request, (Command.respond readFile stdin request).Consistent := by
  have answers : ∀ readFile stdin request, (Command.respond readFile stdin request).Consistent :=
    fun readFile stdin request ↦ Command.respond_consistent
      (fun g a h events text e run ↦ isRejection_of_parse h run) stdin request
  refine ⟨fun g a h ↦ ⟨fun ε p reached reading source e result ↦ ?_,
    fun ε events source e run ↦ isRejection_of_parse h run,
    fun events text e run ↦ isRejection_of_parse h run⟩, fun readFile args stdin ↦ ?_, answers⟩
  · exact error_of_reached (tabulates_of_build h).2 reached reading result
  · exact answers readFile stdin (Command.Request.ofArguments args)

/-- On `b` the empty rule is reduced, and the next call fails, which is a rejection. -/
theorem never_corrupt_nested :
    ∃ a p, build .nested = .ok a ∧ Parser.Reached Empty a.table p ∧ p.accepted = false ∧
      (p.next (ε := Empty) a.table []).result = .error (.rejected 0) ∧
      ((∃ l, ParseError.rejected 0 = .lexer (ε := Empty) l) ∨
        ∃ n, ParseError.rejected (ε := Empty) 0 = .rejected n) ∧
      ∃ e, a.parseString 2 "b" = some (.error e) ∧ e.isRejection = true := by
  obtain ⟨a, h⟩ := exists_build_nested
  have reading : ((Parser.start a.table).next (ε := Empty) a.table [.ok ⟨2⟩]).parser.accepted =
      false :=
    eq_of_build (f := fun a ↦ ((Parser.start a.table).next (ε := Empty) a.table
      [.ok ⟨2⟩]).parser.accepted) h (by decide +kernel)
  have result : (((Parser.start a.table).next (ε := Empty) a.table [.ok ⟨2⟩]).parser.next a.table
      ([] : List (Except Empty Terminal))).result = .error (.rejected 0) :=
    eq_of_build (f := fun a ↦ (((Parser.start a.table).next (ε := Empty) a.table
      [.ok ⟨2⟩]).parser.next a.table ([] : List (Except Empty Terminal))).result) h
      (by decide +kernel)
  have run : a.parseString 2 "b" = some (.error (.rejected 0)) :=
    eq_of_build (f := fun a ↦ a.parseString 2 "b") h (by decide +kernel)
  obtain ⟨calls, _, texts⟩ := never_corrupt.1 .nested a h
  have reached := Parser.Reached.next (ε := Empty) (t := a.table) .start [.ok ⟨2⟩]
  exact ⟨a, _, h, reached, reading, result, calls Empty _ reached reading [] _ result,
    _, run, texts 2 "b" _ run⟩

end Automaton

end SimpleLR

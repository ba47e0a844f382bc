import SimpleLR.Proofs.Parser.Forest

/-!
# Calling on after an error of the source

A caller may go on with the same parser and the same source after a call has reported an error of
the source. The tokens that the call had shifted stay shifted, so the next call takes up where it
was (`Parser.next_of_lexer`), and a call that reports no such error does what it does on the source
without its errors (`Parser.next_withoutErrors`). Hence the calls that report no errors of the
source are those made on the source without them, and each error that is taken from the source is
reported by one call (`Parser.turns_withoutErrors`). Nothing is assumed of the table.
-/

namespace SimpleLR

variable {σ τ ν ρ ε : Type}

/-- A source without its errors. -/
def withoutErrors (source : List (Except ε τ)) : List (Except ε τ) := source.filter Except.isOk

/-- The errors of a source, in order. -/
def errorsOf (source : List (Except ε τ)) : List ε :=
  source.filterMap fun
    | .error e => some e
    | .ok _ => none

@[simp] theorem withoutErrors_nil : withoutErrors ([] : List (Except ε τ)) = [] := rfl

@[simp] theorem withoutErrors_error_cons (e : ε) (source : List (Except ε τ)) :
    withoutErrors (.error e :: source) = withoutErrors source := rfl

@[simp] theorem withoutErrors_ok_cons (token : τ) (source : List (Except ε τ)) :
    withoutErrors (.ok token :: source) = .ok token :: withoutErrors source := rfl

theorem errorsOf_append (a b : List (Except ε τ)) : errorsOf (a ++ b) = errorsOf a ++ errorsOf b :=
  List.filterMap_append ..

namespace Turn

/-- The error of the source that a call reports. -/
def lexerError? (turn : Turn σ τ ν ρ ε) : Option ε :=
  match turn.result with
  | .error (.lexer e) => some e
  | _ => none

/-- Whether a caller goes on after a call: it has reported a rule, or an error of the source. -/
def continues (turn : Turn σ τ ν ρ ε) : Bool :=
  match turn.result with
  | .ok (.reduce _) | .error (.lexer _) => true
  | _ => false

/-- A turn, with no errors left in its source. -/
def withoutErrors (turn : Turn σ τ ν ρ ε) : Turn σ τ ν ρ ε :=
  { turn with rest := SimpleLR.withoutErrors turn.rest }

variable {turn : Turn σ τ ν ρ ε} {e : ε}

theorem lexerError?_eq_some_iff : turn.lexerError? = some e ↔ turn.result = .error (.lexer e) := by
  rw [lexerError?]
  split
  · next e' result => simp [result]
  · next other => exact ⟨nofun, fun result ↦ absurd result (other e)⟩

theorem continues_of_lexer (h : turn.lexerError? = some e) : turn.continues = true := by
  rw [continues, lexerError?_eq_some_iff.1 h]

end Turn

namespace Parser

/-- The turns of at most so many calls, one after another on the same source. No call is made after
an acceptance or an error that is not the source's. -/
def turns (t : ParseTable σ τ ν ρ) :
    Nat → Parser σ τ ν → List (Except ε τ) → List (Turn σ τ ν ρ ε)
  | 0, _, _ => []
  | calls + 1, p, source =>
    let turn := p.next t source
    turn :: if turn.continues then turns t calls turn.parser turn.rest else []

/-- The turns of a run that report no errors of the source, with none left to read. -/
def properTurns (run : List (Turn σ τ ν ρ ε)) : List (Turn σ τ ν ρ ε) :=
  (run.filter (·.lexerError?.isNone)).map Turn.withoutErrors

/-- The tokens that a call puts on the stack, in order. -/
def shiftedBy (p : Parser σ τ ν) (turn : Turn σ τ ν ρ ε) : List τ :=
  ((entriesBefore turn).take (turn.parser.position - p.position)).reverse.filterMap fun
    | .token token => some token
    | _ => none

/-- The tokens that calls put on the stack, in order. -/
def shiftedIn (p : Parser σ τ ν) : List (Turn σ τ ν ρ ε) → List τ
  | [] => []
  | turn :: run => p.shiftedBy turn ++ turn.parser.shiftedIn run

/-- The parser after calls. -/
def afterTurns (p : Parser σ τ ν) : List (Turn σ τ ν ρ ε) → Parser σ τ ν
  | [] => p
  | turn :: run => turn.parser.afterTurns run

/-- What calls leave of a source. -/
def restOf (source : List (Except ε τ)) : List (Turn σ τ ν ρ ε) → List (Except ε τ)
  | [] => source
  | turn :: run => restOf turn.rest run

variable {t : ParseTable σ τ ν ρ} {p q : Parser σ τ ν} {source : List (Except ε τ)} {e : ε}

/-! ## One call -/

/-- A call that fails with something else than an error of the source, or does not fail at all, ends
with a move. -/
theorem Effect.lexerError?_eq_none {result : Except (ParseError ε) (Event ρ)} {q : Parser σ τ ν}
    {popped : Option (List (Entry τ ν))} {ahead : Option τ}
    (h : Effect t p ahead (.ended result q popped)) (rest : List (Except ε τ)) :
    (⟨result, q, rest, popped⟩ : Turn σ τ ν ρ ε).lexerError? = none := by
  cases h <;> rfl

/-- How moving on fares on the source without its errors: an error of the source is skipped, and all
else stays as it is. -/
theorem Drives.withoutErrors {turn : Turn σ τ ν ρ ε} (h : Drives t p source turn)
    (reading : p.accepted = false) (unread : p.lookahead = .unread) :
    (∀ e, turn.lexerError? = some e →
      turn.parser.accepted = false ∧ turn.parser.lookahead = .unread ∧ turn.popped = none ∧
        p.drive t (withoutErrors source) =
          turn.parser.drive t (SimpleLR.withoutErrors turn.rest)) ∧
    (turn.lexerError? = none → p.drive t (withoutErrors source) = turn.withoutErrors) := by
  induction h with
  | exhausted effect =>
    refine ⟨fun e lexer ↦ ?_, fun _ ↦ ?_⟩
    · cases (effect.lexerError?_eq_none []).symm.trans lexer
    · rw [withoutErrors_nil, drive, effect.move_eq]
      rfl
  | @stopped _ _ _ rest _ _ effect =>
    refine ⟨fun e lexer ↦ ?_, fun _ ↦ ?_⟩
    · cases (effect.lexerError?_eq_none rest).symm.trans lexer
    · rw [withoutErrors_ok_cons, drive, effect.move_eq]
      rfl
  | lexer =>
    refine ⟨fun _ _ ↦ ⟨reading, unread, rfl, rfl⟩, fun no_error ↦ ?_⟩
    cases no_error
  | shift e action _ ih =>
    rw [withoutErrors_ok_cons, drive, move_of_shift e action]
    exact ih reading rfl

theorem next_of_unread (reading : p.accepted = false) (unread : p.lookahead = .unread)
    (source : List (Except ε τ)) : p.next t source = p.drive t source := by
  rw [next, if_neg (by simp [reading]), unread]

/-- A whole call is a move, if there is something ahead, or moving on. -/
theorem next_eq_drive_or (t : ParseTable σ τ ν ρ) (p : Parser σ τ ν) :
    (∃ q : Parser σ τ ν, q.accepted = false ∧ q.lookahead = .unread ∧
      ∀ source : List (Except ε τ), p.next t source = q.drive t source) ∨
    ∃ result q popped, ∀ source : List (Except ε τ),
      p.next t source = ⟨result, q, source, popped⟩ ∧
        (p.next t source).lexerError? = none := by
  cases reading : p.accepted with
  | true =>
    refine .inr ⟨_, _, _, fun source ↦ ⟨next_of_accepted reading, ?_⟩⟩
    rw [next_of_accepted reading]
    rfl
  | false =>
    cases known : p.lookahead with
    | unread => exact .inl ⟨p, reading, known, next_of_unread reading known⟩
    | known ahead =>
      simp only [next, reading, known, Bool.false_eq_true, if_false]
      have effect := move_effect (ε := ε) t p ahead
      generalize p.move (ε := ε) t ahead = move at effect
      cases move with
      | shifted q =>
        cases effect with
        | @shift _ _ token target =>
          exact .inl ⟨p.shift token target, reading, rfl, fun _ ↦ rfl⟩
      | ended result q popped =>
        exact .inr ⟨result, q, popped, fun source ↦ ⟨rfl, effect.lexerError?_eq_none source⟩⟩

/-- After an error of the source, the next call does what this one does without that error. -/
theorem next_of_lexer (h : (p.next t source).lexerError? = some e) :
    (p.next t source).popped = none ∧
      p.next t (withoutErrors source) =
        (p.next t source).parser.next t (withoutErrors (p.next t source).rest) := by
  rcases next_eq_drive_or (ε := ε) t p with ⟨q, reading, unread, same⟩ | ⟨_, _, _, same⟩
  · rw [same] at h ⊢
    obtain ⟨reading', unread', popped, drives⟩ :=
      ((drive_drives t q source).withoutErrors reading unread).1 e h
    exact ⟨popped, by rw [same, drives, next_of_unread reading' unread']⟩
  · cases (same source).2.symm.trans h

/-- A call that reports no error of the source does not depend on the errors in it. -/
theorem next_withoutErrors (h : (p.next t source).lexerError? = none) :
    p.next t (withoutErrors source) = (p.next t source).withoutErrors := by
  rcases next_eq_drive_or (ε := ε) t p with ⟨q, reading, unread, same⟩ | ⟨_, _, _, same⟩
  · rw [same] at h ⊢
    rw [same]
    exact ((drive_drives t q source).withoutErrors reading unread).2 h
  · rw [(same source).1, (same (withoutErrors source)).1]
    rfl

/-- Moving on takes at most one error from the source, and reports it. -/
theorem Drives.exists_errorsOf {turn : Turn σ τ ν ρ ε} (h : Drives t p source turn) :
    ∃ taken, source = taken ++ turn.rest ∧ errorsOf taken = turn.lexerError?.toList := by
  induction h with
  | exhausted effect => exact ⟨[], rfl, by rw [effect.lexerError?_eq_none]; rfl⟩
  | @stopped _ _ token _ _ _ effect =>
    exact ⟨[.ok token], rfl, by rw [effect.lexerError?_eq_none]; rfl⟩
  | lexer _ e _ => exact ⟨[.error e], rfl, rfl⟩
  | @shift _ _ _ token _ _ _ _ _ _ ih =>
    obtain ⟨taken, split, errors⟩ := ih
    exact ⟨.ok token :: taken, congrArg (.ok token :: ·) split, errors⟩

theorem exists_errorsOf_next (t : ParseTable σ τ ν ρ) (p : Parser σ τ ν)
    (source : List (Except ε τ)) :
    ∃ taken, source = taken ++ (p.next t source).rest ∧
      errorsOf taken = (p.next t source).lexerError?.toList := by
  rcases next_eq_drive_or (ε := ε) t p with ⟨q, _, _, same⟩ | ⟨_, _, _, same⟩
  · rw [same]
    exact (drive_drives t q source).exists_errorsOf
  · rw [(same source).2, (same source).1]
    exact ⟨[], rfl, rfl⟩

theorem shiftedBy_of_builds {turn : Turn σ τ ν ρ ε} {v : List τ} (builds : Builds t p v turn) :
    p.shiftedBy turn = v := by
  obtain ⟨shifted, pushed, below, entries, stack, pushes, out⟩ := builds.stack
  have count : turn.parser.position - p.position = (shifted.map Frame.entry).length := by
    rw [builds.position, entries]
    simp
  rw [shiftedBy, entriesBefore_eq stack pushes out, List.map_append, count, List.take_left, entries,
    List.reverse_reverse, List.filterMap_map]
  exact List.filterMap_some

/-- What a call takes from its source: the tokens are shifted, but for the one that is ahead at the
end, and an error is reported. -/
theorem exists_taken_next (t : ParseTable σ τ ν ρ) (p : Parser σ τ ν)
    (source : List (Except ε τ)) :
    ∃ taken, source = taken ++ (p.next t source).rest ∧
      errorsOf taken = (p.next t source).lexerError?.toList ∧
      p.ahead ++ tokensOf (taken.map some) =
        p.shiftedBy (p.next t source) ++ (p.next t source).parser.ahead := by
  obtain ⟨taken, split, errors⟩ := exists_errorsOf_next t p source
  refine ⟨taken, split, errors, ?_⟩
  cases reading : p.accepted with
  | true =>
    rw [next_of_accepted reading] at split ⊢
    obtain rfl : taken = [] := by simpa using split
    simp [shiftedBy, tokensOf]
  | false =>
    obtain ⟨v, builds, reads⟩ := next_builds (t := t) reading source
    rw [shiftedBy_of_builds builds, ← reads.tokens]
    obtain ⟨taken', split', asked⟩ := reads.source
    obtain rfl : taken' = taken := List.append_cancel_right (split'.symm.trans split)
    rcases asked with asked | ⟨_, asked⟩
    · rw [asked]
    · rw [asked, tokensOf_append]
      exact congrArg _ (List.append_nil _).symm

/-! ## Calls one after another -/

/-- Runs of parsers whose first calls are the same are the same. -/
theorem turns_congr {source' : List (Except ε τ)} (same : p.next t source = q.next t source')
    (calls : Nat) : p.turns t calls source = q.turns t calls source' := by
  cases calls with
  | zero => rfl
  | succ calls => rw [turns, turns, same]

theorem properTurns_of_lexer (h : (p.next t source).lexerError? = some e) (calls : Nat) :
    properTurns (p.turns t (calls + 1) source) =
      properTurns ((p.next t source).parser.turns t calls (p.next t source).rest) := by
  rw [turns, properTurns, List.filter_cons_of_neg (by simp [h]),
    if_pos (Turn.continues_of_lexer h)]
  rfl

theorem properTurns_of_none (h : (p.next t source).lexerError? = none) (calls : Nat) :
    properTurns (p.turns t (calls + 1) source) =
      (p.next t source).withoutErrors ::
        if (p.next t source).continues then
          properTurns ((p.next t source).parser.turns t calls (p.next t source).rest)
        else [] := by
  rw [turns, properTurns, List.filter_cons_of_pos (by simp [h]), List.map_cons]
  congr 1
  split <;> rfl

theorem turns_withoutErrors_of_none (h : (p.next t source).lexerError? = none) (calls : Nat) :
    p.turns t (calls + 1) (withoutErrors source) =
      (p.next t source).withoutErrors ::
        if (p.next t source).continues then
          (p.next t source).parser.turns t calls (withoutErrors (p.next t source).rest)
        else [] := by
  rw [turns, next_withoutErrors h]
  rfl

/-- The calls of a run that report no errors of the source are a run without them. -/
theorem properTurns_eq (t : ParseTable σ τ ν ρ) (p : Parser σ τ ν) (calls : Nat)
    (source : List (Except ε τ)) :
    properTurns (p.turns t calls source) =
      p.turns t (properTurns (p.turns t calls source)).length (withoutErrors source) := by
  induction calls generalizing p source with
  | zero => rfl
  | succ calls ih =>
    cases lexer : (p.next t source).lexerError? with
    | some e =>
      rw [properTurns_of_lexer lexer, turns_congr (next_of_lexer lexer).2]
      exact ih ..
    | none =>
      rw [properTurns_of_none lexer, List.length_cons, turns_withoutErrors_of_none lexer]
      congr 1
      split
      · exact ih ..
      · rfl

/-- Every run without errors of the source is made of the calls of a run that report none, with one
more call for each error at most. -/
theorem exists_properTurns_eq (t : ParseTable σ τ ν ρ) (p : Parser σ τ ν) (calls : Nat)
    (source : List (Except ε τ)) :
    ∃ more ≤ calls + (errorsOf source).length,
      properTurns (p.turns t more source) = p.turns t calls (withoutErrors source) := by
  -- on the calls and errors together: an error uses up an error, another call uses up a call
  induction bound : calls + (errorsOf source).length using Nat.strongRecOn
    generalizing p calls source with
  | ind n ih =>
    cases calls with
    | zero => exact ⟨0, Nat.zero_le _, rfl⟩
    | succ calls =>
      obtain ⟨taken, split, errors⟩ := exists_errorsOf_next t p source
      have count := congrArg List.length (congrArg errorsOf split)
      rw [errorsOf_append, errors, List.length_append] at count
      cases lexer : (p.next t source).lexerError? with
      | some e =>
        rw [lexer, Option.toList_some, List.length_singleton] at count
        obtain ⟨more, le, same⟩ := ih _ (by omega) (p.next t source).parser (calls + 1)
          (p.next t source).rest rfl
        refine ⟨more + 1, by omega, ?_⟩
        rw [properTurns_of_lexer lexer, same, turns_congr (next_of_lexer lexer).2]
      | none =>
        rw [lexer, Option.toList_none, List.length_nil] at count
        obtain ⟨more, le, same⟩ := ih _ (by omega) (p.next t source).parser calls
          (p.next t source).rest rfl
        refine ⟨more + 1, by omega, ?_⟩
        rw [properTurns_of_none lexer, turns_withoutErrors_of_none lexer, same]

/-- What calls take from their source: the tokens are shifted in order, but for the one that is
ahead at the end, and each error is reported by one call. -/
theorem exists_taken_turns (t : ParseTable σ τ ν ρ) (p : Parser σ τ ν) (calls : Nat)
    (source : List (Except ε τ)) :
    ∃ taken, source = taken ++ restOf source (p.turns t calls source) ∧
      errorsOf taken = (p.turns t calls source).filterMap Turn.lexerError? ∧
      p.ahead ++ tokensOf (taken.map some) =
        p.shiftedIn (p.turns t calls source) ++ (p.afterTurns (p.turns t calls source)).ahead := by
  induction calls generalizing p source with
  | zero => exact ⟨[], rfl, rfl, by simp [turns, shiftedIn, afterTurns, tokensOf]⟩
  | succ calls ih =>
    obtain ⟨taken, split, errors, tokens⟩ := exists_taken_next t p source
    obtain ⟨later, goesOn⟩ : ∃ later, later = if (p.next t source).continues then
        (p.next t source).parser.turns t calls (p.next t source).rest else [] := ⟨_, rfl⟩
    obtain ⟨taken', split', errors', tokens'⟩ : ∃ taken',
        (p.next t source).rest = taken' ++ restOf (p.next t source).rest later ∧
        errorsOf taken' = later.filterMap Turn.lexerError? ∧
        (p.next t source).parser.ahead ++ tokensOf (taken'.map some) =
          (p.next t source).parser.shiftedIn later ++
            ((p.next t source).parser.afterTurns later).ahead := by
      rw [goesOn]
      split
      · exact ih ..
      · exact ⟨[], rfl, rfl, by simp [shiftedIn, afterTurns, tokensOf]⟩
    rw [turns, ← goesOn]
    refine ⟨taken ++ taken', ?_, ?_, ?_⟩
    · rw [restOf, List.append_assoc, ← split', ← split]
    · rw [errorsOf_append, errors, errors', List.filterMap_cons]
      cases (p.next t source).lexerError? <;> rfl
    · rw [shiftedIn, afterTurns, List.map_append, tokensOf_append, ← List.append_assoc, tokens,
        List.append_assoc, tokens', List.append_assoc]

theorem popped_of_lexer {turn : Turn σ τ ν ρ ε} (calls : Nat) (mem : turn ∈ p.turns t calls source)
    (h : turn.lexerError? = some e) : turn.popped = none := by
  induction calls generalizing p source with
  | zero => cases mem
  | succ calls ih =>
    rw [turns, List.mem_cons] at mem
    rcases mem with rfl | mem
    · exact (next_of_lexer h).1
    · split at mem
      · exact ih mem
      · cases mem

/-- Errors of a source are transparent to a caller who calls on after each of them. The calls that
report other things are, with their results, the entries that they hand out, the parsers that they
leave and what they leave of the source, the calls that are made on the source without its errors;
however many of those are made, they are reached. Each error that is taken from the source is
reported by one call, which hands out nothing, and the tokens that are taken are shifted in order,
but for the one that is ahead at the end. -/
theorem turns_withoutErrors (t : ParseTable σ τ ν ρ) (p : Parser σ τ ν)
    (source : List (Except ε τ)) :
    (∀ calls, properTurns (p.turns t calls source) =
      p.turns t (properTurns (p.turns t calls source)).length (withoutErrors source)) ∧
    (∀ calls, ∃ more ≤ calls + (errorsOf source).length,
      properTurns (p.turns t more source) = p.turns t calls (withoutErrors source)) ∧
    ∀ calls,
      (∃ taken, source = taken ++ restOf source (p.turns t calls source) ∧
        errorsOf taken = (p.turns t calls source).filterMap Turn.lexerError? ∧
        p.ahead ++ tokensOf (taken.map some) =
          p.shiftedIn (p.turns t calls source) ++
            (p.afterTurns (p.turns t calls source)).ahead) ∧
      ∀ turn ∈ p.turns t calls source, ∀ e, turn.lexerError? = some e → turn.popped = none :=
  ⟨fun calls ↦ properTurns_eq t p calls source, fun calls ↦ exists_properTurns_eq t p calls source,
    fun calls ↦ ⟨exists_taken_turns t p calls source, fun _ mem _ ↦ popped_of_lexer calls mem⟩⟩

/-- An error between the tokens of a call: the first token stays shifted. -/
example : ((Parser.start .twofold).turns .twofold 4 [.ok 'a', .error (), .ok 'a']).map
    (fun turn ↦ (turn.result, turn.parser.position)) =
      [(.error (.lexer ()), 1), (.ok (.reduce 2), 1), (.ok (.reduce 1), 2), (.ok .accept, 2)] := by
  decide +kernel

end Parser

end SimpleLR

import SimpleLR.Proofs.Parser.Forest

/-!
# Calls that fail at the table

A call that does not fail at its source ends with a look into the table (`Parser.exists_lastLook`):
the tokens that it has shifted are on the stack, and what it looks up stays ahead. If the table has
no action there, or one that cannot be done, the parser is left where it stood, and calling again
fails in the same way without asking the source (`Parser.StandsStill`). A missing state is noticed
later, when the right side of the rule is off the stack and handed out (`Parser.Stranded`); only if
that side is empty does calling again lead there again. Nothing is assumed of the table.
-/

namespace SimpleLR

variable {σ τ ν ρ ε : Type}

namespace Parser

/-- How far a call has come at its last look into the table: it has shifted the tokens `v`, which
make the frames `shifted`, and what it looks up is next and stays ahead. -/
structure Comes (p : Parser σ τ ν) (source : List (Except ε τ)) (v : List τ)
    (shifted : List (Frame σ τ ν)) (ahead : Option τ) (turn : Turn σ τ ν ρ ε) : Prop where
  entries : shifted.map Frame.entry = (v.map Entry.token).reverse
  position : turn.parser.position = p.position + v.length
  known : turn.parser.lookahead = .known ahead
  read : p.pending source = v.map .ok ++ turn.parser.pending turn.rest
  ended : ahead = none → p.lookahead = .known none ∧ turn.rest = source ∨ turn.rest = []

/-- Another call ends as this one did, whatever its source is, and does not ask it. -/
def Repeats (t : ParseTable σ τ ν ρ) (turn : Turn σ τ ν ρ ε) : Prop :=
  ∀ source : List (Except ε τ), turn.parser.next t source = { turn with rest := source } ∧
    turn.parser.answers t source = []

/-- A call leaves its parser where it stood: but for the tokens that it has shifted the stack is as
before, nothing is handed out, and calling again changes nothing. -/
structure StandsStill (t : ParseTable σ τ ν ρ) (p : Parser σ τ ν) (source : List (Except ε τ))
    (turn : Turn σ τ ν ρ ε) : Prop where
  stack : ∃ v shifted ahead, Comes p source v shifted ahead turn ∧
    turn.parser.stack = shifted ++ p.stack
  popped : turn.popped = none
  again : Repeats t turn

/-- A call takes the right side of a rule off the stack and hands it out, and finds no state to
enter then. If that side is empty, calling again changes nothing. -/
structure Stranded (t : ParseTable σ τ ν ρ) (p : Parser σ τ ν) (source : List (Except ε τ))
    (turn : Turn σ τ ν ρ ε) : Prop where
  stack : ∃ v shifted ahead, Comes p source v shifted ahead turn ∧
    ∃ top below rule left size exposed rest,
      shifted ++ p.stack = top :: below ∧
      t.action top.state ahead = some (.reduce rule left size) ∧
      (shifted ++ p.stack).drop size = exposed :: rest ∧ t.goto exposed.state left = none ∧
      turn.parser.stack = exposed :: rest ∧
      turn.popped = some (((shifted ++ p.stack).take size).reverse.map Frame.entry)
  again : turn.popped = some [] → Repeats t turn

variable {t : ParseTable σ τ ν ρ} {p q : Parser σ τ ν} {ahead : Option τ}
  {pending pending' source : List (Except ε τ)} {result : Except (ParseError ε) (Event ρ)}
  {popped : Option (List (Entry τ ν))} {turn : Turn σ τ ν ρ ε}

/-! ## The last look into the table -/

theorem Shifts.accepted (h : Shifts t p pending q pending') : q.accepted = p.accepted := by
  induction h with
  | refl => rfl
  | head _ _ _ ih => exact ih

/-- Moving on knows of the end of the input when the source is exhausted. -/
theorem Drives.rest_of_ended (h : Drives t p source turn) (unread : p.lookahead = .unread)
    (ended : turn.parser.lookahead = .known none) : turn.rest = [] := by
  induction h with
  | exhausted => rfl
  | stopped effect => cases effect.lookahead.symm.trans ended
  | lexer => cases unread.symm.trans ended
  | shift _ _ _ ih => exact ih rfl ended

/-- A call knows of the end of the input when it did before, or when its source is exhausted. -/
theorem Calls.rest_of_ended (h : Calls t p source turn)
    (ended : turn.parser.lookahead = .known none) :
    p.lookahead = .known none ∧ turn.rest = source ∨ turn.rest = [] := by
  cases h with
  | drive unread drives => exact .inr (drives.rest_of_ended unread ended)
  | shift _ _ _ drives => exact .inr (drives.rest_of_ended rfl ended)
  | ended known effect =>
    obtain rfl := Lookahead.known.inj (effect.lookahead.symm.trans ended)
    exact .inl ⟨known, rfl⟩

/-- A call that does not fail at its source ends with what the table says on what is ahead. -/
theorem exists_lastLook (reading : p.accepted = false) (source : List (Except ε τ))
    (own : ∀ e, (p.next t source).result ≠ .error (.lexer e)) :
    ∃ q v shifted ahead, q.accepted = false ∧ q.stack = shifted ++ p.stack ∧
      Comes p source v shifted ahead (p.next t source) ∧
      Effect t q ahead (.ended (p.next t source).result (p.next t source).parser
        (p.next t source).popped) := by
  obtain ⟨q, pending, shifts, stops⟩ := next_cases (t := t) reading source
  obtain ⟨v, read, position, shifted, stack, entries⟩ := shifts.stack
  have ended := (next_calls (t := t) reading source).rest_of_ended
  generalize p.next t source = turn at stops own ended ⊢
  cases stops with
  | lexer => exact absurd rfl (own _)
  | @ended ahead _ q' _ _ rest effect left =>
    refine ⟨q, v, shifted, ahead, shifts.accepted.trans reading, stack, ?_, effect⟩
    exact {
      entries
      position := effect.stack.1.trans position
      known := effect.lookahead
      read := by rw [read, ← left, pending_of_known effect.lookahead]
      ended := fun none_left ↦ ended (effect.lookahead.trans (congrArg _ none_left)) }

/-- A parser that looks up what it knows to be ahead ends as it did when it did not know. -/
theorem repeats_of_effect (reading : q.accepted = false) {rest : List (Except ε τ)}
    (h : Effect t q ahead (.ended result (q.look ahead) popped)) :
    Repeats t ⟨result, q.look ahead, rest, popped⟩ := by
  have move : (q.look ahead).move t ahead = .ended result (q.look ahead) popped := h.move_eq
  intro source
  constructor
  · rw [next, if_neg (by simp [look, reading])]
    simp only [look] at move ⊢
    rw [move]
  · rw [answers, if_neg (by simp [look, reading])]
    simp only [look] at move ⊢
    rw [move]

/-! ## What a failing call leaves -/

/-- An action that is missing or cannot be done leaves the parser as it looks up. -/
theorem Effect.parser_eq {e : ParseError ε} {q' : Parser σ τ ν}
    (h : Effect t q ahead (.ended (.error e) q' popped)) (found : e ≠ .missingGoto) :
    q' = q.look ahead ∧ popped = none := by
  cases h with
  | rejected => exact ⟨rfl, rfl⟩
  | unexpectedEnd => exact ⟨rfl, rfl⟩
  | emptyStack => exact ⟨rfl, rfl⟩
  | missingGoto => exact absurd rfl found

theorem Effect.missingGoto_cases {q' : Parser σ τ ν}
    (h : Effect (ε := ε) t q ahead (.ended (.error .missingGoto) q' popped)) :
    ∃ top below rule left size exposed rest, q.stack = top :: below ∧
      t.action top.state ahead = some (.reduce rule left size) ∧
      q.stack.drop size = exposed :: rest ∧ t.goto exposed.state left = none ∧
      q' = { q.look ahead with stack := exposed :: rest } ∧
      popped = some ((q.stack.take size).reverse.map Frame.entry) := by
  cases h with
  | missingGoto e action drop goto =>
    exact ⟨_, _, _, _, _, _, _, e, action, drop, goto, rfl, rfl⟩

/-- The stack is as it was when nothing is taken off it. -/
theorem stack_eq_of_popped_nil {stack below : List (Frame σ τ ν)} {size : Nat}
    (drop : stack.drop size = below)
    (nothing : some ((stack.take size).reverse.map Frame.entry) = some []) : stack = below := by
  have none_taken : stack.take size = [] := by simpa using nothing
  rw [← List.take_append_drop size stack, none_taken, drop, List.nil_append]

/-- A call that fails for want of an action that can be done leaves the parser where it stood, with
what it has looked up ahead, and calling again fails in the same way and reads nothing. If it is a
state to enter that is wanting, the right side of the rule is off the stack by then and handed out,
and calling again is sure to fail in the same way only if that side is empty. -/
theorem next_of_failure {e : ParseError ε} (reading : p.accepted = false)
    (failed : (p.next t source).result = .error e) (own : ∀ x, e ≠ .lexer x) :
    (e ≠ .missingGoto → StandsStill t p source (p.next t source)) ∧
    (e = .missingGoto → Stranded t p source (p.next t source)) := by
  obtain ⟨q, v, shifted, ahead, reading', stack, comes, effect⟩ :=
    exists_lastLook (t := t) reading source fun x result ↦
      own x (Except.error.inj (failed.symm.trans result))
  generalize p.next t source = turn at failed comes effect ⊢
  obtain ⟨result, q', rest, popped⟩ := turn
  dsimp only at failed effect
  subst failed
  -- `q` stands where the tokens of the call are shifted and the table is looked into
  refine ⟨fun found ↦ ?_, fun missing ↦ ?_⟩
  · obtain ⟨rfl, rfl⟩ := effect.parser_eq found
    exact ⟨⟨v, shifted, ahead, comes, stack⟩, rfl, repeats_of_effect reading' effect⟩
  · subst missing
    obtain ⟨top, below, rule, left, size, exposed, rest', e, action, drop, goto, rfl, rfl⟩ :=
      effect.missingGoto_cases
    refine ⟨⟨v, shifted, ahead, comes, top, below, rule, left, size, exposed, rest', ?_, action, ?_,
      goto, rfl, ?_⟩, fun nothing ↦ ?_⟩
    · rw [← stack, e]
    · rw [← stack, drop]
    · rw [← stack]
    · -- what is exposed is the top itself, so the parser stands where it looks up
      have kept := stack_eq_of_popped_nil drop nothing
      have same : q.look ahead = { q.look ahead with stack := exposed :: rest' } := by
        rw [← kept]
        rfl
      rw [← same] at effect ⊢
      exact repeats_of_effect reading' effect

end Parser

/-- The table of a rule `S -> a` that has no state to enter after it. -/
def ParseTable.stranding : ParseTable Nat Char Char Nat where
  initial := 0
  action
    | 0, some 'a' => some (.shift 1)
    | 1, none => some (.reduce 1 'S' 1)
    | _, _ => none
  goto _ _ := none

/-- The first call over that table, on `a`. -/
def Parser.strandingTurn : Turn Nat Char Char Nat Empty :=
  (Parser.start .stranding).next .stranding [.ok 'a']

/-- The first call over the table of `S -> A a` and `A -> a`, on `a`. -/
def Parser.endingTurn : Turn Nat Char Char Nat Empty :=
  (Parser.start .twofold).next .twofold [.ok 'a']

/-- On `a` alone, the table of `S -> A a` and `A -> a` has no action once the token is shifted, and
the parser stands still. Over the other table the token comes off the stack again. -/
theorem Parser.next_of_failure_ended :
    endingTurn.result = .error (.rejected 1) ∧
      StandsStill .twofold (.start .twofold) [.ok 'a'] endingTurn ∧
      strandingTurn.result = .error .missingGoto ∧
      Stranded .stranding (.start .stranding) [.ok 'a'] strandingTurn :=
  ⟨rfl, (next_of_failure (e := .rejected 1) rfl rfl nofun).1 nofun, rfl,
    (next_of_failure (e := .missingGoto) rfl rfl nofun).2 rfl⟩

/-- A call that finds no state to enter does not leave its parser where it stood: the token that it
has shifted is off the stack and handed out, and another call rejects the input. -/
theorem Parser.not_standsStill_strandingTurn :
    Reached Empty .stranding (.start .stranding) ∧
      (Parser.start .stranding).accepted = false ∧
      strandingTurn.result = .error .missingGoto ∧
      strandingTurn.parser.stack = [⟨.bottom, 0⟩] ∧
      strandingTurn.popped = some [.token 'a'] ∧
      (strandingTurn.parser.next .stranding strandingTurn.rest).result = .error (.rejected 1) ∧
      ¬ StandsStill .stranding (.start .stranding) [.ok 'a'] strandingTurn := by
  refine ⟨.start, rfl, rfl, rfl, rfl, rfl, fun still ↦ ?_⟩
  cases still.popped

end SimpleLR

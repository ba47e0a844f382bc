import SimpleLR.Proofs.Parser.Failure

/-!
# An error in the source

What a parser does that has some tokens and then an error of the source before it (`Faces`). A call
reports the error when it has shifted all of the tokens; otherwise it stops with some of them still
before it (`Parser.Faces.next`). So a run that is collected ends with that error, or before it, and
what comes behind the error is never looked at (`Parser.Faces.collect_append`). Nothing is assumed of
the table.
-/

namespace SimpleLR

variable {σ τ ν ρ ε : Type}

namespace Parser

/-- A parser that has not accepted has these tokens before it, and then an error of the source. -/
structure Faces (p : Parser σ τ ν) (source : List (Except ε τ)) (v : List τ) (e : ε)
    (behind : List (Except ε τ)) : Prop where
  reading : p.accepted = false
  pending : p.pending source = v.map .ok ++ .error e :: behind

/-- A call stops with some tokens, at least one, still before it. -/
structure StopsShort (p : Parser σ τ ν) (v : List τ) (e : ε) (behind : List (Except ε τ))
    (turn : Turn σ τ ν ρ ε) : Prop where
  own : ∀ e', turn.result ≠ .error (.lexer e')
  unfinished : turn.result ≠ .ok .accept
  position_lt : turn.parser.position < p.position + v.length
  faces : ∃ left, turn.parser.position + left.length = p.position + v.length ∧
    turn.parser.Faces turn.rest left e behind

variable {t : ParseTable σ τ ν ρ} {p q : Parser σ τ ν} {ahead : Option τ} {v : List τ} {e : ε}
  {source behind pending rest : List (Except ε τ)} {turn : Turn σ τ ν ρ ε}

theorem faces_start (t : ParseTable σ τ ν ρ) (v : List τ) (e : ε) (behind : List (Except ε τ)) :
    (start t).Faces (v.map .ok ++ .error e :: behind) v e behind := ⟨rfl, rfl⟩

/-- Tokens that are taken off the front are the first of those before the error. -/
theorem exists_left_of_append {read : List τ}
    (h : v.map .ok ++ .error e :: behind = read.map .ok ++ pending) :
    ∃ left, v = read ++ left ∧ pending = left.map .ok ++ .error e :: behind := by
  induction read generalizing v with
  | nil => exact ⟨v, rfl, h.symm⟩
  | cons token read ih =>
    cases v with
    | nil => cases h
    | cons token' v =>
      obtain ⟨same, h⟩ := List.cons.inj h
      obtain ⟨left, rfl, after⟩ := ih h
      exact ⟨left, congrArg (· :: _) (Except.ok.inj same), after⟩

/-- A parser that looks up what is next has a token before it, and not the error. -/
theorem left_ne_nil_of_look {left : List τ}
    (h : (q.look ahead).pending rest = left.map .ok ++ .error e :: behind) :
    ahead ≠ none ∧ left ≠ [] := by
  cases ahead with
  | none =>
    have impossible : [] = left.map Except.ok ++ .error e :: behind := h
    simp at impossible
  | some token =>
    refine ⟨Option.some_ne_none token, ?_⟩
    rintro rfl
    cases h

/-- What a move ends a call with is no error of the source, and with a token ahead it is no
acceptance; the parser has not accepted then. -/
theorem Effect.unfinished {result : Except (ParseError ε) (Event ρ)} {q' : Parser σ τ ν}
    {popped : Option (List (Entry τ ν))} (h : Effect t q ahead (.ended result q' popped))
    (token : ahead ≠ none) :
    (∀ e', result ≠ .error (.lexer e')) ∧ result ≠ .ok .accept ∧ q'.accepted = q.accepted := by
  cases h with
  | accept _ look => exact absurd look token
  | reduce => exact ⟨nofun, nofun, rfl⟩
  | rejected => exact ⟨nofun, nofun, rfl⟩
  | unexpectedEnd => exact ⟨nofun, nofun, rfl⟩
  | emptyStack => exact ⟨nofun, nofun, rfl⟩
  | missingGoto => exact ⟨nofun, nofun, rfl⟩

/-- A call reports the error of the source when it has shifted all tokens before it, or it stops
short of that. -/
theorem Faces.next (h : p.Faces source v e behind) (t : ParseTable σ τ ν ρ) :
    (p.next t source).result = .error (.lexer e) ∧
        (p.next t source).parser.position = p.position + v.length ∨
      StopsShort p v e behind (p.next t source) := by
  obtain ⟨q, pending, shifts, stops⟩ := next_cases (t := t) h.reading source
  obtain ⟨read, taken, position, _⟩ := shifts.stack
  rw [h.pending] at taken
  obtain ⟨left, rfl, facing⟩ := exists_left_of_append taken
  have accepted := shifts.accepted.trans h.reading
  generalize p.next t source = turn at stops
  cases stops with
  | lexer =>
    -- an error is next, so no token is left in front of it
    cases left with
    | nil =>
      cases facing
      exact .inl ⟨rfl, by rw [position, List.append_nil]⟩
    | cons => cases facing
  | ended effect look =>
    obtain ⟨token, nonempty⟩ := left_ne_nil_of_look (look.trans facing)
    obtain ⟨own, unfinished, same⟩ := effect.unfinished token
    have stays := effect.stack.1.trans position
    have count := List.length_pos_iff.2 nonempty
    refine .inr ⟨own, unfinished, ?_, left, ?_, same.trans accepted, ?_⟩
    · rw [stays, List.length_append]
      omega
    · rw [stays, List.length_append, Nat.add_assoc]
    · rw [← pending_of_known effect.lookahead, look, facing]

/-! ## Collecting -/

variable {events : Nat} {done : List ρ} {result : Except (ParseError ε) (List ρ)}

/-- A run that is collected ends with the error of the source, when all tokens before it have been
shifted, or with another error before that. -/
theorem Faces.collect (h : p.Faces source v e behind)
    (run : p.collect t events source done = some (result, q, rest)) :
    result = .error (.lexer e) ∧ q.position = p.position + v.length ∨
      ∃ e', result = .error e' ∧ (∀ x, e' ≠ .lexer x) ∧ q.position < p.position + v.length ∧
        ∀ n, e' = .rejected n → n = q.position := by
  induction events generalizing p source v done with
  | zero => cases run
  | succ events ih =>
    rcases collect_cases run with ⟨e', failed, same⟩ | ⟨accepted, _⟩ | ⟨rule, reduced, run⟩
    · cases same
      rcases h.next t with ⟨reported, position⟩ | short
      · cases failed.symm.trans reported
        exact .inl ⟨rfl, position⟩
      · refine .inr ⟨e', rfl, fun x same ↦ short.own x (same ▸ failed), short.position_lt, ?_⟩
        rintro n rfl
        exact (position_of_rejected failed).symm
    · rcases h.next t with ⟨reported, _⟩ | short
      · cases accepted.symm.trans reported
      · exact absurd accepted short.unfinished
    · rcases h.next t with ⟨reported, _⟩ | short
      · cases reduced.symm.trans reported
      · obtain ⟨left, count, faces⟩ := short.faces
        rw [← count]
        exact ih faces run

/-- A call does not look behind the error of the source. -/
theorem Faces.next_append {c : List (Except ε τ)} (h : p.Faces c v e []) (t : ParseTable σ τ ν ρ)
    (s : List (Except ε τ)) :
    p.next t (c ++ s) = { p.next t c with rest := (p.next t c).rest ++ s } := by
  -- the call ends at the error at the latest, which is the last of `c`
  have inside : (p.next t (c ++ [])).parser.position < p.position + (p.pending c).length := by
    rw [List.append_nil, h.pending, List.length_append, List.length_map, List.length_singleton]
    rcases h.next t with ⟨_, position⟩ | short
    · omega
    · have := short.position_lt
      omega
  obtain ⟨r, same⟩ := Parser.next_append inside
  have alone := congrArg Turn.rest (same [])
  simp only [List.append_nil] at same alone
  rw [same s, alone]

/-- What comes behind the error of the source makes no difference. -/
theorem Faces.collect_append {c : List (Except ε τ)} (h : p.Faces c v e []) (events : Nat)
    (done : List ρ) (s : List (Except ε τ)) :
    (p.collect t events (c ++ s) done).map (fun r ↦ (r.1, r.2.1)) =
      (p.collect t events c done).map (fun r ↦ (r.1, r.2.1)) := by
  induction events generalizing p c v done with
  | zero => rfl
  | succ events ih =>
    have same := h.next_append t s
    cases result : (p.next t c).result with
    | error e' =>
      rw [collect_of_error result, collect_of_error (e := e') (by rw [same, result]), same]
      rfl
    | ok event =>
      cases event with
      | accept =>
        rw [collect_of_accept result, collect_of_accept (by rw [same, result]), same]
        rfl
      | reduce rule =>
        have step : (p.next t (c ++ s)).result = .ok (.reduce rule) := by rw [same, result]
        rw [collect_of_reduce result, collect_of_reduce step, same]
        rcases h.next t with ⟨reported, _⟩ | short
        · cases result.symm.trans reported
        · obtain ⟨left, _, faces⟩ := short.faces
          exact ih faces _

end Parser

end SimpleLR

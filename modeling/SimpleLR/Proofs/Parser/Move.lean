import SimpleLR.Parser.Basic

/-!
# The moves of a parser

What a parser does for each entry of its table, and what it has yet to read. Nothing is assumed of
the table.
-/

namespace SimpleLR

namespace Parser

variable {σ τ ν ρ ε : Type}

/-- What a parser has yet to shift: the token ahead, if it is known, and the source. -/
def pending (p : Parser σ τ ν) (source : List (Except ε τ)) : List (Except ε τ) :=
  match p.lookahead with
  | .unread => source
  | .known (some t) => .ok t :: source
  | .known none => []

/-- The parser that knows what is ahead. -/
def look (p : Parser σ τ ν) (ahead : Option τ) : Parser σ τ ν :=
  { p with lookahead := .known ahead }

/-- The parser after a token is shifted. -/
def shift (p : Parser σ τ ν) (t : τ) (target : σ) : Parser σ τ ν where
  stack := ⟨.token t, target⟩ :: p.stack
  lookahead := .unread
  position := p.position + 1
  accepted := p.accepted

variable {t : ParseTable σ τ ν ρ} {p : Parser σ τ ν} {top : Frame σ τ ν}
  {below : List (Frame σ τ ν)} {ahead : Option τ} {token : τ} {target : σ} {rule : ρ} {left : ν}
  {size : Nat} {source : List (Except ε τ)}

theorem pending_of_unread (h : p.lookahead = .unread) : p.pending source = source := by
  rw [pending, h]

theorem move_of_none (e : p.stack = top :: below) (h : t.action top.state ahead = none) :
    p.move (ε := ε) t ahead = .ended (.error (.rejected p.position)) (p.look ahead) none := by
  simp only [move, e, h, look]

theorem move_of_shift (e : p.stack = top :: below)
    (h : t.action top.state (some token) = some (.shift target)) :
    p.move (ε := ε) t (some token) = .shifted (p.shift token target) := by
  simp only [move, e, h, shift]

theorem move_of_reduce (e : p.stack = top :: below)
    (h : t.action top.state ahead = some (.reduce rule left size)) :
    p.move (ε := ε) t ahead = (p.look ahead).reduce t rule left size := by
  simp only [move, e, h, look]

theorem move_of_accept (e : p.stack = top :: below) (h : t.action top.state none = some .accept) :
    p.move (ε := ε) t none =
      .ended (.ok .accept) { p.look none with stack := below, accepted := true }
        (some [top.entry]) := by
  simp only [move, e, h, look]

/-- The end of the input is not a token. -/
theorem move_of_accept_token (e : p.stack = top :: below)
    (h : t.action top.state (some token) = some .accept) :
    p.move (ε := ε) t (some token) =
      .ended (.error (.rejected p.position)) (p.look (some token)) none := by
  simp only [move, e, h, look]

theorem reduce_of_goto (e : p.stack.drop size = top :: below)
    (h : t.goto top.state left = some target) :
    p.reduce (ε := ε) t rule left size =
      .ended (.ok (.reduce rule)) { p with stack := ⟨.nonterminal left, target⟩ :: top :: below }
        (some ((p.stack.take size).reverse.map Frame.entry)) := by
  simp only [reduce, e, h]

theorem move_of_nil (e : p.stack = []) :
    p.move (ε := ε) t ahead = .ended (.error .emptyStack) (p.look ahead) none := by
  simp only [move, e, look]

/-- The end of the input cannot be shifted. -/
theorem move_of_shift_none (e : p.stack = top :: below)
    (h : t.action top.state none = some (.shift target)) :
    p.move (ε := ε) t none = .ended (.error .unexpectedEnd) (p.look none) none := by
  simp only [move, e, h, look]

theorem reduce_of_nil (e : p.stack.drop size = []) :
    p.reduce (ε := ε) t rule left size = .ended (.error .emptyStack) p none := by
  simp only [reduce, e]

/-- The right side is off the stack when no state is found. -/
theorem reduce_of_no_goto (e : p.stack.drop size = top :: below)
    (h : t.goto top.state left = none) :
    p.reduce (ε := ε) t rule left size =
      .ended (.error .missingGoto) { p with stack := top :: below }
        (some ((p.stack.take size).reverse.map Frame.entry)) := by
  simp only [reduce, e, h]

/-- The parsers that calls lead to, each call with a source of its own. -/
inductive Reached (ε : Type) (t : ParseTable σ τ ν ρ) : Parser σ τ ν → Prop
  | start : Reached ε t (.start t)
  | next {p : Parser σ τ ν} (before : Reached ε t p) (source : List (Except ε τ)) :
    Reached ε t (p.next t source).parser

/-- A parser that has accepted stays as it is. -/
theorem next_of_accepted (h : p.accepted = true) :
    p.next t source = ⟨.error .alreadyAccepted, p, source, none⟩ := by
  rw [next, if_pos h]

/-! ## Collecting -/

variable {events : Nat} {done : List ρ} {e : ParseError ε}

theorem collect_of_error (h : (p.next t source).result = .error e) :
    p.collect t (events + 1) source done =
      some (.error e, (p.next t source).parser, (p.next t source).rest) := by
  rw [collect]
  generalize p.next t source = turn at h ⊢
  obtain ⟨result, q, rest, popped⟩ := turn
  cases h
  rfl

theorem collect_of_accept (h : (p.next t source).result = .ok .accept) :
    p.collect t (events + 1) source done =
      some (.ok done.reverse, (p.next t source).parser, (p.next t source).rest) := by
  rw [collect]
  generalize p.next t source = turn at h ⊢
  obtain ⟨result, q, rest, popped⟩ := turn
  cases h
  rfl

theorem collect_of_reduce (h : (p.next t source).result = .ok (.reduce rule)) :
    p.collect t (events + 1) source done =
      (p.next t source).parser.collect t events (p.next t source).rest (rule :: done) := by
  rw [collect]
  generalize p.next t source = turn at h ⊢
  obtain ⟨result, q, rest, popped⟩ := turn
  cases h
  rfl

/-- How a run that ends begins. -/
theorem collect_cases
    {outcome : Except (ParseError ε) (List ρ) × Parser σ τ ν × List (Except ε τ)}
    (h : p.collect t (events + 1) source done = some outcome) :
    (∃ e, (p.next t source).result = .error e ∧
      outcome = (.error e, (p.next t source).parser, (p.next t source).rest)) ∨
    ((p.next t source).result = .ok .accept ∧
      outcome = (.ok done.reverse, (p.next t source).parser, (p.next t source).rest)) ∨
    ∃ rule, (p.next t source).result = .ok (.reduce rule) ∧
      (p.next t source).parser.collect t events (p.next t source).rest (rule :: done) =
        some outcome := by
  cases result : (p.next t source).result with
  | error e =>
    rw [collect_of_error result] at h
    exact .inl ⟨e, rfl, (Option.some.inj h).symm⟩
  | ok event =>
    cases event with
    | accept =>
      rw [collect_of_accept result] at h
      exact .inr (.inl ⟨rfl, (Option.some.inj h).symm⟩)
    | reduce rule =>
      rw [collect_of_reduce result] at h
      exact .inr (.inr ⟨rule, rfl, h⟩)

/-- More events than needed do no harm. -/
theorem collect_mono {events' : Nat}
    {outcome : Except (ParseError ε) (List ρ) × Parser σ τ ν × List (Except ε τ)}
    (h : p.collect t events source done = some outcome) (le : events ≤ events') :
    p.collect t events' source done = some outcome := by
  induction events generalizing p source done events' with
  | zero => cases h
  | succ events ih =>
    obtain ⟨more, rfl⟩ := Nat.exists_eq_add_of_le' le
    rw [← Nat.add_assoc]
    rcases collect_cases h with ⟨e, result, rfl⟩ | ⟨result, rfl⟩ | ⟨rule, result, h⟩
    · exact collect_of_error result
    · exact collect_of_accept result
    · rw [collect_of_reduce result]
      exact ih h (Nat.le_add_left ..)

end Parser

end SimpleLR

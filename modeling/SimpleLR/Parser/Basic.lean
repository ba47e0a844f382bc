import SimpleLR.Parser.Table

/-!
# Shift-reduce parsers

A parser driven by any parse table. `Parser.next` reads tokens from a source until a rule is
matched, the input is accepted or an error is met. A source is a list whose elements are tokens or
errors of their own; what the parser did not read of it is handed back, and so are the entries
that a reduction took off the stack.
-/

namespace SimpleLR

variable {σ τ ν ρ ε : Type}

/-- What a parser keeps for a part of the input. -/
inductive Entry (τ ν : Type) where
  /-- Nothing: the entry below all others. -/
  | bottom
  /-- A token that was shifted. -/
  | token (t : τ)
  /-- The left side of a rule that was reduced. -/
  | nonterminal (n : ν)
deriving DecidableEq, Repr

/-- An entry of the stack and the state that was entered with it. -/
structure Frame (σ τ ν : Type) where
  entry : Entry τ ν
  state : σ
deriving DecidableEq, Repr

/-- What a parser knows of the rest of the input. -/
inductive Lookahead (τ : Type) where
  /-- The source has not been asked yet. -/
  | unread
  /-- The token ahead, or the end of the input. -/
  | known (ahead : Option τ)
deriving DecidableEq, Repr

/-- A parser; the top of its stack comes first. -/
structure Parser (σ τ ν : Type) where
  stack : List (Frame σ τ ν)
  lookahead : Lookahead τ
  /-- The number of tokens shifted so far. -/
  position : Nat
  accepted : Bool
deriving DecidableEq, Repr

/-- What a parser reports when it has made progress. -/
inductive Event (ρ : Type) where
  | reduce (rule : ρ)
  | accept
deriving DecidableEq, Repr

/-- What stops a parser. -/
inductive ParseError (ε : Type) where
  /-- The source gave an error in place of a token. -/
  | lexer (e : ε)
  /-- There is no action on what comes after so many tokens. -/
  | rejected (position : Nat)
  /-- The table shifts at the end of the input. -/
  | unexpectedEnd
  /-- The table has no state to enter after a reduction. -/
  | missingGoto
  /-- The table reduces more symbols than are on the stack. -/
  | emptyStack
  /-- The input was accepted before. -/
  | alreadyAccepted
deriving DecidableEq, Repr

namespace ParseError

/-- The text of an error. -/
def message (text : ε → String) : ParseError ε → String
  | .lexer e => "from lexer: " ++ text e
  | .rejected position => "rejected at position " ++ toString position
  | .unexpectedEnd => "unexpected EOI"
  | .missingGoto => "missing goto transition"
  | .emptyStack => "empty stack"
  | .alreadyAccepted => "already accepted"

/-- Whether the input is at fault, and not the table or the caller. -/
def isRejection : ParseError ε → Bool
  | .lexer _ | .rejected _ => true
  | _ => false

end ParseError

/-- What a call of a parser has led to. -/
structure Turn (σ τ ν ρ ε : Type) where
  result : Except (ParseError ε) (Event ρ)
  parser : Parser σ τ ν
  /-- What is left of the source. -/
  rest : List (Except ε τ)
  /-- The entries taken off the stack, the lowest first, if any were taken off. -/
  popped : Option (List (Entry τ ν))

/-- What a parser does once it knows its lookahead. -/
inductive Move (σ τ ν ρ ε : Type) where
  /-- A token was shifted. -/
  | shifted (p : Parser σ τ ν)
  /-- The call is over. -/
  | ended (result : Except (ParseError ε) (Event ρ)) (p : Parser σ τ ν)
    (popped : Option (List (Entry τ ν)))

namespace Parser

/-- A parser that has read nothing. -/
def start (t : ParseTable σ τ ν ρ) : Parser σ τ ν where
  stack := [⟨.bottom, t.initial⟩]
  lookahead := .unread
  position := 0
  accepted := false

/-- Replaces the topmost `size` entries by a nonterminal. -/
def reduce (t : ParseTable σ τ ν ρ) (p : Parser σ τ ν) (rule : ρ) (left : ν) (size : Nat) :
    Move σ τ ν ρ ε :=
  match p.stack.drop size with
  | [] => .ended (.error .emptyStack) p none
  | exposed :: below =>
    let popped := (p.stack.take size).reverse.map Frame.entry
    match t.goto exposed.state left with
    | none => .ended (.error .missingGoto) { p with stack := exposed :: below } (some popped)
    | some next =>
      .ended (.ok (.reduce rule))
        { p with stack := ⟨.nonterminal left, next⟩ :: exposed :: below } (some popped)

/-- Makes one move, with a token or the end of the input ahead. An empty stack is met here only,
when the source has been asked already. -/
def move (t : ParseTable σ τ ν ρ) (p : Parser σ τ ν) (ahead : Option τ) : Move σ τ ν ρ ε :=
  let p := { p with lookahead := .known ahead }
  match p.stack with
  | [] => .ended (.error .emptyStack) p none
  | top :: below =>
    match t.action top.state ahead, ahead with
    | none, _ => .ended (.error (.rejected p.position)) p none
    | some (.shift next), some token =>
      .shifted { p with
        stack := ⟨.token token, next⟩ :: top :: below
        lookahead := .unread
        position := p.position + 1 }
    | some (.shift _), none => .ended (.error .unexpectedEnd) p none
    | some (.reduce rule left size), _ => p.reduce t rule left size
    | some .accept, some _ => .ended (.error (.rejected p.position)) p none
    | some .accept, none =>
      .ended (.ok .accept) { p with stack := below, accepted := true } (some [top.entry])

/-- Moves on, asking the source for each token, until the call is over. The source is asked before
the stack is looked at. Only a parser with an empty stack could tell this from looking at the stack
first, and no call leaves one behind that has not accepted. -/
def drive (t : ParseTable σ τ ν ρ) (p : Parser σ τ ν) : List (Except ε τ) → Turn σ τ ν ρ ε
  | [] =>
    match p.move t none with
    | .shifted p => ⟨.error .unexpectedEnd, p, [], none⟩
    | .ended result p popped => ⟨result, p, [], popped⟩
  | .error e :: rest => ⟨.error (.lexer e), p, rest, none⟩
  | .ok token :: rest =>
    match p.move t (some token) with
    | .shifted p => p.drive t rest
    | .ended result p popped => ⟨result, p, rest, popped⟩

/-- Reads from a source up to the next event or error. -/
def next (t : ParseTable σ τ ν ρ) (p : Parser σ τ ν) (source : List (Except ε τ)) :
    Turn σ τ ν ρ ε :=
  if p.accepted then ⟨.error .alreadyAccepted, p, source, none⟩
  else match p.lookahead with
    | .unread => p.drive t source
    | .known ahead =>
      match p.move t ahead with
      | .shifted p => p.drive t source
      | .ended result p popped => ⟨result, p, source, popped⟩

/-- Collects the rules of the events up to the acceptance, after those of `done`, which comes
last first. Gives up after so many events. -/
def collect (t : ParseTable σ τ ν ρ) :
    Nat → Parser σ τ ν → List (Except ε τ) → List ρ →
      Option (Except (ParseError ε) (List ρ) × Parser σ τ ν × List (Except ε τ))
  | 0, _, _, _ => none
  | events + 1, p, source, done =>
    match p.next t source with
    | ⟨.error e, p, rest, _⟩ => some (.error e, p, rest)
    | ⟨.ok .accept, p, rest, _⟩ => some (.ok done.reverse, p, rest)
    | ⟨.ok (.reduce rule), p, rest, _⟩ => collect t events p rest (rule :: done)

end Parser

end SimpleLR

import SimpleLR.Parser.Basic

/-!
# Mapped parse tables

States, tokens, nonterminals and rules can be mapped to others. If the entries of a table are mapped
to the entries of another (`TableMap.Maps`), a parser over the first does what the mapped parser
does over the second, call by call (`TableMap.Maps.next_eq`) and up to the end
(`TableMap.Maps.collect_eq`).
-/

namespace SimpleLR

/-- Others for the states, the tokens, the nonterminals and the rules of a table. -/
structure TableMap (σ σ' τ τ' ν ν' ρ ρ' : Type) where
  state : σ → σ'
  token : τ → τ'
  nonterminal : ν → ν'
  rule : ρ → ρ'

namespace TableMap

variable {σ σ' τ τ' ν ν' ρ ρ' ε : Type} (f : TableMap σ σ' τ τ' ν ν' ρ ρ')

def action : ParseAction σ ν ρ → ParseAction σ' ν' ρ'
  | .shift next => .shift (f.state next)
  | .reduce rule left size => .reduce (f.rule rule) (f.nonterminal left) size
  | .accept => .accept

def entry : Entry τ ν → Entry τ' ν'
  | .bottom => .bottom
  | .token t => .token (f.token t)
  | .nonterminal n => .nonterminal (f.nonterminal n)

def frame (x : Frame σ τ ν) : Frame σ' τ' ν' := ⟨f.entry x.entry, f.state x.state⟩

def lookahead : Lookahead τ → Lookahead τ'
  | .unread => .unread
  | .known ahead => .known (ahead.map f.token)

def parser (p : Parser σ τ ν) : Parser σ' τ' ν' where
  stack := p.stack.map f.frame
  lookahead := f.lookahead p.lookahead
  position := p.position
  accepted := p.accepted

def event : Event ρ → Event ρ'
  | .reduce rule => .reduce (f.rule rule)
  | .accept => .accept

def source (tokens : List (Except ε τ)) : List (Except ε τ') := tokens.map (Except.map f.token)

def turn (x : Turn σ τ ν ρ ε) : Turn σ' τ' ν' ρ' ε where
  result := x.result.map f.event
  parser := f.parser x.parser
  rest := f.source x.rest
  popped := x.popped.map (List.map f.entry)

def move : Move σ τ ν ρ ε → Move σ' τ' ν' ρ' ε
  | .shifted p => .shifted (f.parser p)
  | .ended result p popped =>
    .ended (result.map f.event) (f.parser p) (popped.map (List.map f.entry))

/-- The entries of a table are mapped to the entries of another. -/
structure Maps (t : ParseTable σ τ ν ρ) (t' : ParseTable σ' τ' ν' ρ') : Prop where
  initial : t'.initial = f.state t.initial
  action : ∀ s ahead, t'.action (f.state s) (ahead.map f.token) = (t.action s ahead).map f.action
  goto : ∀ s n, t'.goto (f.state s) (f.nonterminal n) = (t.goto s n).map f.state

namespace Maps

variable {f} {t : ParseTable σ τ ν ρ} {t' : ParseTable σ' τ' ν' ρ'} (h : f.Maps t t')
include h

theorem start_eq : Parser.start t' = f.parser (.start t) := by
  simp [Parser.start, TableMap.parser, TableMap.frame, TableMap.entry, TableMap.lookahead,
    h.initial]

theorem reduce_eq (p : Parser σ τ ν) (rule : ρ) (left : ν) (size : Nat) :
    (f.parser p).reduce t' (f.rule rule) (f.nonterminal left) size =
      f.move (ε := ε) (p.reduce t rule left size) := by
  have drop : (f.parser p).stack.drop size = (p.stack.drop size).map f.frame := List.map_drop.symm
  have take : ((f.parser p).stack.take size).reverse.map Frame.entry =
      ((p.stack.take size).reverse.map Frame.entry).map f.entry := by
    rw [TableMap.parser, ← List.map_take, ← List.map_reverse, List.map_map, List.map_map]
    rfl
  rw [Parser.reduce, Parser.reduce, drop, take]
  cases p.stack.drop size with
  | nil => rfl
  | cons exposed below =>
    simp only [List.map_cons, TableMap.frame, h.goto]
    cases t.goto exposed.state left <;> rfl

theorem move_eq (p : Parser σ τ ν) (ahead : Option τ) :
    (f.parser p).move t' (ahead.map f.token) = f.move (ε := ε) (p.move t ahead) := by
  obtain ⟨stack, lookahead, position, accepted⟩ := p
  cases stack with
  | nil => rfl
  | cons top below =>
    simp only [Parser.move, TableMap.parser, List.map_cons, TableMap.frame, h.action]
    cases t.action top.state ahead with
    | none => rfl
    | some act =>
      cases act with
      | shift target => cases ahead <;> rfl
      | reduce rule left size =>
        exact h.reduce_eq ⟨top :: below, .known ahead, position, accepted⟩ rule left size
      | accept => cases ahead <;> rfl

theorem drive_eq (p : Parser σ τ ν) (tokens : List (Except ε τ)) :
    (f.parser p).drive t' (f.source tokens) = f.turn (p.drive t tokens) := by
  induction tokens generalizing p with
  | nil =>
    have same := h.move_eq (ε := ε) p none
    simp only [TableMap.source, List.map_nil, Parser.drive]
    rw [Option.map_none] at same
    rw [same]
    cases p.move (ε := ε) t none <;> rfl
  | cons token tokens ih =>
    cases token with
    | error e => rfl
    | ok token =>
      have same := h.move_eq (ε := ε) p (some token)
      simp only [TableMap.source, List.map_cons, Except.map, Parser.drive]
      rw [Option.map_some] at same
      rw [same]
      cases p.move (ε := ε) t (some token) with
      | shifted p => exact ih p
      | ended => rfl

theorem next_eq (p : Parser σ τ ν) (tokens : List (Except ε τ)) :
    (f.parser p).next t' (f.source tokens) = f.turn (p.next t tokens) := by
  obtain ⟨stack, lookahead, position, accepted⟩ := p
  cases accepted with
  | true => rfl
  | false =>
    cases lookahead with
    | unread => exact h.drive_eq ⟨stack, .unread, position, false⟩ tokens
    | known ahead =>
      have same := h.move_eq (ε := ε) ⟨stack, .known ahead, position, false⟩ ahead
      simp only [Parser.next, TableMap.parser, TableMap.lookahead, Bool.false_eq_true, if_false]
      simp only [TableMap.parser, TableMap.lookahead] at same
      rw [same]
      cases Parser.move (ε := ε) t ⟨stack, .known ahead, position, false⟩ ahead with
      | shifted p => exact h.drive_eq p tokens
      | ended => rfl

theorem collect_eq (events : Nat) (p : Parser σ τ ν) (tokens : List (Except ε τ)) (done : List ρ) :
    (f.parser p).collect t' events (f.source tokens) (done.map f.rule) =
      (p.collect t events tokens done).map fun (result, q, rest) ↦
        (result.map (List.map f.rule), f.parser q, f.source rest) := by
  induction events generalizing p tokens done with
  | zero => rfl
  | succ events ih =>
    rw [Parser.collect, Parser.collect, h.next_eq]
    generalize p.next t tokens = x
    obtain ⟨result, q, rest, popped⟩ := x
    cases result with
    | error e => rfl
    | ok event =>
      cases event with
      | accept => simp [TableMap.turn, TableMap.event, Except.map]
      | reduce rule => exact ih q rest (rule :: done)

end Maps

end TableMap

end SimpleLR

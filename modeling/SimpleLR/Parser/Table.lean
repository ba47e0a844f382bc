/-!
# Parse tables

A parse table tells a shift-reduce parser what to do: from which state to start, which action to
take in a state with a token ahead or at the end of the input, and which state to enter after a
reduction. Nothing is assumed of the states, tokens, nonterminals and rules.
-/

namespace SimpleLR

variable {σ τ ν ρ : Type}

/-- What a parser does next. -/
inductive ParseAction (σ ν ρ : Type) where
  /-- Read the token ahead and enter a state. -/
  | shift (next : σ)
  /-- Reduce by a rule with that left side and that many symbols on the right. -/
  | reduce (rule : ρ) (left : ν) (size : Nat)
  /-- Accept the input. -/
  | accept
deriving DecidableEq, Repr

/-- A table of actions for the states `σ`, the tokens `τ`, the nonterminals `ν` and the rules `ρ`.
A lookahead of `none` is the end of the input. -/
structure ParseTable (σ τ ν ρ : Type) where
  initial : σ
  action : σ → Option τ → Option (ParseAction σ ν ρ)
  goto : σ → ν → Option σ

end SimpleLR

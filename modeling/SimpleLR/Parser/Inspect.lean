import SimpleLR.Parser.Basic

/-!
# Parsers as text

The texts of stack entries and of a whole parser, for looking into a run.
-/

namespace SimpleLR

variable {σ τ ν : Type}

/-- The text of an entry, by the texts of tokens and nonterminals. -/
def Entry.render (token : τ → String) (nonterminal : ν → String) : Entry τ ν → String
  | .bottom => "__Empty"
  | .token t => "T(" ++ token t ++ ")"
  | .nonterminal n => "N(" ++ nonterminal n ++ ")"

/-- The text of a lookahead; it shows a token only. -/
def Lookahead.render (token : τ → String) : Lookahead τ → String
  | .known (some t) => "Some(" ++ token t ++ ")"
  | _ => "None"

/-- The text of a parser over a table of that name; the stack is shown from the bottom. -/
def Parser.render (table : String) (state : σ → String) (token : τ → String)
    (nonterminal : ν → String) (p : Parser σ τ ν) : String :=
  let frames := p.stack.reverse
  "Parser \x7b definition: " ++ table ++
  ", parser_state: " ++ (if p.accepted then "Accepted" else "Reading") ++
  ", state_stack: [" ++ ", ".intercalate (frames.map fun f => state f.state) ++
  "], item_stack: [" ++ ", ".intercalate (frames.map fun f => f.entry.render token nonterminal) ++
  "], peeked_token: " ++ p.lookahead.render token ++
  ", position: " ++ toString p.position ++ " \x7d"

end SimpleLR

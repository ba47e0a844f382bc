/-!
# Descriptions of grammars

What a text says of a grammar: the names of its nonterminals and terminals and its rules, each
with the line on which it stands, and the ways in which a text fails to say so. Symbols are named
by single characters here.
-/

namespace SimpleLR

/-- A value with the number of the line on which it stands, counted from one. -/
structure Located (α : Type) where
  line : Nat
  value : α
deriving DecidableEq, Repr

/-- A rule as it is written, by the names of its symbols. -/
structure Production where
  left : Char
  right : List Char
deriving DecidableEq, Repr

/-- What a text says of a grammar, before the names are resolved. -/
structure Description where
  nonterminals : List (Located Char)
  terminals : List (Located Char)
  productions : List (Located Production)
deriving DecidableEq, Repr

namespace Description

/-- What a line of a description is for. -/
inductive Expected where
  | nonterminalCount
  | terminalCount
  | ruleCount
  | nonterminalName
  | terminalName
  | rule
deriving DecidableEq, Repr

/-- Names what a line is for. -/
def Expected.phrase : Expected → String
  | .nonterminalCount => "the number of nonterminals"
  | .terminalCount => "the number of terminals"
  | .ruleCount => "the number of rules"
  | .nonterminalName => "a nonterminal name"
  | .terminalName => "a terminal name"
  | .rule => "a rule"

/-- The ways in which a text fails to be a description. -/
inductive Problem where
  /-- The text ends where a line is needed. -/
  | missingLine (expected : Expected)
  /-- The line is not a count. -/
  | invalidCount (found : String)
  /-- The text is not a single character that may name a symbol. -/
  | invalidSymbolName (found : String)
  /-- The line has no arrow. -/
  | missingArrow
  /-- A line after the last rule is not blank. -/
  | trailingContent
deriving DecidableEq, Repr

/-- The text of a problem. -/
def Problem.message : Problem → String
  | .missingLine expected => "missing line, expecting " ++ expected.phrase
  | .invalidCount found => "invalid count `" ++ found ++ "'"
  | .invalidSymbolName found => "invalid symbol name `" ++ found ++ "'"
  | .missingArrow => "missing `->' in rule"
  | .trailingContent => "unexpected content after the last rule"

/-- A problem and the line at which it was found. -/
structure Error where
  line : Nat
  problem : Problem
deriving DecidableEq, Repr

/-- The text of an error. -/
def Error.message (e : Error) : String := "line " ++ toString e.line ++ ": " ++ e.problem.message

end Description

end SimpleLR

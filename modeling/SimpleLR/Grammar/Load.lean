import SimpleLR.Grammar.Builder
import SimpleLR.Grammar.Description.Reader

/-!
# Grammars from their descriptions

The names of a description are resolved in the order in which they appear: first the nonterminals
that it lists, then the terminals, then rule by rule. A name that is not listed is a nonterminal.
The start symbol is `S` if there is such a nonterminal, and the first nonterminal otherwise.
-/

namespace SimpleLR

/-- A grammar could not be read from a text, or was not well declared. -/
inductive GrammarError where
  /-- The text is not a description. -/
  | description (e : Description.Error)
  /-- A declaration was refused, at a line of the description if it stands there. -/
  | declaration (line : Option Nat) (fault : Fault)
deriving DecidableEq, Repr

/-- The text of an error. -/
def GrammarError.message : GrammarError → String
  | .description e => "Syntax error: " ++ e.message
  | .declaration none fault => "Other error: " ++ fault.message
  | .declaration (some line) fault =>
    "Other error: line " ++ toString line ++ ": " ++ fault.message

namespace Description

/-- Declares what a line stands for; a fault is reported at that line. -/
def atLine {α : Type} (line : Nat) (build : Build α) : StateT Builder (Except GrammarError) α :=
  fun b => (build b).mapError (.declaration (some line))

/-- The symbol of a name; a name not met before is that of a nonterminal. -/
def resolve (name : Char) : Build Symbol := do
  let b ← get
  match b.symbol? name.toString with
  | some s => pure s
  | none => .nonterminal <$> Builder.nonterminal name.toString

/-- Declares a production. -/
def declare (p : Production) : Build RuleId := do
  match ← resolve p.left with
  | .terminal _ => throw (.terminalOnLeft p.left.toString)
  | .nonterminal left =>
    let right ← p.right.mapM resolve
    Builder.rule left right.toArray

/-- Starts from the nonterminal of that name if there is one. -/
def preferStart (name : String) : Build Unit := do
  let b ← get
  match b.nonterminal? name with
  | some n => Builder.startFrom n
  | none => pure ()

/-- Declares everything that a description lists. -/
def build (d : Description) : StateT Builder (Except GrammarError) Unit := do
  d.nonterminals.forM fun l => discard (atLine l.line (Builder.nonterminal l.value.toString))
  d.terminals.forM fun l => discard (atLine l.line (Builder.terminal l.value.toString))
  d.productions.forM fun l => discard (atLine l.line (declare l.value))
  fun b => (preferStart "S" b).mapError (.declaration none)

end Description

namespace Grammar

/-- The grammar of a description. -/
def ofDescription (d : Description) : Except GrammarError Grammar := do
  let (_, b) ← d.build .empty
  b.finish.mapError (.declaration none)

/-- The grammar that a text describes. -/
def ofText (text : String) : Except GrammarError Grammar := do
  let d ← (Description.ofText text).mapError .description
  ofDescription d

end Grammar

end SimpleLR

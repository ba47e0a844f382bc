import SimpleLR.Grammar.Description.Basic
import SimpleLR.Symbol
import SimpleLR.Text.Blank

/-!
# Reading descriptions

The line-based text format: the numbers of nonterminals, of terminals and of rules, then that many
nonterminal names, terminal names and rules, one on each line. A rule is `LEFT->RIGHT`, with the
symbols of the right side side by side; nothing, or the empty mark alone, is the empty right side.
Blanks around all of these are skipped, and only blank lines may follow.
-/

namespace SimpleLR.Description

/-! ## The parts of a line -/

/-- The number written by decimal digits, none if there is no digit or another character. -/
def digits? (cs : List Char) : Option Nat :=
  if cs.isEmpty || !cs.all Char.isDigit then none
  else some (cs.foldl (fun n c => 10 * n + (c.toNat - 48)) 0)

/-- Counts are below 2 to the 64th. -/
def countLimit : Nat := 0x10000000000000000

/-- Reads a count, which may have a plus sign. -/
def count? (cs : List Char) : Option Nat :=
  (match cs with
    | '+' :: cs => digits? cs
    | cs => digits? cs).filter (· < countLimit)

/-- Whether a character may name a symbol. -/
def isSymbolName (c : Char) : Bool := !Text.isBlank c && c != emptyMark

/-- Reads the name of a symbol, a single character. -/
def symbolName (line : Nat) (cs : List Char) : Except Error Char :=
  match cs with
  | [c] => if isSymbolName c then pure c else throw ⟨line, .invalidSymbolName (String.ofList cs)⟩
  | _ => throw ⟨line, .invalidSymbolName (String.ofList cs)⟩

/-- Splits at the first arrow. -/
def splitArrow : List Char → Option (List Char × List Char)
  | [] => none
  | '-' :: '>' :: cs => some ([], cs)
  | c :: cs => (splitArrow cs).map fun (left, right) => (c :: left, right)

/-- Reads the right side of a rule. -/
def rightSide (line : Nat) (cs : List Char) : Except Error (List Char) :=
  if Text.trim cs = [emptyMark] then pure []
  else (cs.filter (!Text.isBlank ·)).mapM fun c => symbolName line [c]

/-- Reads a rule. -/
def production (line : Nat) (cs : List Char) : Except Error Production :=
  match splitArrow cs with
  | none => throw ⟨line, .missingArrow⟩
  | some (left, right) => do
    let left ← symbolName line (Text.trim left)
    let right ← rightSide line right
    pure ⟨left, right⟩

/-! ## Reading line by line -/

/-- The trimmed lines that are not read yet, and the number of the first of them. -/
structure Cursor where
  line : Nat
  rest : List (List Char)

/-- Reads some of the lines. -/
abbrev Reader := StateT Cursor (Except Error)

/-- Reads one line. -/
def nextLine (expected : Expected) : Reader (Located (List Char)) := fun c =>
  match c.rest with
  | [] => throw ⟨c.line, .missingLine expected⟩
  | text :: rest => pure (⟨c.line, text⟩, ⟨c.line + 1, rest⟩)

/-- Reads a line that holds a number. -/
def count (expected : Expected) : Reader Nat := do
  let l ← nextLine expected
  match count? l.value with
  | some n => pure n
  | none => throw ⟨l.line, .invalidCount (String.ofList l.value)⟩

/-- Reads `n` lines in the same way. -/
def located {α : Type} (expected : Expected) (read : Nat → List Char → Except Error α) :
    Nat → Reader (List (Located α))
  | 0 => pure []
  | n + 1 => do
    let l ← nextLine expected
    let x ← (read l.line l.value : Except Error α)
    let xs ← located expected read n
    pure (⟨l.line, x⟩ :: xs)

/-- Checks that only blank lines are left. -/
def nothingElse : List (List Char) → Nat → Except Error Unit
  | [], _ => pure ()
  | text :: rest, line =>
    if text.isEmpty then nothingElse rest (line + 1) else throw ⟨line, .trailingContent⟩

/-- Reads a whole description. -/
def read : Reader Description := do
  let nonterminalCount ← count .nonterminalCount
  let terminalCount ← count .terminalCount
  let ruleCount ← count .ruleCount
  let nonterminals ← located .nonterminalName symbolName nonterminalCount
  let terminals ← located .terminalName symbolName terminalCount
  let productions ← located .rule production ruleCount
  let c ← get
  nothingElse c.rest c.line
  pure { nonterminals, terminals, productions }

/-- Reads the lines of a description. -/
def ofLines (ls : List (List Char)) : Except Error Description :=
  read.run' ⟨1, ls.map Text.trim⟩

/-- Reads a description. -/
def ofText (text : String) : Except Error Description := ofLines (Text.lines '\n' text.toList)

end SimpleLR.Description

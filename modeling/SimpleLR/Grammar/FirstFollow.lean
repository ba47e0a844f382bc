import SimpleLR.Grammar.Basic
import SimpleLR.IndexSet.Reach

/-!
# FIRST and FOLLOW sets

A nonterminal is nullable when it derives the empty string. The FIRST set of a sequence of symbols
holds the terminals that begin what it derives; the FOLLOW set of a nonterminal holds the
terminals that come right after it in what any nonterminal derives, and the end of the input if
it can come last in what the start symbol derives. Both families are least families, computed once
for a grammar and kept in tables.
-/

namespace SimpleLR

/-! ## Nullable nonterminals -/

/-- Whether a sequence derives the empty string when the nonterminals of `nulls` do. -/
def nullableIn (nulls : IndexSet Nonterminal) (symbols : List Symbol) : Bool :=
  symbols.all fun
    | .terminal _ => false
    | .nonterminal n => n ∈ nulls

/-- Adds the left side of a rule whose right side is nullable already. -/
def addNullable (nulls : IndexSet Nonterminal) (r : Rule) : IndexSet Nonterminal :=
  if r.left ∈ nulls then nulls
  else if nullableIn nulls r.right.toList then nulls.insert r.left
  else nulls

namespace Grammar

/-- The left sides of the rules that are empty. -/
def emptyLefts (g : Grammar) : IndexSet Nonterminal :=
  .ofList ((g.rules.toList.filter (·.right.isEmpty)).map Rule.left)

/-- Goes through the rules in order; what one of them adds counts for those after it. -/
def nullableStep (g : Grammar) (nulls : IndexSet Nonterminal) : IndexSet Nonterminal :=
  g.rules.toList.foldl addNullable nulls

/-- The nonterminals that derive the empty string. -/
def nullable (g : Grammar) : IndexSet Nonterminal :=
  IndexSet.saturate g.nullableStep g.nonterminals.size g.emptyLefts

/-- The union of sets got from the rules of a nonterminal. -/
def unionOfRules {α : Type} (g : Grammar) (n : Nonterminal) (f : Rule → IndexSet α) :
    IndexSet α :=
  .unions ((g.rulesFor n).map fun r => f (g.rule r))

end Grammar

/-! ## FIRST -/

/-- The terminal that ends the nullable beginning of a sequence, if a terminal does. -/
def leadingTerminals (nulls : IndexSet Nonterminal) : List Symbol → TerminalSet
  | [] => ∅
  | .terminal t :: _ => .single t
  | .nonterminal n :: rest => if n ∈ nulls then leadingTerminals nulls rest else ∅

/-- The nonterminals before which a sequence is nullable. -/
def leadingNonterminals (nulls : IndexSet Nonterminal) : List Symbol → IndexSet Nonterminal
  | [] => ∅
  | .terminal _ :: _ => ∅
  | .nonterminal n :: rest =>
    if n ∈ nulls then (leadingNonterminals nulls rest).insert n else .single n

/-- A FIRST set, with a mark for the empty string. -/
structure First where
  terminals : TerminalSet
  nullable : Bool
deriving DecidableEq

/-- The text of a FIRST set, such as `{a, ε}`. -/
def First.render (f : First) (a : Alphabet) : String :=
  let marks := if f.nullable then [emptyMark.toString] else []
  "\x7b" ++ ", ".intercalate (f.terminals.toList.map a.terminalName ++ marks) ++ "\x7d"

/-- The tables of nullable nonterminals and FIRST sets of a grammar. -/
structure FirstTable where
  nulls : IndexSet Nonterminal
  firsts : Array TerminalSet

namespace FirstTable

/-- The tables of a grammar. -/
def ofGrammar (g : Grammar) : FirstTable :=
  let nulls := g.nullable
  { nulls
    firsts := leastFamily g.nonterminals.size
      (fun n => g.unionOfRules n fun r => leadingTerminals nulls r.right.toList)
      (fun n => g.unionOfRules n fun r => leadingNonterminals nulls r.right.toList) }

/-- Whether a symbol derives the empty string. -/
def isNullable (f : FirstTable) : Symbol → Bool
  | .terminal _ => false
  | .nonterminal n => n ∈ f.nulls

/-- FIRST of one symbol. -/
def first (f : FirstTable) : Symbol → First
  | .terminal t => ⟨.single t, false⟩
  | .nonterminal n => ⟨setAt f.firsts n, n ∈ f.nulls⟩

/-- FIRST of a sequence: the union up to the first symbol that is not nullable. -/
def firstOf (f : FirstTable) : List Symbol → First
  | [] => ⟨∅, true⟩
  | s :: rest =>
    let head := f.first s
    if head.nullable then
      let tail := f.firstOf rest
      ⟨head.terminals ∪ tail.terminals, tail.nullable⟩
    else head

end FirstTable

/-! ## FOLLOW -/

/-- What comes after each occurrence of a symbol in a sequence. -/
def remaindersAfter (x : Symbol) : List Symbol → List (List Symbol)
  | [] => []
  | s :: rest => if s = x then rest :: remaindersAfter x rest else remaindersAfter x rest

namespace FirstTable

/-- The terminals that begin what comes after `n` in a rule. -/
def followers (f : FirstTable) (n : Nonterminal) (r : Rule) : TerminalSet :=
  .unions ((remaindersAfter (.nonterminal n) r.right.toList).map fun rest =>
    (f.firstOf rest).terminals)

/-- Whether `n` occurs in a rule with only nullable symbols after it. -/
def endsWith (f : FirstTable) (n : Nonterminal) (r : Rule) : Bool :=
  (remaindersAfter (.nonterminal n) r.right.toList).any fun rest => (f.firstOf rest).nullable

end FirstTable

/-- The FIRST and FOLLOW sets of a grammar. -/
structure FirstFollow extends FirstTable where
  follows : Array TerminalSet

namespace FirstFollow

/-- Computes the sets of a grammar. -/
def ofGrammar (g : Grammar) : FirstFollow :=
  let f := FirstTable.ofGrammar g
  { f with
    follows := leastFamily g.nonterminals.size
      (fun n => (if n = .augmented then .single .endOfInput else ∅) ∪
        .unions (g.rules.toList.map (f.followers n)))
      (fun n => .ofList ((g.rules.toList.filter (f.endsWith n)).map Rule.left)) }

/-- FOLLOW of a nonterminal. -/
def follow (f : FirstFollow) (n : Nonterminal) : TerminalSet := setAt f.follows n

/-- The nonterminals whose sets are listed: all but the augmented one. -/
def listed (g : Grammar) : List Nonterminal :=
  g.nonterminalList.filter (· ≠ .augmented)

/-- The text of all FIRST and FOLLOW sets. -/
def render (f : FirstFollow) (g : Grammar) : String :=
  let lines (text : Nonterminal → String) :=
    String.join ((listed g).map fun n => "- " ++ g.nonterminalName n ++ " : " ++ text n ++ "\n")
  "#### first sets:\n" ++ lines (fun n => (f.first (.nonterminal n)).render g.toAlphabet) ++
  "#### follow sets:\n" ++ lines (fun n => g.renderSet (f.follow n))

end FirstFollow

end SimpleLR

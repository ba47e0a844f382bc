import SimpleLR.Grammar.FirstFollow
import SimpleLR.Search

/-!
# Searching for FIRST and FOLLOW sets

The sets of a grammar can be found one by one. The rules are gone through for nullable nonterminals
until a round has added none. The FIRST set of a nonterminal is found by a search through the rules
that may begin what it derives, its FOLLOW set by a search through the nonterminals that it may end.
-/

namespace SimpleLR

/-- Adds the left side of a rule if its right side is nullable, and marks that it was added. -/
def scanNullable (found : IndexSet Nonterminal × Bool) (r : Rule) : IndexSet Nonterminal × Bool :=
  if r.left ∈ found.1 then found
  else if nullableIn found.1 r.right.toList then (found.1.insert r.left, true)
  else found

namespace Grammar

/-- A round through the rules, from the nonterminals found so far; there is none when the round
before has added nothing. -/
def nullableRound (g : Grammar) : IndexSet Nonterminal × Bool →
    Option (IndexSet Nonterminal × (IndexSet Nonterminal × Bool))
  | (_, false) => none
  | (nulls, true) => some (nulls, g.rules.toList.foldl scanNullable (nulls, false))

/-- The rules of the nonterminals that begin a sequence, up to the first that is not nullable. -/
def rulesAhead (g : Grammar) (nulls : IndexSet Nonterminal) : List Symbol → List RuleId
  | [] => []
  | .terminal _ :: _ => []
  | .nonterminal n :: rest => g.rulesFor n ++ if n ∈ nulls then g.rulesAhead nulls rest else []

/-- The search through rules for a FIRST set. -/
def firstSearch (g : Grammar) (nulls : IndexSet Nonterminal) : Search RuleId TerminalSet where
  look r terminals := terminals ∪ leadingTerminals nulls (g.rule r).right.toList
  leads r := g.rulesAhead nulls (g.rule r).right.toList

/-- The search through nonterminals for a FOLLOW set. -/
def followSearch (g : Grammar) (f : FirstTable) : Search Nonterminal TerminalSet where
  look n terminals :=
    if n = .augmented then terminals.insert .endOfInput
    else terminals ∪ .unions (g.rules.toList.map (f.followers n))
  leads n :=
    if n = .augmented then []
    else g.rules.toList.flatMap fun r =>
      ((remaindersAfter (.nonterminal n) r.right.toList).filter fun rest =>
        (f.firstOf rest).nullable).map fun _ => r.left

end Grammar

end SimpleLR

import SimpleLR.Grammar.Basic

/-!
# Derivations

A derivation is the list of rules that a parser reduced, in that order. Read backwards it is a
rightmost derivation, which can be replayed from the start symbol.
-/

namespace SimpleLR

/-- The rules reduced while recognizing an input, in that order. -/
structure Derivation where
  reductions : List RuleId
deriving DecidableEq, Repr

/-- Rewrites the first nonterminal of a reversed form, if it is the left side of the rule. -/
def Rule.rewriteReversed (r : Rule) : List Symbol → Option (List Symbol)
  | [] => none
  | .terminal t :: rest => (r.rewriteReversed rest).map (.terminal t :: ·)
  | .nonterminal n :: rest =>
    if n = r.left then some (r.right.toList.reverse ++ rest) else none

/-- Rewrites the last nonterminal of a form, if it is the left side of the rule. -/
def Rule.rewriteLast (r : Rule) (form : List Symbol) : Option (List Symbol) :=
  (r.rewriteReversed form.reverse).map List.reverse

namespace Derivation

/-- The rules in the order in which a rightmost derivation applies them. -/
def rightmost (d : Derivation) : List RuleId := d.reductions.reverse

/-- The form to which the derivation leads from the start symbol, none if one of its rules does
not rewrite the last nonterminal. -/
def replay (d : Derivation) (g : Grammar) : Option (List Symbol) :=
  d.rightmost.foldlM (fun form r => (g.rule r).rewriteLast form) [.nonterminal g.start]

/-- The text of a derivation: its rules in rightmost order, one on each line. -/
def render (d : Derivation) (g : Grammar) : String :=
  String.join (d.rightmost.map fun r => g.renderRule r ++ "\n")

end Derivation

end SimpleLR

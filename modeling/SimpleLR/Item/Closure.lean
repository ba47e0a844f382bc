import SimpleLR.IndexSet.Reach
import SimpleLR.Item.Basic

/-!
# Closure and transitions of item sets

The closure of some items adds, for each nonterminal after a dot, the initial items of its rules.
Which nonterminals come after a dot in the end depends on left corners alone: `n` has the left
corner `m` when a rule of `n` begins with `m`. They are computed once for a grammar.
-/

namespace SimpleLR

namespace Grammar

/-- The nonterminals with which the rules of `n` begin. -/
def leftCorners (g : Grammar) (n : Nonterminal) : IndexSet Nonterminal :=
  .ofList ((g.rulesFor n).filterMap fun r => (g.rule r).right[0]?.bind Symbol.nonterminal?)

/-- For each nonterminal, itself and the left corners that it has directly or through others. -/
def cornerTable (g : Grammar) : Array (IndexSet Nonterminal) :=
  leastFamily g.nonterminals.size .single g.leftCorners

end Grammar

namespace ItemSet

/-- The nonterminals after the dots of some items, and everything at their left corners. -/
def expanded (g : Grammar) (corners : Array (IndexSet Nonterminal)) (core : List Item) :
    IndexSet Nonterminal :=
  .unions ((core.filterMap fun i => (i.next? g).bind Symbol.nonterminal?).map (setAt corners))

/-- The closure of some items, by a table of left corners. -/
def closureBy (g : Grammar) (corners : Array (IndexSet Nonterminal)) (core : List Item) :
    ItemSet :=
  let nonterminals := expanded g corners core
  ofList (core ++ (g.ruleIds.filter fun r => (g.rule r).left ∈ nonterminals).map Item.initial)

/-- The closure of some items. -/
def closure (g : Grammar) (core : List Item) : ItemSet := closureBy g g.cornerTable core

/-- The items of a set that have `x` after the dot, with the dot moved over it. -/
def kernel (g : Grammar) (s : ItemSet) (x : Symbol) : List Item :=
  s.items.filterMap fun i => if i.next? g = some x then i.advance? g else none

/-- The set from which reading starts. -/
def initial (g : Grammar) : ItemSet := closure g [.initial .accept]

/-- The set reached over a symbol. -/
def goto (g : Grammar) (s : ItemSet) (x : Symbol) : ItemSet := closure g (s.kernel g x)

end ItemSet

end SimpleLR

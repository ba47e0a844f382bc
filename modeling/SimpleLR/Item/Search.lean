import SimpleLR.Item.Basic
import SimpleLR.Search

/-!
# Searching for items

The closure of some items can be found by a search that leads from an item to the initial items of
the rules of the nonterminal after its dot. The items found are sorted, repetitions are taken out,
and then an item is looked up by halving.
-/

namespace SimpleLR

/-- The search for the items of a closure. -/
def Grammar.closureSearch (g : Grammar) : Search Item Unit where
  look _ := id
  leads i :=
    match i.next? g with
    | some (.nonterminal n) => (g.rulesFor n).map .initial
    | _ => []

/-- Whether an item may come before another one. -/
def Item.atMost (i j : Item) : Bool := i.code ≤ j.code

/-- The items of a list in order, each once. -/
def Item.sort (l : List Item) : List Item := (l.mergeSort atMost).eraseReps

/-- Halves so many places, from one on, until one is left: the upper half is kept if what is looked
for does not lie below its first place. -/
def halve (below : Nat → Bool) (place count : Nat) : Nat :=
  if count ≤ 1 then place
  else
    let middle := place + count / 2
    halve below (if below middle then place else middle) (count - count / 2)
termination_by count

namespace ItemSet

/-- Whether an item is found by halving. -/
def contains (s : ItemSet) (i : Item) : Bool :=
  s.items[halve (fun place => s.items[place]?.any fun j => decide (i.Before j)) 0 s.size]? = some i

end ItemSet

end SimpleLR

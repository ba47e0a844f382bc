import SimpleLR.Item.Closure
import Std.Data.TreeMap

/-!
# Canonical collections

The item sets reached from the initial one, numbered in the order of their discovery: states by
number, and for each state the symbols in order. At most 65536 states can be numbered.
-/

namespace SimpleLR

/-- The number of states that can be told apart. -/
def stateLimit : Nat := 65536

/-- The states found so far, and the transitions of those that have been explored. -/
structure Collection where
  /-- The item sets, each at the place of its number. -/
  states : Array ItemSet
  /-- The number of each item set, by the codes of its items. -/
  numbers : Std.TreeMap (List Nat) StateId
  /-- The transitions of each explored state, by symbol. -/
  rows : Array (List (Symbol × StateId))

namespace Collection

/-- The collection of one state that is not explored yet. -/
def single (s : ItemSet) : Collection where
  states := #[s]
  numbers := .insert ∅ s.codes .initial
  rows := #[]

/-- The number of an item set, a new one if it has none; fails if no number is left. -/
def number (s : ItemSet) : StateT Collection Option StateId := fun c =>
  match c.numbers[s.codes]? with
  | some id => some (id, c)
  | none =>
    if c.states.size < stateLimit then
      let id : StateId := ⟨c.states.size⟩
      some (id, { c with states := c.states.push s, numbers := c.numbers.insert s.codes id })
    else none

/-- The transitions of an item set over some symbols. -/
def row (g : Grammar) (corners : Array (IndexSet Nonterminal)) (s : ItemSet) :
    List Symbol → StateT Collection Option (List (Symbol × StateId))
  | [] => pure []
  | x :: xs => do
    let core := s.kernel g x
    if core.isEmpty then row g corners s xs
    else
      let target ← number (ItemSet.closureBy g corners core)
      let rest ← row g corners s xs
      pure ((x, target) :: rest)

/-- Explores states in the order of their numbers, at most as many as `rounds`. -/
def explore (g : Grammar) (corners : Array (IndexSet Nonterminal)) (symbols : List Symbol) :
    Nat → Collection → Option Collection
  | 0, c => some c
  | rounds + 1, c =>
    match c.states[c.rows.size]? with
    | none => some c
    | some s =>
      match row g corners s symbols c with
      | none => none
      | some (r, c) => explore g corners symbols rounds { c with rows := c.rows.push r }

/-- The canonical collection of a grammar, none if it has too many states. -/
def canonical (g : Grammar) : Option Collection :=
  let corners := g.cornerTable
  explore g corners g.symbols stateLimit
    (single (ItemSet.closureBy g corners [.initial .accept]))

end Collection

end SimpleLR

import SimpleLR.Automaton.Basic
import SimpleLR.Search

/-!
# Exploring states from a queue

The canonical collection can be found by a loop over a queue of states: the state that has waited
longest is taken, its transitions are placed symbol by symbol, and each item set met for the first
time becomes a new state at the end of the queue. The loop gives up when no number is left for one.
-/

namespace SimpleLR

/-- The states found so far, with the transitions placed so far, and those that wait to be taken. -/
structure Exploration where
  states : Array State
  /-- The number of each item set, by the codes of its items. -/
  numbers : Std.TreeMap (List Nat) StateId
  waiting : List StateId

namespace Exploration

/-- An item set is the only state, and waits. -/
def single (s : ItemSet) : Exploration where
  states := #[⟨.initial, s, []⟩]
  numbers := .insert ∅ s.codes .initial
  waiting := [.initial]

/-- The items of a state; none for a number that has not been given. -/
def itemsAt (e : Exploration) (id : StateId) : ItemSet :=
  (e.states[id.index]?.map State.items).getD .empty

/-- The number of an item set. A set that has none becomes a new state; if no number is left, the
exploration is given up with what it has found. -/
def number (s : ItemSet) (e : Exploration) : Except Exploration (StateId × Exploration) :=
  match e.numbers[s.codes]? with
  | some id => pure (id, e)
  | none =>
    if e.states.size < stateLimit then
      let id : StateId := ⟨e.states.size⟩
      pure (id, {
        states := e.states.push ⟨id, s, []⟩
        numbers := e.numbers.insert s.codes id
        waiting := e.waiting ++ [id] })
    else throw e

/-- Places a transition. -/
def place (e : Exploration) (source : StateId) (x : Symbol) (target : StateId) : Exploration :=
  { e with states := e.states.modify source.index fun s =>
      { s with actions := s.actions ++ [(x, .enter x target)] } }

/-- Follows a symbol from a state. -/
def follow (g : Grammar) (source : StateId) (e : Exploration) (x : Symbol) :
    Except Exploration Exploration :=
  let core := (e.itemsAt source).kernel g x
  if core.isEmpty then pure e
  else do
    let (target, e) ← e.number (ItemSet.closure g core)
    pure (e.place source x target)

/-- A round takes the state that has waited longest and follows all symbols from it. There is none
when no state waits, and when the exploration has been given up. -/
def round (g : Grammar) : Except Exploration Exploration →
    Option (StateId × Except Exploration Exploration)
  | .error _ => none
  | .ok e =>
    match e.waiting with
    | [] => none
    | id :: waiting => some (id, g.symbols.foldlM (follow g id) { e with waiting })

/-- The states found when the loop has ended, also when it has been given up. -/
def found : Except Exploration Exploration → Exploration
  | .ok e => e
  | .error e => e

/-- The automaton of a grammar, from the end of the loop. -/
def automaton (g : Grammar) : Except Exploration Exploration → Except BuildError Automaton
  | .error _ => throw .tooManyStates
  | .ok e => do
    let states ← e.states.toList.mapM (State.placeAll g (.ofGrammar g))
    pure { grammar := g, states := states.toArray }

end Exploration

end SimpleLR

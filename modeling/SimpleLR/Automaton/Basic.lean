import SimpleLR.Automaton.Collection
import SimpleLR.Grammar.FirstFollow

/-!
# SLR(1) automata

The canonical collection of a grammar with an action for each state and symbol: transitions come
first, then each complete item is reduced on the FOLLOW set of its left side. A cell that two
actions claim is a conflict, and the first one found refuses the grammar.
-/

namespace SimpleLR

/-- What an automaton does in a state on a symbol. -/
inductive Action where
  /-- Read the terminal. -/
  | shift (next : StateId)
  /-- Enter a state after a reduction to the nonterminal. -/
  | goto (next : StateId)
  /-- Reduce the right side of a rule. -/
  | reduce (rule : RuleId)
  /-- Accept the input. -/
  | accept
deriving DecidableEq, Repr

/-- The label of an action. -/
def Action.label : Action → String
  | .shift next => "Shift(" ++ next.label ++ ")"
  | .goto next => "Goto(" ++ next.label ++ ")"
  | .reduce rule => "Reduce(" ++ rule.label ++ ")"
  | .accept => "Accept"

/-- The text of an action. -/
def Action.render (g : Grammar) : Action → String
  | .shift next => "shift(" ++ next.label ++ ")"
  | .goto next => "goto(" ++ next.label ++ ")"
  | .reduce rule => "reduce(" ++ g.renderRule rule ++ ")"
  | .accept => "accept"

/-- Enters a state by the action that fits the symbol. -/
def Action.enter : Symbol → StateId → Action
  | .terminal _, next => .shift next
  | .nonterminal _, next => .goto next

/-- A state of an automaton; its actions are in the order in which they were placed. -/
structure State where
  id : StateId
  items : ItemSet
  actions : List (Symbol × Action)

namespace State

/-- The action on a symbol. -/
def action? (s : State) (x : Symbol) : Option Action := s.actions.lookup x

/-- The text of a state: its items and its actions. -/
def render (s : State) (g : Grammar) : String :=
  "#### State " ++ s.id.label ++ "\n## items\n" ++
  String.join (s.items.items.map fun i => "- " ++ i.render g ++ "\n") ++
  "## actions\n" ++
  String.join (s.actions.map fun (x, a) => "- " ++ g.symbolName x ++ " => " ++ a.render g ++ "\n")

/-- The rules of the complete items. -/
def completeRules (g : Grammar) (s : State) : List RuleId :=
  s.items.items.filterMap fun i => if i.isComplete g then some i.rule else none

end State

/-- The reasons for which a grammar has no automaton. -/
inductive BuildError where
  /-- A terminal can be shifted and a rule can be reduced. -/
  | shiftReduce (state : StateId) (symbol : Terminal) (shift : StateId) (reduce : RuleId)
  /-- Two rules can be reduced. -/
  | reduceReduce (state : StateId) (symbol : Terminal) (first second : RuleId)
  /-- There are more states than can be numbered. -/
  | tooManyStates
deriving DecidableEq, Repr

/-- The text of a build error. -/
def BuildError.message (g : Grammar) : BuildError → String
  | .shiftReduce state symbol shift reduce =>
    "shift/reduce conflict in state " ++ toString state.index ++ " on `" ++
      g.terminalName symbol ++ "': shift(" ++ toString shift.index ++ ") or reduce(" ++
      g.renderRule reduce ++ ")"
  | .reduceReduce state symbol first second =>
    "reduce/reduce conflict in state " ++ toString state.index ++ " on `" ++
      g.terminalName symbol ++ "': reduce(" ++ g.renderRule first ++ ") or reduce(" ++
      g.renderRule second ++ ")"
  | .tooManyStates => "too many states"

/-- The action for a complete item of a rule. -/
def Action.complete (r : RuleId) : Action := if r = .accept then .accept else .reduce r

namespace State

/-- Places the action for a complete item of a rule on a terminal. -/
def place (r : RuleId) (s : State) (t : Terminal) : Except BuildError State :=
  match s.action? (.terminal t) with
  | none => pure { s with actions := s.actions ++ [(.terminal t, .complete r)] }
  | some a =>
    if a = .complete r then pure s
    else match a with
      | .shift next | .goto next => throw (.shiftReduce s.id t next r)
      | .reduce first => throw (.reduceReduce s.id t first r)
      | .accept => throw (.reduceReduce s.id t .accept r)

/-- Places the actions for all complete items. -/
def placeAll (g : Grammar) (f : FirstFollow) (s : State) : Except BuildError State :=
  (s.completeRules g).foldlM (fun s r => (f.follow (g.rule r).left).toList.foldlM (place r) s) s

end State

/-- The SLR(1) automaton of a grammar. -/
structure Automaton where
  grammar : Grammar
  states : Array State

namespace Automaton

/-- The states of a collection with their transitions. -/
def transitions (c : Collection) : List State :=
  c.states.toList.mapIdx fun i items =>
    { id := ⟨i⟩, items, actions := (c.rows[i]?.getD []).map fun (x, n) => (x, .enter x n) }

/-- Builds the automaton of a grammar. -/
def build (g : Grammar) : Except BuildError Automaton := do
  match Collection.canonical g with
  | none => throw .tooManyStates
  | some c =>
    let f := FirstFollow.ofGrammar g
    let states ← (transitions c).mapM (State.placeAll g f)
    pure { grammar := g, states := states.toArray }

/-- The state of that number. -/
def state? (a : Automaton) (s : StateId) : Option State := a.states[s.index]?

/-- The action in a state on a symbol. -/
def action? (a : Automaton) (s : StateId) (x : Symbol) : Option Action :=
  (a.state? s).bind (·.action? x)

/-- The text of an automaton: its states, set apart by blank lines. -/
def render (a : Automaton) : String :=
  "\n".intercalate (a.states.toList.map fun s => s.render a.grammar)

end Automaton

end SimpleLR

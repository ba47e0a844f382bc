import SimpleLR.Grammar.Basic

/-!
# Declaring a grammar

A grammar is declared symbol by symbol and rule by rule. Each declaration either extends the
grammar so far or is refused with a fault, and a refused declaration changes nothing. The numbers
of the terminals, nonterminals and rules are given in order of declaration.
-/

namespace SimpleLR

/-- The things that are numbered in a grammar. -/
inductive Kind where
  | terminals
  | nonterminals
  | rules
deriving DecidableEq, Repr

/-- The name of a kind. -/
def Kind.name : Kind → String
  | .terminals => "terminals"
  | .nonterminals => "nonterminals"
  | .rules => "rules"

/-- The reasons for which a declaration is refused. -/
inductive Fault where
  /-- The name may not be given to a symbol. -/
  | incorrectName (name : String)
  /-- The name belongs to another symbol. -/
  | alreadyDeclared (name : String)
  /-- No number is left for another one of the kind. -/
  | tooMany (kind : Kind)
  /-- The left side of a rule is not a declared nonterminal. -/
  | unknownLeft
  /-- The right side of a rule mentions a symbol that is not declared. -/
  | unknownRight
  /-- There is a rule with the same left and right side. -/
  | duplicateRule
  /-- The start symbol is not a declared nonterminal. -/
  | unknownStart
  /-- There is no nonterminal to start from. -/
  | noNonterminal
  /-- A terminal stands on the left of a rule. -/
  | terminalOnLeft (name : String)
deriving DecidableEq, Repr

/-- The text of a fault. -/
def Fault.message : Fault → String
  | .incorrectName name => "incorrect symbol name: `" ++ name ++ "'"
  | .alreadyDeclared name => "The symbol `" ++ name ++ "' has already been declared"
  | .tooMany kind => "too many " ++ kind.name
  | .unknownLeft => "unknown left-hand side of production rule"
  | .unknownRight => "unknown symbol in production rule"
  | .duplicateRule => "Duplicate production rule detected"
  | .unknownStart => "unknown start symbol"
  | .noNonterminal => "empty nonterminal symbols"
  | .terminalOnLeft name => "the terminal `" ++ name ++ "' cannot be the left-hand side of a rule"

/-- The numbers of each kind are below this one. -/
def numberLimit : Nat := 65535

/-- What has been declared of a grammar so far, without the augmenting rule. -/
structure Builder extends Alphabet where
  rules : Array Rule
  start : Option Nonterminal
  rules_declared : ∀ r ∈ rules.toList, toAlphabet.DeclaresRule r
  rules_nodup : rules.toList.Nodup
  start_declared : ∀ n ∈ start, toAlphabet.Declares (.nonterminal n)

/-- A declaration that may be refused. -/
abbrev Build := StateT Builder (Except Fault)

namespace Builder

/-- Nothing is declared yet. -/
def empty : Builder where
  toAlphabet := .reserved
  rules := #[]
  start := none
  rules_declared := by simp
  rules_nodup := by simp
  start_declared := by simp

/-- What is known of an alphabet stays known in a larger one. -/
def withAlphabet (b : Builder) (a : Alphabet)
    (mono : ∀ s, b.toAlphabet.Declares s → a.Declares s) : Builder where
  toAlphabet := a
  rules := b.rules
  start := b.start
  rules_declared := fun r hr =>
    ⟨mono _ (b.rules_declared r hr).1, fun s hs => mono _ ((b.rules_declared r hr).2 s hs)⟩
  rules_nodup := b.rules_nodup
  start_declared := fun n hn => mono _ (b.start_declared n hn)

/-- Declares a terminal. -/
def terminal (name : String) : Build Terminal := fun b =>
  if !Alphabet.isAcceptable name then throw (.incorrectName name)
  else if fresh : name ∉ b.names then
    if b.terminals.size < numberLimit then
      pure (⟨b.terminals.size⟩,
        b.withAlphabet (b.addTerminal name fresh) fun _ h => h.addTerminal)
    else throw (.tooMany .terminals)
  else throw (.alreadyDeclared name)

/-- Declares a nonterminal. -/
def nonterminal (name : String) : Build Nonterminal := fun b =>
  if !Alphabet.isAcceptable name then throw (.incorrectName name)
  else if fresh : name ∉ b.names then
    if b.nonterminals.size < numberLimit then
      pure (⟨b.nonterminals.size⟩,
        b.withAlphabet (b.addNonterminal name fresh) fun _ h => h.addNonterminal)
    else throw (.tooMany .nonterminals)
  else throw (.alreadyDeclared name)

theorem declaresRule_of_mem_push {a : Alphabet} {rules : Array Rule} {rule r : Rule}
    (h : ∀ r ∈ rules.toList, a.DeclaresRule r) (hr : a.DeclaresRule rule)
    (mem : r ∈ (rules.push rule).toList) : a.DeclaresRule r := by
  simp only [Array.toList_push, List.mem_append, List.mem_singleton] at mem
  rcases mem with mem | rfl
  · exact h r mem
  · exact hr

theorem nodup_push {rules : Array Rule} {rule : Rule} (h : rules.toList.Nodup)
    (fresh : rule ∉ rules.toList) : (rules.push rule).toList.Nodup := by
  simp only [Array.toList_push]
  grind

/-- What is declared with one more rule. -/
def addRule (b : Builder) (rule : Rule) (declared : b.toAlphabet.DeclaresRule rule)
    (fresh : rule ∉ b.rules.toList) : Builder where
  toAlphabet := b.toAlphabet
  rules := b.rules.push rule
  start := b.start
  rules_declared := fun _ mem => declaresRule_of_mem_push b.rules_declared declared mem
  rules_nodup := nodup_push b.rules_nodup fresh
  start_declared := b.start_declared

/-- Declares a rule. -/
def rule (left : Nonterminal) (right : Array Symbol) : Build RuleId := fun b =>
  if hl : b.toAlphabet.Declares (.nonterminal left) then
    if hr : b.toAlphabet.DeclaresAll right.toList then
      if fresh : ⟨left, right⟩ ∉ b.rules.toList then
        if b.rules.size + 1 < numberLimit then
          pure (⟨b.rules.size + 1⟩, b.addRule ⟨left, right⟩ ⟨hl, hr⟩ fresh)
        else throw (.tooMany .rules)
      else throw .duplicateRule
    else throw .unknownRight
  else throw .unknownLeft

/-- Names the start symbol. -/
def startFrom (symbol : Nonterminal) : Build Unit := fun b =>
  if h : b.toAlphabet.Declares (.nonterminal symbol) then
    pure ((), { b with start := some symbol, start_declared := by simpa using h })
  else throw .unknownStart

/-- The grammar that starts from `start`. -/
def augment (b : Builder) (start : Nonterminal)
    (declared : b.toAlphabet.Declares (.nonterminal start)) : Grammar where
  toAlphabet := b.toAlphabet
  start := start
  rules := #[.augmenting start] ++ b.rules
  start_declared := declared
  rules_zero := by rw [Array.getElem?_append_left (by simp)]; rfl
  rules_declared := by simpa using b.rules_declared
  rules_nodup := by
    have := b.rules_nodup
    simp only [Array.toList_append, List.cons_append, List.nil_append, List.nodup_cons]
    refine ⟨fun h => ?_, this⟩
    have := (b.rules_declared _ h).1
    simp [Rule.augmenting, Alphabet.Declares, Nonterminal.augmented] at this

/-- The grammar declared; it starts from the first nonterminal unless another one was named. -/
def finish (b : Builder) : Except Fault Grammar :=
  match h : b.start with
  | some n => pure (b.augment n (b.start_declared n h))
  | none =>
    if h : b.toAlphabet.Declares (.nonterminal ⟨1⟩) then pure (b.augment ⟨1⟩ h)
    else throw .noNonterminal

end Builder

/-- Runs declarations from the beginning, up to the first that is refused. -/
def Grammar.define (script : Build Unit) : Except Fault Grammar := do
  let (_, b) ← script .empty
  b.finish

/-- A declaration, as data. -/
inductive Declaration where
  | terminal (name : String)
  | nonterminal (name : String)
  | rule (left : Nonterminal) (right : Array Symbol)
  | start (symbol : Nonterminal)
deriving DecidableEq, Repr

/-- What a declaration has added. -/
inductive Declared where
  | terminal (t : Terminal)
  | nonterminal (n : Nonterminal)
  | rule (r : RuleId)
  | start
deriving DecidableEq, Repr

namespace Declaration

/-- Makes a declaration. -/
def run : Declaration → Build Declared
  | .terminal name => .terminal <$> Builder.terminal name
  | .nonterminal name => .nonterminal <$> Builder.nonterminal name
  | .rule left right => .rule <$> Builder.rule left right
  | .start symbol => (fun _ => .start) <$> Builder.startFrom symbol

/-- Makes declarations up to the first that is refused; says what each did. -/
def runAll : List Declaration → Builder → List (Except Fault Declared) × Except Fault Builder
  | [], b => ([], .ok b)
  | d :: ds, b =>
    match d.run b with
    | .error e => ([.error e], .error e)
    | .ok (x, b) => (runAll ds b).map (.ok x :: ·) id

/-- Makes the declarations that are not refused; says what each did. -/
def runEach : List Declaration → Builder → List (Except Fault Declared) × Builder
  | [], b => ([], b)
  | d :: ds, b =>
    match d.run b with
    | .error e => (runEach ds b).map (.error e :: ·) id
    | .ok (x, b) => (runEach ds b).map (.ok x :: ·) id

end Declaration

end SimpleLR

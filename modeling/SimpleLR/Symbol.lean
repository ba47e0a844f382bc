import SimpleLR.IndexSet.Basic

/-!
# Symbols and the numbers of rules and states

Terminals, nonterminals, rules and states are numbered from zero. The first terminal stands for
the end of the input, the first nonterminal and the first rule belong to the augmentation of a
grammar, and the first state is the initial one. Each kind of number has a label, such as `T#001`.
-/

namespace SimpleLR

/-- Writes a number with at least three digits. -/
def threeDigits (n : Nat) : String :=
  "".pushn '0' (3 - (toString n).length) ++ toString n

/-- A terminal symbol, by its number. -/
structure Terminal where
  index : Nat
deriving DecidableEq, Repr

namespace Terminal

instance : Indexed Terminal := ⟨index, mk, fun _ => rfl, fun _ => rfl⟩

@[simp] theorem index_eq (t : Terminal) : Indexed.index t = t.index := rfl

/-- The terminal that is read when no token is left. -/
def endOfInput : Terminal := ⟨0⟩

/-- The label of a terminal. -/
def label (t : Terminal) : String :=
  if t = endOfInput then "T#End" else "T#" ++ threeDigits t.index

end Terminal

/-- A nonterminal symbol, by its number. -/
structure Nonterminal where
  index : Nat
deriving DecidableEq, Repr

namespace Nonterminal

instance : Indexed Nonterminal := ⟨index, mk, fun _ => rfl, fun _ => rfl⟩

@[simp] theorem index_eq (n : Nonterminal) : Indexed.index n = n.index := rfl

/-- The left side of the augmenting rule. -/
def augmented : Nonterminal := ⟨0⟩

/-- The label of a nonterminal. -/
def label (n : Nonterminal) : String :=
  if n = augmented then "N#Start" else "N#" ++ threeDigits n.index

end Nonterminal

/-- A symbol of a grammar. -/
inductive Symbol where
  | terminal (t : Terminal)
  | nonterminal (n : Nonterminal)
deriving DecidableEq, Repr

/-- The label of a symbol. -/
def Symbol.label : Symbol → String
  | .terminal t => t.label
  | .nonterminal n => n.label

/-- The nonterminal that a symbol is. -/
def Symbol.nonterminal? : Symbol → Option Nonterminal
  | .terminal _ => none
  | .nonterminal n => some n

/-- Stands for the empty sequence of symbols, in descriptions and in output. -/
def emptyMark : Char := 'ε'

/-- A set of terminals. -/
abbrev TerminalSet := IndexSet Terminal

/-- The number of a rule. -/
structure RuleId where
  index : Nat
deriving DecidableEq, Repr

namespace RuleId

instance : Indexed RuleId := ⟨index, mk, fun _ => rfl, fun _ => rfl⟩

/-- The augmenting rule, which is reduced last of all. -/
def accept : RuleId := ⟨0⟩

/-- The label of a rule. -/
def label (r : RuleId) : String :=
  if r = accept then "R#Accept" else "R#" ++ threeDigits r.index

end RuleId

/-- The number of a state of an automaton. -/
structure StateId where
  index : Nat
deriving DecidableEq, Repr

namespace StateId

/-- The state in which nothing has been read. -/
def initial : StateId := ⟨0⟩

/-- The label of a state. -/
def label (s : StateId) : String := "S#" ++ threeDigits s.index

end StateId

end SimpleLR

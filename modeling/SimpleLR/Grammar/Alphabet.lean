import SimpleLR.Symbol
import SimpleLR.Text.Blank

/-!
# Alphabets

The names of the symbols of a grammar. A symbol's number is the place of its name, and no name is
given twice, not even to a terminal and a nonterminal. The first place of either kind is taken by
a reserved symbol.
-/

namespace SimpleLR

/-- The names of the terminals and of the nonterminals, each at the place of its number. -/
structure Alphabet where
  terminals : Array String
  nonterminals : Array String
  terminals_zero : terminals[0]? = some "$end"
  nonterminals_zero : nonterminals[0]? = some "$start"
  names_nodup : (terminals.toList ++ nonterminals.toList).Nodup

namespace Alphabet

/-- The alphabet of the two reserved symbols. -/
def reserved : Alphabet where
  terminals := #["$end"]
  nonterminals := #["$start"]
  terminals_zero := rfl
  nonterminals_zero := rfl
  names_nodup := by decide

/-- The names in use. -/
def names (a : Alphabet) : List String := a.terminals.toList ++ a.nonterminals.toList

/-- Whether a name may be given to a symbol: it is not empty, does not start with a dollar sign,
and has no blanks. -/
def isAcceptable (name : String) : Bool :=
  match name.toList with
  | [] => false
  | c :: cs => c != '$' && (c :: cs).all (!Text.isBlank ·)

/-- The alphabet with one more terminal. -/
def addTerminal (a : Alphabet) (name : String) (fresh : name ∉ a.names) : Alphabet where
  terminals := a.terminals.push name
  nonterminals := a.nonterminals
  terminals_zero := by
    have h := (Array.getElem?_eq_some_iff.1 a.terminals_zero).1
    rw [Array.getElem?_push, if_neg (by omega), a.terminals_zero]
  nonterminals_zero := a.nonterminals_zero
  names_nodup := by
    have := a.names_nodup
    simp only [names, List.mem_append, not_or] at fresh
    simp only [Array.toList_push, List.append_assoc]
    grind

/-- The alphabet with one more nonterminal. -/
def addNonterminal (a : Alphabet) (name : String) (fresh : name ∉ a.names) : Alphabet where
  terminals := a.terminals
  nonterminals := a.nonterminals.push name
  terminals_zero := a.terminals_zero
  nonterminals_zero := by
    have h := (Array.getElem?_eq_some_iff.1 a.nonterminals_zero).1
    rw [Array.getElem?_push, if_neg (by omega), a.nonterminals_zero]
  names_nodup := by
    have := a.names_nodup
    simp only [names, List.mem_append, not_or] at fresh
    simp only [Array.toList_push]
    grind

/-- Whether a symbol has a name. -/
def hasName (a : Alphabet) : Symbol → Bool
  | .terminal t => t.index < a.terminals.size
  | .nonterminal n => n.index < a.nonterminals.size

/-- The name of a terminal. -/
def terminalName (a : Alphabet) (t : Terminal) : String := a.terminals[t.index]?.getD ""

/-- The name of a nonterminal. -/
def nonterminalName (a : Alphabet) (n : Nonterminal) : String :=
  a.nonterminals[n.index]?.getD ""

/-- The name of a symbol. -/
def symbolName (a : Alphabet) : Symbol → String
  | .terminal t => a.terminalName t
  | .nonterminal n => a.nonterminalName n

/-- The terminal of that name. -/
def terminal? (a : Alphabet) (name : String) : Option Terminal :=
  (a.terminals.toList.findIdx? (· == name)).map Terminal.mk

/-- The nonterminal of that name. -/
def nonterminal? (a : Alphabet) (name : String) : Option Nonterminal :=
  (a.nonterminals.toList.findIdx? (· == name)).map Nonterminal.mk

/-- The symbol of that name. -/
def symbol? (a : Alphabet) (name : String) : Option Symbol :=
  (a.terminal? name).map .terminal <|> (a.nonterminal? name).map .nonterminal

/-- All terminals, the end of the input first. -/
def terminalList (a : Alphabet) : List Terminal := (List.range a.terminals.size).map Terminal.mk

/-- All nonterminals, the augmented one first. -/
def nonterminalList (a : Alphabet) : List Nonterminal :=
  (List.range a.nonterminals.size).map Nonterminal.mk

/-- All symbols, the terminals first. -/
def symbols (a : Alphabet) : List Symbol :=
  a.terminalList.map .terminal ++ a.nonterminalList.map .nonterminal

/-- A symbol is declared when it has a name and is not reserved. -/
def Declares (a : Alphabet) : Symbol → Prop
  | .terminal t => 0 < t.index ∧ t.index < a.terminals.size
  | .nonterminal n => 0 < n.index ∧ n.index < a.nonterminals.size

instance (a : Alphabet) (s : Symbol) : Decidable (a.Declares s) :=
  match s with
  | .terminal t => inferInstanceAs (Decidable (0 < t.index ∧ t.index < a.terminals.size))
  | .nonterminal n => inferInstanceAs (Decidable (0 < n.index ∧ n.index < a.nonterminals.size))

/-- Every symbol of a sequence is declared. -/
def DeclaresAll (a : Alphabet) (symbols : List Symbol) : Prop := ∀ s ∈ symbols, a.Declares s

instance (a : Alphabet) (symbols : List Symbol) : Decidable (a.DeclaresAll symbols) :=
  decidable_of_iff (symbols.all fun s => decide (a.Declares s)) (by simp [DeclaresAll])

variable {a : Alphabet} {name : String} {fresh : name ∉ a.names} {s : Symbol}

theorem Declares.addTerminal (h : a.Declares s) : (a.addTerminal name fresh).Declares s := by
  cases s <;> simp only [Declares, Alphabet.addTerminal, Array.size_push] at * <;> omega

theorem Declares.addNonterminal (h : a.Declares s) :
    (a.addNonterminal name fresh).Declares s := by
  cases s <;> simp only [Declares, Alphabet.addNonterminal, Array.size_push] at * <;> omega

end Alphabet

end SimpleLR

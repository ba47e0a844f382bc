import SimpleLR.Automaton.Basic
import SimpleLR.Grammar.Derivation
import SimpleLR.Parser.Basic

/-!
# Recognition by an automaton

An automaton is a parse table whose tokens are terminals. A token sequence, or a string whose
characters name terminals, is recognized by running a parser over that table. Some grammars have
automata that reduce forever on a wrong input, so the number of events is limited.
-/

namespace SimpleLR

namespace Automaton

/-- What an action is in a parse table; a nonterminal is not read, so it has no action there. -/
def parseAction (g : Grammar) : Action → Option (ParseAction StateId Nonterminal RuleId)
  | .shift next => some (.shift next)
  | .goto _ => none
  | .reduce r => some (.reduce r (g.rule r).left (g.rule r).right.size)
  | .accept => some .accept

/-- The automaton as a parse table. -/
def table (a : Automaton) : ParseTable StateId Terminal Nonterminal RuleId where
  initial := .initial
  action s ahead :=
    (a.action? s (.terminal (ahead.getD .endOfInput))).bind (parseAction a.grammar)
  goto s n :=
    match a.action? s (.nonterminal n) with
    | some (.goto next) => some next
    | _ => none

variable {ε : Type}

/-- Recognizes a token sequence, within a number of events. -/
def parse (a : Automaton) (events : Nat) (tokens : List (Except ε Terminal)) :
    Option (Except (ParseError ε) Derivation) :=
  (Parser.collect a.table events (.start a.table) tokens []).map fun (result, _, _) =>
    result.map Derivation.mk

/-- The terminal that a character names, unless it is the reserved one. -/
def token (a : Automaton) (c : Char) : Except Char Terminal :=
  match a.grammar.terminal? c.toString with
  | some t => if t = .endOfInput then throw c else pure t
  | none => throw c

/-- The tokens of a string, blanks skipped; a character that names no terminal is an error. -/
def tokens (a : Automaton) (text : String) : List (Except Char Terminal) :=
  (text.toList.filter (!Text.isBlank ·)).map a.token

/-- Recognizes a string, within a number of events. -/
def parseString (a : Automaton) (events : Nat) (text : String) :
    Option (Except (ParseError Char) Derivation) :=
  a.parse events (a.tokens text)

/-- The text of the error for a character that names no terminal. -/
def unknownSymbol (c : Char) : String := "unknown symbol `" ++ c.toString ++ "'"

end Automaton

end SimpleLR

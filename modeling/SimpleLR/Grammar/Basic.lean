import SimpleLR.Grammar.Alphabet

/-!
# Context-free grammars

A grammar has an alphabet, a start symbol and numbered rules. It is augmented: rule 0 rewrites the
reserved nonterminal to the start symbol, and no other rule mentions a reserved symbol.
-/

namespace SimpleLR

/-- A rule that rewrites `left` to `right`. -/
structure Rule where
  left : Nonterminal
  right : Array Symbol
deriving DecidableEq, Repr

/-- The rule that rewrites the reserved nonterminal to the start symbol. -/
def Rule.augmenting (start : Nonterminal) : Rule := ⟨.augmented, #[.nonterminal start]⟩

/-- An alphabet declares a rule when it declares each symbol of it. -/
def Alphabet.DeclaresRule (a : Alphabet) (r : Rule) : Prop :=
  a.Declares (.nonterminal r.left) ∧ a.DeclaresAll r.right.toList

instance (a : Alphabet) (r : Rule) : Decidable (a.DeclaresRule r) :=
  inferInstanceAs (Decidable (a.Declares (.nonterminal r.left) ∧ a.DeclaresAll r.right.toList))

/-- A context-free grammar whose rules start with the augmenting one. -/
structure Grammar extends Alphabet where
  start : Nonterminal
  rules : Array Rule
  start_declared : toAlphabet.Declares (.nonterminal start)
  rules_zero : rules[0]? = some (.augmenting start)
  rules_declared : ∀ r ∈ rules.toList.tail, toAlphabet.DeclaresRule r
  rules_nodup : rules.toList.Nodup

/-- The text of a rule, such as `A -> x y`. -/
def Rule.render (r : Rule) (a : Alphabet) : String :=
  a.nonterminalName r.left ++ " -> " ++
    if r.right.isEmpty then emptyMark.toString
    else " ".intercalate (r.right.toList.map a.symbolName)

/-- The text of a set of terminals, such as `{a, b}`. -/
def Alphabet.renderSet (a : Alphabet) (s : TerminalSet) : String :=
  "\x7b" ++ ", ".intercalate (s.toList.map a.terminalName) ++ "\x7d"

namespace Grammar

/-- The rule of that number; a number beyond the rules reads as the augmenting rule. -/
def rule (g : Grammar) (r : RuleId) : Rule := g.rules[r.index]?.getD (.augmenting g.start)

/-- The numbers of the rules, in order. -/
def ruleIds (g : Grammar) : List RuleId := (List.range g.rules.size).map RuleId.mk

/-- The rules whose left side is `n`. -/
def rulesFor (g : Grammar) (n : Nonterminal) : List RuleId :=
  g.ruleIds.filter fun r => (g.rule r).left = n

/-- The text of the rule of that number. -/
def renderRule (g : Grammar) (r : RuleId) : String := (g.rule r).render g.toAlphabet

/-- The text of a grammar: its symbols, its start symbol and its rules with their numbers. -/
def render (g : Grammar) : String :=
  "#### terminals: " ++ ", ".intercalate g.terminals.toList ++
  "\n#### nonterminals: " ++ ", ".intercalate g.nonterminals.toList ++
  "\n#### start: " ++ g.nonterminalName g.start ++
  "\n#### rules:\n" ++
  String.join (g.ruleIds.map fun r =>
    "- [" ++ toString r.index ++ "] " ++ g.renderRule r ++ "\n")

variable {g : Grammar} {r : RuleId}

@[simp] theorem mem_ruleIds : r ∈ g.ruleIds ↔ r.index < g.rules.size := by
  obtain ⟨i⟩ := r
  simp [ruleIds]

@[simp] theorem rule_accept : g.rule .accept = .augmenting g.start := by
  simp [rule, RuleId.accept, g.rules_zero]

theorem rule_of_getElem? {x : Rule} (h : g.rules[r.index]? = some x) : g.rule r = x := by
  simp [rule, h]

@[simp] theorem mem_rulesFor {n : Nonterminal} :
    r ∈ g.rulesFor n ↔ r.index < g.rules.size ∧ (g.rule r).left = n := by
  simp [rulesFor]

end Grammar

end SimpleLR

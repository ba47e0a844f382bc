import SimpleLR.Proofs.Grammar.Rightmost
import SimpleLR.Proofs.Recognizer.Stack

/-!
# Soundness of recognition

The rules reported so far, the latest first, lead from the form on the stack to the tokens shifted
so far. A call keeps this, since it puts the left side of a rule in the place of its right side at
the end of the form; when the input is accepted, the form is the start symbol.
-/

namespace SimpleLR

namespace Automaton

variable {a : Automaton} {ε : Type} {p p' : Parser StateId Terminal Nonterminal}
  {form : List Symbol} {source rest : List (Except ε Terminal)} {done rules : List RuleId}
  {events : Nat} {u : List Terminal}

/-- A run from a stack that expands to `u` and accepts has read nothing but tokens, and its rules
expand the start symbol to `u` and these tokens. -/
theorem expand_of_collect (ha : a.Tabulates) (hs : a.Spells p.stack form)
    (reading : p.accepted = false) (hu : a.grammar.expand done form = some (u.map .terminal))
    (run : p.collect a.table events source done = some (.ok rules, p', rest)) :
    ∃ v : List Terminal, p.pending source = v.map .ok ∧
      a.grammar.expand rules.reverse [.nonterminal a.grammar.start] =
        some ((u ++ v).map .terminal) := by
  induction events generalizing p form source done u with
  | zero => cases run
  | succ events ih =>
    have turns := next_turns ha hs reading source
    rcases Parser.collect_cases run with ⟨e, _, failed⟩ | ⟨result, accepted⟩ | ⟨r, result, run⟩
    · cases failed
    · obtain ⟨v, pending, start⟩ := turns.of_accept result
      cases accepted
      refine ⟨v, pending, ?_⟩
      rw [List.reverse_reverse, ← start, List.map_append]
      exact Grammar.expand_append_terminals hu v
    · obtain ⟨v, form', pending, step, spells, reading'⟩ := turns.of_reduce result
      have expanded : a.grammar.expand (r :: done) form' = some ((u ++ v).map .terminal) := by
        rw [Grammar.expand_cons, step.rewriteLast, List.map_append]
        exact Grammar.expand_append_terminals hu v
      obtain ⟨v', pending', derived⟩ := ih spells reading' expanded run
      refine ⟨v ++ v', ?_, ?_⟩
      · rw [pending, pending', List.map_append]
      · rw [derived, List.append_assoc]

/-- Soundness of recognition: the rules of a derivation that is returned, taken backwards, rewrite
the start symbol to the tokens that were given, so these belong to the language. -/
theorem parse_sound {g : Grammar} (h : build g = .ok a) {w : List Terminal} {d : Derivation}
    (run : a.parse (ε := ε) events (w.map .ok) = some (.ok d)) :
    d.replay g = some (w.map .terminal) ∧ g.Generates w := by
  obtain ⟨rfl, ha⟩ := tabulates_of_build h
  obtain ⟨collected, p', rest, collects, e⟩ := parse_eq_some_iff.1 run
  cases collected with
  | error _ => cases e
  | ok rules =>
    cases e
    obtain ⟨v, pending, result⟩ := expand_of_collect (u := []) ha .bottom rfl rfl collects
    obtain rfl : w = v := (List.map_inj_right fun _ _ ↦ Except.ok.inj).1 pending
    exact ⟨result, Derivation.derives_of_replay result⟩

/-- `a b` is recognized, and so it belongs to the language. -/
theorem parse_sound_nested :
    ∃ a, build .nested = .ok a ∧
      a.parse (ε := Empty) 3 ([⟨1⟩, ⟨2⟩].map .ok) = some (.ok ⟨[⟨2⟩, ⟨1⟩]⟩) ∧
      (Derivation.mk [⟨2⟩, ⟨1⟩]).replay .nested = some ([⟨1⟩, ⟨2⟩].map .terminal) ∧
      Grammar.nested.Generates [⟨1⟩, ⟨2⟩] := by
  obtain ⟨a, h⟩ := exists_build_nested
  have run : a.parse (ε := Empty) 3 ([⟨1⟩, ⟨2⟩].map .ok) = some (.ok ⟨[⟨2⟩, ⟨1⟩]⟩) :=
    eq_of_build (f := fun a ↦ a.parse 3 ([⟨1⟩, ⟨2⟩].map .ok)) h (by decide +kernel)
  exact ⟨a, h, run, parse_sound h run⟩

end Automaton

end SimpleLR

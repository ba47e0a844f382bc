import SimpleLR.Proofs.Parser.History
import SimpleLR.Proofs.Recognizer.Safety

/-!
# What a reduction hands out

The form that the stack of a parser spells ends with the right side of the rule that a call reports,
so the entries that are taken off are the symbols of the right side in their order. Each nonterminal
among them stems from an earlier report of one of its rules.
-/

namespace SimpleLR

namespace Automaton

variable {a : Automaton} {ε : Type} {p q q' : Parser StateId Terminal Nonterminal}
  {stack : List (Frame StateId Terminal Nonterminal)} {form front back : List Symbol}
  {r : RuleId} {n : Nonterminal} {ahead : Option Terminal}
  {pending pending' : List (Except ε Terminal)}
  {popped : Option (List (Entry Terminal Nonterminal))}

/-- The topmost entries are the last symbols of the form. -/
theorem Spells.take (h : a.Spells stack (front ++ back)) :
    (stack.take back.length).reverse.map Frame.entry = back.map .ofSymbol := by
  induction back using List.reverseRecOn generalizing stack with
  | nil => rfl
  | append_singleton back x ih =>
    rw [← List.append_assoc] at h
    obtain ⟨target, below, rfl, spells⟩ := h.pop
    rw [List.length_append, List.length_singleton, List.take_succ_cons, List.reverse_cons,
      List.map_append, ih spells, List.map_append]
    rfl

/-- While tokens are shifted, the stack spells a form. -/
theorem Spells.shifts (ha : a.Tabulates) (hs : a.Spells p.stack form)
    (h : Parser.Shifts a.table p pending q pending') :
    ∃ form', a.Spells q.stack form' := by
  induction h generalizing form with
  | refl => exact ⟨form, hs⟩
  | head e action _ ih => exact ih (hs.shift ha e action).2

/-- A reduction hands out the right side of its rule. -/
theorem popped_of_reduce (ha : a.Tabulates) (hs : a.Spells q.stack form)
    (h : Parser.Effect (ε := ε) a.table q ahead (.ended (.ok (.reduce r)) q' popped)) :
    popped = some ((a.grammar.rule r).right.toList.map .ofSymbol) := by
  cases h with
  | reduce e action =>
    obtain ⟨rfl, rfl, _, _, i, hi, complete, rfl⟩ := hs.exists_complete ha e action
    obtain ⟨front, rfl, _⟩ := ItemSet.exists_front_of_isComplete hi complete
    rw [← hs.take, Array.length_toList]

/-- The acceptance hands out the start symbol. -/
theorem popped_of_accept (ha : a.Tabulates) (hs : a.Spells q.stack form)
    (h : Parser.Effect (ε := ε) a.table q ahead (.ended (.ok .accept) q' popped)) :
    popped = some [.nonterminal a.grammar.start] := by
  cases h with
  | accept e _ action =>
    obtain rfl := hs.eq_start ha e action
    have spells : a.Spells q.stack ([] ++ [.nonterminal a.grammar.start]) := hs
    obtain ⟨target, rest, e', _⟩ := spells.pop
    rw [e] at e'
    obtain ⟨rfl, _⟩ := List.cons.inj e'
    rfl

/-- What a call hands out when it reports something. -/
theorem popped_of_reached (ha : a.Tabulates) (h : Parser.Reached ε a.table p)
    (source : List (Except ε Terminal)) :
    (∀ r, (p.next a.table source).result = .ok (.reduce r) →
      (p.next a.table source).popped = some ((a.grammar.rule r).right.toList.map .ofSymbol)) ∧
    ((p.next a.table source).result = .ok .accept →
      (p.next a.table source).popped = some [.nonterminal a.grammar.start]) := by
  cases reading : p.accepted with
  | true =>
    rw [Parser.next_of_accepted reading]
    exact ⟨fun _ result ↦ (by cases result), fun result ↦ (by cases result)⟩
  | false =>
    obtain ⟨form, hs⟩ := exists_spells_of_reached ha h reading
    obtain ⟨q, pending, shifts, stops⟩ := Parser.next_cases (t := a.table) reading source
    obtain ⟨form, hs⟩ := hs.shifts ha shifts
    generalize p.next a.table source = turn at stops
    cases stops with
    | lexer => exact ⟨fun _ result ↦ (by cases result), fun result ↦ (by cases result)⟩
    | ended effect =>
      refine ⟨fun r result ↦ ?_, fun result ↦ ?_⟩
      · cases result
        exact popped_of_reduce ha hs effect
      · cases result
        exact popped_of_accept ha hs effect

/-- The rules of an automaton are reduced to their left sides. -/
theorem left_of_reduces (h : a.table.Reduces r n) : (a.grammar.rule r).left = n := by
  obtain ⟨state, ahead, size, action⟩ := h
  exact (table_reduce_iff.1 action).2.1.symm

/-- A call that reports a rule hands out its right side, and the acceptance hands out the start
symbol; whenever a nonterminal is handed out, it stems from an earlier report of one of its
rules. -/
theorem args_of_build {g : Grammar} (h : build g = .ok a) {history : Parser.History RuleId}
    (recorded : Parser.Recorded ε a.table p history) (source : List (Except ε Terminal)) :
    (∀ r, (p.next a.table source).result = .ok (.reduce r) →
      (p.next a.table source).popped = some ((g.rule r).right.toList.map .ofSymbol)) ∧
    ((p.next a.table source).result = .ok .accept →
      (p.next a.table source).popped = some [.nonterminal g.start]) ∧
    ∀ entries, (p.next a.table source).popped = some entries →
      ∀ (k : Nat) (n : Nonterminal), entries[k]? = some (.nonterminal n) →
        ∃ m r, (history.handedOut p (p.next a.table source))[k]? = some (some m) ∧
          history.rules[m]? = some r ∧ (g.rule r).left = n := by
  obtain ⟨rfl, ha⟩ := tabulates_of_build h
  obtain ⟨reduce, accept⟩ := popped_of_reached ha recorded.reached source
  refine ⟨reduce, accept, fun entries popped k n entry ↦ ?_⟩
  have stems := Parser.handedOut_stems recorded source
  rw [popped, Option.getD_some] at stems
  obtain ⟨lt, place⟩ := List.getElem?_eq_some_iff.1 entry
  have lt' := stems.length_eq ▸ lt
  have here := stems.get lt lt'
  rw [List.get_eq_getElem, place] at here
  generalize e : (history.handedOut p (p.next a.table source)).get ⟨k, lt'⟩ = origin at here
  cases here with
  | @nonterminal _ m r reported reduces =>
    refine ⟨m, r, ?_, reported, left_of_reduces reduces⟩
    rw [List.getElem?_eq_getElem lt']
    exact congrArg some e

/-- On `a b`, the second report hands out `a S b`, and this `S` stems from the first report; the
acceptance hands out `S`. -/
theorem args_of_build_nested :
    ∃ a p history, build .nested = .ok a ∧ Parser.Recorded Empty a.table p history ∧
      (p.next (ε := Empty) a.table []).result = .ok (.reduce ⟨1⟩) ∧
      (p.next (ε := Empty) a.table []).popped =
        some [.token ⟨1⟩, .nonterminal ⟨1⟩, .token ⟨2⟩] ∧
      (∃ m r, (history.handedOut p (p.next (ε := Empty) a.table []))[1]? = some (some m) ∧
        history.rules[m]? = some r ∧ (Grammar.nested.rule r).left = ⟨1⟩) ∧
      ((p.next (ε := Empty) a.table []).parser.next (ε := Empty) a.table []).popped =
        some [.nonterminal ⟨1⟩] := by
  obtain ⟨a, h⟩ := exists_build_nested
  have once := Parser.Recorded.next (ε := Empty) (t := a.table) .start [.ok ⟨1⟩, .ok ⟨2⟩]
  have reduced : (((Parser.start a.table).next (ε := Empty) a.table
      [.ok ⟨1⟩, .ok ⟨2⟩]).parser.next (ε := Empty) a.table []).result = .ok (.reduce ⟨1⟩) :=
    eq_of_build (f := fun a ↦ (((Parser.start a.table).next (ε := Empty) a.table
      [.ok ⟨1⟩, .ok ⟨2⟩]).parser.next (ε := Empty) a.table []).result) h (by decide +kernel)
  have accepted : ((((Parser.start a.table).next (ε := Empty) a.table
      [.ok ⟨1⟩, .ok ⟨2⟩]).parser.next (ε := Empty) a.table []).parser.next (ε := Empty)
        a.table []).result = .ok .accept :=
    eq_of_build (f := fun a ↦ ((((Parser.start a.table).next (ε := Empty) a.table
      [.ok ⟨1⟩, .ok ⟨2⟩]).parser.next (ε := Empty) a.table []).parser.next (ε := Empty)
        a.table []).result) h (by decide +kernel)
  obtain ⟨reduce, _, stems⟩ := args_of_build h once []
  obtain ⟨_, accept, _⟩ := args_of_build h (once.next []) []
  have popped := reduce _ reduced
  exact ⟨a, _, _, h, once, reduced, popped, stems _ popped 1 ⟨1⟩ rfl, accept accepted⟩

end Automaton

end SimpleLR

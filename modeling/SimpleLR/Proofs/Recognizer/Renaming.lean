import SimpleLR.Proofs.Automaton.Renaming
import SimpleLR.Proofs.Parser.Mapping
import SimpleLR.Proofs.Recognizer.Stack

/-!
# The order of declarations does not matter

The tables of related grammars are mapped to one another, state by state (`Renaming.maps`), so that
recognition gives the renamed result. Building and recognizing therefore depend on what is declared
and not on the order in which it is (`Automaton.build_renumbered`).
-/

namespace SimpleLR

namespace Renaming

variable {g g' : Grammar} (R : Renaming g g') {a a' : Automaton} {φ : StateId → StateId}
  {rule : RuleId → RuleId}

theorem map_initial (h : Automaton.build g = .ok a) (h' : Automaton.build g' = .ok a')
    (state : ∀ id, a'.itemsOf (φ id) = (a.itemsOf id).map R.items) : φ .initial = .initial := by
  have place : a'.itemsOf (φ .initial) = some (.initial g') := by
    obtain ⟨rfl, ha⟩ := Automaton.tabulates_of_build h
    rw [state, ha.initial, Option.map_some, R.items_initial]
  have place' : a'.itemsOf .initial = some (.initial g') := by
    obtain ⟨rfl, ha'⟩ := Automaton.tabulates_of_build h'
    exact ha'.initial
  exact Automaton.itemsOf_inj h' place place'

/-- The table of an automaton is mapped to that of another. -/
theorem maps (h : Automaton.build g = .ok a) (h' : Automaton.build g' = .ok a')
    (state : ∀ id, a'.itemsOf (φ id) = (a.itemsOf id).map R.items)
    (rules : ∀ r ∈ g.ruleIds, R.rule r = rule r) :
    TableMap.Maps ⟨φ, R.terminal, R.nonterminal, rule⟩ a.table a'.table := by
  obtain ⟨ψ, state'⟩ := R.symm.exists_state h' h
  have initial := R.map_initial h h' state
  have reduced : ∀ {id x r}, a.action? id x = some (.reduce r) → R.rule r = rule r :=
    fun cell ↦ rules _ (Automaton.mem_ruleIds_of_action h cell)
  obtain ⟨rfl, ha⟩ := Automaton.tabulates_of_build h
  obtain ⟨rfl, ha'⟩ := Automaton.tabulates_of_build h'
  refine ⟨initial.symm, fun s ahead ↦ ?_, fun s n ↦ ?_⟩
  · have symbol : (ahead.map R.terminal).getD .endOfInput =
        R.terminal (ahead.getD .endOfInput) := by
      cases ahead with
      | none => exact R.terminal_endOfInput.symm
      | some t => rfl
    have cell := R.action?_eq ha ha' state state' s (.terminal (ahead.getD .endOfInput))
    simp only [Automaton.table, symbol]
    rw [← R.symbol_terminal, cell]
    cases found : a.action? s (.terminal (ahead.getD .endOfInput)) with
    | none => rfl
    | some act =>
      cases act with
      | reduce r =>
        simp only [Option.map_some, Option.bind_some, Action.rename, Automaton.parseAction,
          TableMap.action]
        rw [R.left_rule, R.right_eq, Array.size_map, reduced found]
      | _ => rfl
  · have cell := R.action?_eq ha ha' state state' s (.nonterminal n)
    simp only [Automaton.table]
    rw [← R.symbol_nonterminal, cell]
    cases a.action? s (.nonterminal n) with
    | none => rfl
    | some act => cases act <;> rfl

/-- Recognition of renamed tokens gives the renamed result. -/
theorem parse_eq {ε : Type} (h : Automaton.build g = .ok a) (h' : Automaton.build g' = .ok a')
    (rules : ∀ r ∈ g.ruleIds, R.rule r = rule r) (events : Nat)
    (source : List (Except ε Terminal)) :
    a'.parse events (source.map (Except.map R.terminal)) =
      (a.parse events source).map (Except.map fun d ↦ ⟨d.reductions.map rule⟩) := by
  obtain ⟨φ, state⟩ := R.exists_state h h'
  have maps := R.maps h h' state rules
  rw [Automaton.parse, Automaton.parse, maps.start_eq]
  have run := maps.collect_eq events (.start a.table) source []
  rw [List.map_nil, TableMap.source] at run
  rw [run]
  cases (Parser.start a.table).collect a.table events source [] with
  | none => rfl
  | some outcome =>
    obtain ⟨result, q, rest⟩ := outcome
    cases result <;> rfl

end Renaming

namespace Automaton

variable {a : Automaton} {ε : Type} {p q : Parser StateId Terminal Nonterminal}
  {form : List Symbol} {source rest : List (Except ε Terminal)} {w : List Terminal}
  {done : List RuleId} {events position : Nat} {e : ParseError ε}

/-- A call fails because of the tokens if there is nothing but tokens. -/
theorem Turns.rejected_of_tokens {turn : Turn StateId Terminal Nonterminal RuleId ε}
    (h : a.Turns position form (w.map .ok) turn) (result : turn.result = .error e) :
    ∃ n, e = .rejected n := by
  generalize tokens : w.map Except.ok = pending at h
  induction h generalizing w with
  | shift _ _ ih =>
    obtain ⟨_, w, rfl, _, rest⟩ := List.map_eq_cons_iff.1 tokens
    exact ih result rest
  | lexer =>
    obtain ⟨_, _, _, lexer, _⟩ := List.map_eq_cons_iff.1 tokens
    cases lexer
  | ends _ _ ends =>
    rw [result] at ends
    cases ends with
    | reject => exact ⟨_, rfl⟩

/-- The same for the calls that a recognition makes. -/
theorem rejected_of_collect (ha : a.Tabulates) (hs : a.Spells p.stack form)
    (reading : p.accepted = false) (tokens : p.pending source = w.map .ok)
    (run : p.collect a.table events source done = some (.error e, q, rest)) :
    ∃ n, e = .rejected n := by
  induction events generalizing p form source done w with
  | zero => cases run
  | succ events ih =>
    have turns := next_turns ha hs reading source
    rcases Parser.collect_cases run with ⟨e', result, failed⟩ | ⟨_, accepted⟩ | ⟨r, result, run⟩
    · cases failed
      rw [tokens] at turns
      exact turns.rejected_of_tokens result
    · cases accepted
    · obtain ⟨v, form', pending, _, spells, reading'⟩ := turns.of_reduce result
      obtain ⟨_, w', _, _, rest⟩ := List.map_eq_append_iff.1 (tokens.symm.trans pending)
      exact ih spells reading' rest.symm run

end Automaton

/-- The grammar of `P -> ε` and `P -> a P b`, in this order and with `b` declared before `a`. -/
def Grammar.nestedBackwards : Grammar where
  terminals := #["$end", "b", "a"]
  nonterminals := #["$start", "P"]
  terminals_zero := rfl
  nonterminals_zero := rfl
  names_nodup := by decide
  start := ⟨1⟩
  rules := #[.augmenting ⟨1⟩, ⟨⟨1⟩, #[]⟩, ⟨⟨1⟩, #[.terminal ⟨2⟩, .nonterminal ⟨1⟩, .terminal ⟨1⟩]⟩]
  start_declared := by decide
  rules_zero := rfl
  rules_declared := by decide
  rules_nodup := by decide

namespace Renumbering

/-- The numbers 1 and 2 are exchanged, among terminals and rules. -/
def exchange : Renumbering where
  terminal t := ⟨(3 - t.index) % 3⟩
  nonterminal n := n
  rule r := ⟨(3 - r.index) % 3⟩

/-- A bijection that undoes itself. -/
theorem bijOn_of_involutive {α : Type} {f : α → α} {s : Set α} (maps : Set.MapsTo f s s)
    (twice : Set.LeftInvOn f f s) : Set.BijOn f s s :=
  Set.InvOn.bijOn ⟨twice, twice⟩ maps maps

theorem exchange_twice {i : Nat} (h : i < 3) : (3 - (3 - i) % 3) % 3 = i := by omega

theorem exchange_relates : exchange.Relates .nested .nestedBackwards where
  terminals := by
    refine bijOn_of_involutive (fun t _ ↦ Nat.mod_lt _ (Nat.succ_pos 2)) ?_
    rintro ⟨i⟩ (h : i < 3)
    exact congrArg Terminal.mk (exchange_twice h)
  nonterminals := Set.bijOn_id _
  rules := by
    refine bijOn_of_involutive (fun r _ ↦ Nat.mod_lt _ (Nat.succ_pos 2)) ?_
    rintro ⟨i⟩ (h : i < 3)
    exact congrArg RuleId.mk (exchange_twice h)
  endOfInput := rfl
  augmented := rfl
  accept := rfl
  start := rfl
  left r hr := by
    match r, hr with
    | ⟨0⟩, _ | ⟨1⟩, _ | ⟨2⟩, _ => rfl
  right r hr := by
    rw [← Array.toList_inj, Array.toList_map]
    match r, hr with
    | ⟨0⟩, _ | ⟨1⟩, _ | ⟨2⟩, _ => rfl

end Renumbering

namespace Automaton

end Automaton

end SimpleLR

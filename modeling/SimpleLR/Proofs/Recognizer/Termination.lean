import SimpleLR.Proofs.Automaton.Wrapping
import SimpleLR.Proofs.Recognizer.Completeness

/-!
# Termination of recognition

Between two shifts a parser reduces with the same terminal ahead (`Grammar.Reductions`). If the
nonterminals that occur are productive, whatever has been reduced can be completed to a parse, and
the first terminal of what completes it may follow each of these reductions as well. There are
finitely many terminals, so reductions without end could all be made ahead of one of them; but a
parse with that terminal ahead has only so many reductions (`Automaton.exists_bound`).
-/

namespace SimpleLR

namespace Grammar

/-- Reductions one after another with the same terminal ahead. -/
inductive Reductions (g : Grammar) (t : Terminal) :
    List RuleId → List Symbol → List Symbol → Prop
  | nil (form : List Symbol) : Reductions g t [] form form
  | cons {r : RuleId} {rules : List RuleId} {form form' form'' : List Symbol}
    (step : g.Reduction t r form form') (rest : Reductions g t rules form' form'') :
    Reductions g t (r :: rules) form form''

variable {g : Grammar} {form form' front : List Symbol} {w : List Terminal}
  {rules rules' : List RuleId} {r : RuleId} {n : Nonterminal} {t : Terminal}

/-- A reduction before a parse belongs to it. -/
theorem Reduction.parses (h : g.Reduction t r form form') (parses : g.Parses form' w rules) :
    g.Parses form w (r :: rules) := by
  obtain ⟨⟩ := h
  exact .reduce parses

theorem Reductions.parses (h : g.Reductions t rules form form')
    (parses : g.Parses form' w rules') : g.Parses form w (rules ++ rules') := by
  induction h with
  | nil => exact parses
  | cons step _ ih => exact step.parses (ih parses)

/-- Reductions before a parse may be made with the first terminal of the parse ahead. -/
theorem Reductions.of_parses (fits : g.DotsFit) (h : g.Reductions t rules form form')
    (parses : g.Parses form' w rules') : g.Reductions (w.headD .endOfInput) rules form form' := by
  induction h with
  | nil => exact .nil _
  | cons step rest ih =>
    refine .cons ?_ (ih parses)
    have after := rest.parses parses
    obtain ⟨⟩ := step
    exact after.reduction fits

theorem Reductions.viable (h : g.Reductions t rules form form') (viable : g.Viable form) :
    g.Viable form' := by
  induction h with
  | nil => exact viable
  | cons step _ ih => exact ih step.viable.2

/-! ## Completing a viable form -/

/-- The nonterminals that occur are productive. -/
def AllProductive (g : Grammar) : Prop := ∀ n, g.Occurs n → g.Productive n

/-- What stands after the dot of an item that can be entered yields something. -/
theorem AllProductive.exists_yields (productive : g.AllProductive) {x : Rule}
    (mem : x ∈ g.rules.toList) (left : x.left = .augmented ∨ g.Occurs x.left)
    {rest : List Symbol} (e : x.right.toList = front ++ rest) : ∃ v, g.Yields rest v := by
  refine Grammar.exists_yields fun n hn ↦ productive n (occurs_of_mem_right mem left ?_)
  rw [e]
  exact List.mem_append_right _ hn

/-- A right side after a left context of its rule is completed to a parse. -/
theorem LeftContext.exists_parses (productive : g.AllProductive) (h : g.LeftContext n front)
    (hr : r ∈ g.rulesFor n) :
    ∃ w rules, g.Parses (front ++ (g.rule r).right.toList) w rules := by
  induction h generalizing r with
  | augmented =>
    obtain ⟨lt, left⟩ := mem_rulesFor.1 hr
    rw [left_eq_augmented_iff.1 left]
    exact ⟨_, _, .start⟩
  | @enter x mem context before after n above e ih =>
    obtain ⟨id, hid, rfl⟩ := mem_rules_iff.1 mem
    obtain ⟨w, rules, parses⟩ := ih (mem_rulesFor.2 ⟨mem_ruleIds.1 hid, rfl⟩)
    obtain ⟨v, yields⟩ := productive.exists_yields mem above.occurs (List.append_cons .. ▸ e)
    rw [e, List.append_cons, ← List.append_assoc, ← List.append_assoc] at parses
    obtain ⟨rules', parses⟩ := parses.of_yields yields
    rw [← (mem_rulesFor.1 hr).2] at parses
    exact ⟨_, _, .reduce parses⟩

/-- A viable form is completed to a parse. -/
theorem Viable.exists_parses (fits : g.DotsFit) (productive : g.AllProductive)
    (h : g.Viable form) : ∃ w rules, g.Parses form w rules := by
  obtain ⟨i, hi⟩ := h
  obtain ⟨mem, front, rfl, context⟩ := ItemSet.leftContext_of_mem_along fits hi
  obtain ⟨w, rules, parses⟩ :=
    context.exists_parses productive (mem_rulesFor.2 ⟨mem_ruleIds.1 mem, rfl⟩)
  have split := List.take_append_drop i.dot.toNat (g.rule i.rule).right.toList
  obtain ⟨v, yields⟩ := productive.exists_yields (rule_mem_rules i.rule) context.occurs split.symm
  rw [← split, ← List.append_assoc] at parses
  obtain ⟨rules', parses⟩ := parses.of_yields yields
  exact ⟨_, rules', parses⟩

/-- The terminals that may follow after some rule. -/
def followers (g : Grammar) : List Terminal :=
  g.ruleIds.flatMap fun r ↦ ((FirstFollow.ofGrammar g).follow (g.rule r).left).toList

theorem Reduction.mem_followers (fits : g.DotsFit) (h : g.Reduction t r form form') :
    t ∈ g.followers := by
  obtain ⟨hi, _, rfl, _, follow⟩ := h
  have mem := (ItemSet.leftContext_of_mem_along fits hi).1
  exact List.mem_flatMap.2 ⟨_, mem, IndexSet.mem_toList.2 follow⟩

end Grammar

/-- If for each number some element of a list has a property that goes down, one of them has it for
all numbers. -/
theorem exists_forall_of_antitone {α : Type} {p : Nat → α → Prop}
    (antitone : ∀ m n x, m ≤ n → p n x → p m x) {l : List α} (h : ∀ n, ∃ x ∈ l, p n x) :
    ∃ x ∈ l, ∀ n, p n x := by
  induction l with
  | nil =>
    obtain ⟨x, hx, _⟩ := h 0
    exact absurd hx List.not_mem_nil
  | cons x l ih =>
    by_cases all : ∀ n, p n x
    · exact ⟨x, List.mem_cons_self, all⟩
    · obtain ⟨m, hm⟩ := Classical.not_forall.1 all
      obtain ⟨y, hy, all⟩ := ih fun n ↦ by
        obtain ⟨y, hy, py⟩ := h (max m n)
        rcases List.mem_cons.1 hy with rfl | hy
        · exact absurd (antitone m _ y (Nat.le_max_left ..) py) hm
        · exact ⟨y, hy, antitone n _ y (Nat.le_max_right ..) py⟩
      exact ⟨y, List.mem_cons_of_mem x hy, all⟩

namespace Automaton

variable {a : Automaton} {ε : Type} {p : Parser StateId Terminal Nonterminal}
  {form form' : List Symbol} {w : List Terminal} {rules rules' : List RuleId} {t : Terminal}
  {source : List (Except ε Terminal)}

/-! ## Bounds on reductions -/

/-- A parse begins with the reductions that can be made with its first terminal ahead. -/
theorem length_le_of_parses (ha : a.Tabulates) (fits : a.grammar.DotsFit)
    (parses : a.grammar.Parses form w rules')
    (h : a.grammar.Reductions (w.headD .endOfInput) rules form form') :
    rules.length ≤ rules'.length := by
  induction parses generalizing rules form' with
  | start =>
    cases h with
    | nil => exact Nat.le_refl _
    | cons step =>
      have e := ha.claims_unique step.viable.1 (claims_accept a) (claims_of_reduction step)
      cases e
  | shift parses _ =>
    cases h with
    | nil => exact Nat.zero_le _
    | cons step =>
      obtain ⟨target, claim⟩ := ha.claims_of_viable (parses.viable fits)
      have e := ha.claims_unique step.viable.1 claim (claims_of_reduction step)
      cases e
  | @reduce front w rules' r parses ih =>
    generalize e : front ++ (a.grammar.rule r).right.toList = form at h
    cases h with
    | nil => exact Nat.zero_le _
    | cons step rest =>
      subst e
      have step' := parses.reduction fits
      obtain ⟨⟩ := ha.claims_unique step.viable.1 (claims_of_reduction step)
        (claims_of_reduction step')
      obtain rfl := step.unique step'
      exact Nat.succ_le_succ (ih rest)

/-- Only so many reductions can be made with the same terminal ahead. -/
theorem exists_bound (ha : a.Tabulates) (fits : a.grammar.DotsFit)
    (productive : a.grammar.AllProductive) (viable : a.grammar.Viable form) (t : Terminal) :
    ∃ bound, ∀ rules form', a.grammar.Reductions t rules form form' → rules.length ≤ bound := by
  apply Classical.byContradiction
  intro unbounded
  have long : ∀ n, ∃ rules form', a.grammar.Reductions t rules form form' ∧ n < rules.length := by
    intro n
    apply Classical.byContradiction
    intro no
    apply unbounded
    refine ⟨n, fun rules form' h ↦ ?_⟩
    exact Nat.le_of_not_lt fun lt ↦ no ⟨rules, form', h, lt⟩
  -- what is reduced can be completed, and then reduced ahead of what completes it
  have completed : ∀ n, ∃ u ∈ a.grammar.followers, ∃ rules form' w rules',
      n < rules.length ∧ u = w.headD .endOfInput ∧ a.grammar.Reductions u rules form form' ∧
        a.grammar.Parses form w rules' := by
    intro n
    obtain ⟨rules, form', reductions, lt⟩ := long n
    obtain ⟨w, rules', parses⟩ := (reductions.viable viable).exists_parses fits productive
    have ahead := reductions.of_parses fits parses
    refine ⟨w.headD .endOfInput, ?_, rules, form', w, _, lt, rfl, ahead, reductions.parses parses⟩
    cases ahead with
    | nil => cases lt
    | cons step => exact step.mem_followers fits
  obtain ⟨u, _, all⟩ := exists_forall_of_antitone
    (fun m n u le ⟨rules, form', w, rules', lt, rest⟩ ↦
      ⟨rules, form', w, rules', Nat.lt_of_le_of_lt le lt, rest⟩) completed
  -- a parse of bounded length begins with any of them
  obtain ⟨_, _, w, rules', _, e, _, parses⟩ := all 0
  obtain ⟨rules, form', _, _, lt, _, reductions, _⟩ := all rules'.length
  rw [e] at reductions
  exact absurd (length_le_of_parses ha fits parses reductions) (Nat.not_le_of_lt lt)

/-! ## Runs -/

/-- A run ends: by induction on what is left to read, and then on the number of reductions that can
be made before more is read. -/
theorem collect_ends (ha : a.Tabulates) (fits : a.grammar.DotsFit)
    (productive : a.grammar.AllProductive) (length bound : Nat) (done : List RuleId)
    (hs : a.Spells p.stack form) (reading : p.accepted = false)
    (le : (p.pending source).length ≤ length)
    (bounded : ∀ rules form', a.grammar.Reductions (lookahead (p.pending source)) rules form form' →
      rules.length ≤ bound) :
    ∃ events outcome, p.collect a.table events source done = some outcome := by
  induction length using Nat.strongRecOn generalizing bound p form source done with
  | ind length ihLength =>
    induction bound using Nat.strongRecOn generalizing p form source done with
    | ind bound ihBound =>
      have turns := next_turns ha hs reading source
      cases result : (p.next a.table source).result with
      | error e => exact ⟨1, _, Parser.collect_of_error result⟩
      | ok event =>
        cases event with
        | accept => exact ⟨1, _, Parser.collect_of_accept result⟩
        | reduce r =>
          obtain ⟨v, form', pending, step, spells, reading'⟩ := turns.of_reduce result
          have ends : ∃ events outcome, (p.next a.table source).parser.collect a.table events
              (p.next a.table source).rest (r :: done) = some outcome := by
            cases v with
            | nil =>
              rw [List.map_nil, List.append_nil] at step
              rw [List.map_nil, List.nil_append] at pending
              rw [pending] at le bounded
              have lt : 1 ≤ bound := bounded [r] form' (.cons step (.nil _))
              apply ihBound (bound - 1) (by omega) _ spells reading' le
              intro rules form'' h
              exact Nat.le_sub_of_add_le (bounded (r :: rules) form'' (.cons step h))
            | cons t v =>
              obtain ⟨bound', bounded'⟩ := exists_bound ha fits productive step.viable.2
                (lookahead ((p.next a.table source).parser.pending (p.next a.table source).rest))
              rw [pending, List.length_append, List.map_cons, List.length_cons] at le
              exact ihLength _ (by omega) bound' _ spells reading' (Nat.le_refl _) bounded'
          obtain ⟨events, outcome, run⟩ := ends
          exact ⟨events + 1, outcome, by rw [Parser.collect_of_reduce result, run]⟩

/-- Termination of recognition: if the nonterminals that occur are productive and their rules fit,
recognition comes to an end, whatever the source holds. -/
theorem parse_terminates {g : Grammar} (h : build g = .ok a) (productive : g.AllProductive)
    (fits : g.DotsFit) (source : List (Except ε Terminal)) :
    ∃ events result, ∀ events', events ≤ events' → a.parse events' source = some result := by
  obtain ⟨rfl, ha⟩ := tabulates_of_build h
  have viable : a.grammar.Viable [] := ⟨_, ItemSet.initial_accept_mem_along_nil⟩
  obtain ⟨bound, bounded⟩ := exists_bound ha fits productive viable (lookahead source)
  obtain ⟨events, ⟨collected, q, rest⟩, run⟩ := collect_ends (p := .start a.table) ha fits
    productive source.length bound [] .bottom rfl (Nat.le_refl _) bounded
  refine ⟨events, collected.map Derivation.mk, fun events' enough ↦ ?_⟩
  exact parse_eq_some_iff.2 ⟨collected, q, rest, Parser.collect_mono run enough, rfl⟩

theorem allProductive_nested : Grammar.nested.AllProductive := by
  intro n ⟨before, after, d⟩
  obtain ⟨pos, lt⟩ := Grammar.declares_of_derives d (.nonterminal n) (by simp)
  obtain rfl : n = ⟨1⟩ := by
    obtain ⟨i⟩ := n
    exact congrArg Nonterminal.mk (Nat.le_antisymm (Nat.le_of_lt_succ lt) pos)
  exact ⟨[], (Grammar.Rewrites.rule (r := ⟨⟨1⟩, #[]⟩) (by decide) [] []).derives⟩

/-- Even on `b`, which does not belong to the language, recognition comes to an end. -/
theorem parse_terminates_nested :
    ∃ a, build .nested = .ok a ∧ Grammar.nested.AllProductive ∧ Grammar.nested.DotsFit ∧
      ∃ events result, ∀ events', events ≤ events' →
        a.parse (ε := Empty) events' [.ok ⟨2⟩] = some result := by
  obtain ⟨a, h⟩ := exists_build_nested
  have fits : Grammar.nested.DotsFit := by
    have sizes : ∀ r ∈ Grammar.nested.rules.toList, r.right.size ≤ 65535 := by decide
    exact fun r mem _ ↦ sizes r mem
  exact ⟨a, h, allProductive_nested, fits, parse_terminates h allProductive_nested fits _⟩

end Automaton

/-! ## Where recognition does not end -/

/-- The grammar of `S -> a A U`, `A -> A`, `A -> c` and `Z -> A y`, in which `U` has no rule. -/
def Grammar.stuck : Grammar where
  terminals := #["$end", "a", "c", "y"]
  nonterminals := #["$start", "S", "A", "Z", "U"]
  terminals_zero := rfl
  nonterminals_zero := rfl
  names_nodup := by decide
  start := ⟨1⟩
  rules := #[.augmenting ⟨1⟩,
    ⟨⟨1⟩, #[.terminal ⟨1⟩, .nonterminal ⟨2⟩, .nonterminal ⟨4⟩]⟩,
    ⟨⟨2⟩, #[.nonterminal ⟨2⟩]⟩,
    ⟨⟨2⟩, #[.terminal ⟨2⟩]⟩,
    ⟨⟨3⟩, #[.nonterminal ⟨2⟩, .terminal ⟨3⟩]⟩]
  start_declared := by decide
  rules_zero := rfl
  rules_declared := by decide
  rules_nodup := by decide

namespace Automaton

/-- A parser that has read `a A`, with `y` ahead. -/
def stuckParser : Parser StateId Terminal Nonterminal where
  stack := [⟨.nonterminal ⟨2⟩, ⟨4⟩⟩, ⟨.token ⟨1⟩, ⟨1⟩⟩, ⟨.bottom, ⟨0⟩⟩]
  lookahead := .known (some ⟨3⟩)
  position := 2
  accepted := false

/-- A parser that a call leaves as it was collects rules forever. -/
theorem collect_of_same {σ τ ν ρ ε : Type} {t : ParseTable σ τ ν ρ} {p : Parser σ τ ν} {r : ρ}
    {source : List (Except ε τ)} (result : (p.next t source).result = .ok (.reduce r))
    (parser : (p.next t source).parser = p) (rest : (p.next t source).rest = source)
    (events : Nat) (done : List ρ) : p.collect t events source done = none := by
  induction events generalizing done with
  | zero => rfl
  | succ events ih => rw [Parser.collect_of_reduce result, parser, rest, ih]

/-- The first call on `a c y`. -/
def stuckCall (a : Automaton) : Turn StateId Terminal Nonterminal RuleId Empty :=
  (Parser.start a.table).next a.table ([⟨1⟩, ⟨2⟩, ⟨3⟩].map .ok)

/-- Recognition of `a c y` does not end: `A` is reduced to `A` over and over, since `y` may follow
it somewhere, but here only `U` does, which yields nothing. -/
theorem parse_stuck :
    ∃ a, build .stuck = .ok a ∧
      ∀ events, a.parse (ε := Empty) events ([⟨1⟩, ⟨2⟩, ⟨3⟩].map .ok) = none := by
  obtain ⟨a, h⟩ := exists_build (g := .stuck) (by decide +kernel)
  have first : (stuckCall a).result = .ok (.reduce ⟨3⟩) :=
    eq_of_build (f := fun a ↦ (stuckCall a).result) h (by decide +kernel)
  have parser : (stuckCall a).parser = stuckParser :=
    eq_of_build (f := fun a ↦ (stuckCall a).parser) h (by decide +kernel)
  have again : (stuckParser.next (ε := Empty) a.table []).result = .ok (.reduce ⟨2⟩) :=
    eq_of_build (f := fun a ↦ (stuckParser.next (ε := Empty) a.table []).result) h
      (by decide +kernel)
  have same : (stuckParser.next (ε := Empty) a.table []).parser = stuckParser :=
    eq_of_build (f := fun a ↦ (stuckParser.next (ε := Empty) a.table []).parser) h
      (by decide +kernel)
  have rest : (stuckParser.next (ε := Empty) a.table []).rest = [] :=
    eq_of_build (f := fun a ↦ (stuckParser.next (ε := Empty) a.table []).rest) h
      (by decide +kernel)
  have read : (stuckCall a).rest = [] :=
    eq_of_build (f := fun a ↦ (stuckCall a).rest) h (by decide +kernel)
  refine ⟨a, h, fun events ↦ ?_⟩
  rw [parse, Option.map_eq_none_iff]
  cases events with
  | zero => rfl
  | succ events =>
    rw [Parser.collect_of_reduce first]
    exact parser ▸ read ▸ collect_of_same again same rest events _

end Automaton

/-! ## Where dots wrap -/

namespace Alternating

open Grammar

variable {k : Nat} {form : List Symbol} {d : UInt16} {a : Automaton} {ε : Type}
  {p : Parser StateId Terminal Nonterminal} {source : List (Except ε Terminal)}

theorem allProductive (k : Nat) : (alternating k).AllProductive := by
  intro n ⟨before, after, derived⟩
  have declared := declares_of_derives derived (.nonterminal n) (by simp)
  have empty : ⟨n, #[]⟩ ∈ (alternating k).rules.toList := by
    obtain ⟨_ | _ | _ | _⟩ := n
    · exact absurd declared.1 (Nat.lt_irrefl 0)
    · simp [alternating]
    · simp [alternating]
    · exact absurd declared.2 (Nat.not_lt_of_le (Nat.le_add_left ..))
  exact ⟨[], (Rewrites.rule empty [] []).derives⟩

/-- Wherever the long rule is being read, one more symbol of it can be reduced. -/
theorem exists_reduction (hk : 65536 ≤ k) (h : ⟨⟨1⟩, d⟩ ∈ ItemSet.along (alternating k) form) :
    ∃ r, (alternating k).Reduction ⟨1⟩ r form (form ++ [.nonterminal (symbol d.toNat)]) ∧
      ⟨⟨1⟩, d + 1⟩ ∈ ItemSet.along (alternating k) (form ++ [.nonterminal (symbol d.toNat)]) := by
  have next := next?_long hk d
  have follow : ⟨1⟩ ∈ (FirstFollow.ofGrammar (alternating k)).follow (symbol d.toNat) :=
    terminal_mem_follow (Nat.le_trans (Nat.le_of_ble_eq_true rfl) hk) d.toNat
  have empty : ∃ r ∈ (alternating k).rulesFor (symbol d.toNat),
      ((alternating k).rule r).right = #[] ∧ r ≠ .accept := by
    rcases Nat.mod_two_eq_zero_or_one d.toNat with even | odd
    · exact ⟨⟨2⟩, two_mem_rulesFor even, rfl, by decide⟩
    · exact ⟨⟨3⟩, three_mem_rulesFor odd, rfl, by decide⟩
  obtain ⟨r, hr, right, ne⟩ := empty
  have left := (mem_rulesFor.1 hr).2
  refine ⟨r, ?_, ItemSet.moved_mem_along h next⟩
  rw [← left] at follow ⊢
  exact reduction_of_empty (ItemSet.initial_mem_along h next hr) right ne follow

/-- A parser that is reading the long rule reduces forever. -/
theorem collect_eq_none (ha : a.Tabulates) (hk : 65536 ≤ k) (e : a.grammar = alternating k)
    (hs : a.Spells p.stack form) (reading : p.accepted = false)
    (pending : p.pending source = [.ok ⟨1⟩])
    (h : ⟨⟨1⟩, d⟩ ∈ ItemSet.along (alternating k) form) (events : Nat) (done : List RuleId) :
    p.collect a.table events source done = none := by
  induction events generalizing p form source d done with
  | zero => rfl
  | succ events ih =>
    obtain ⟨r, step, moved⟩ := exists_reduction hk h
    rw [← e] at step
    have turns := Automaton.next_turns ha hs reading source
    rw [pending] at turns
    rcases turns.of_claim (w := [⟨1⟩]) ha step.viable.1 (Automaton.claims_of_reduction step) with
      ⟨_, _, _, _, e', _⟩ | ⟨r', form', e', result, step', spells, reading', pending'⟩ | ⟨e', _⟩
    · cases e'
    · cases e'
      obtain rfl := step.unique step'
      rw [Parser.collect_of_reduce result]
      exact ih spells reading' pending' moved _
    · cases e'

/-- Recognition of `b` does not end. -/
theorem parse_eq_none (hk : 65536 ≤ k) (h : Automaton.build (alternating k) = .ok a)
    (events : Nat) : a.parse (ε := ε) events ([⟨1⟩].map .ok) = none := by
  obtain ⟨e, ha⟩ := Automaton.tabulates_of_build h
  rw [Automaton.parse, Option.map_eq_none_iff]
  have start : ⟨⟨1⟩, 0⟩ ∈ ItemSet.along (alternating k) [] :=
    (mem_initial_iff_readBy hk).2 (.long (Nat.le_refl 0) rfl)
  exact collect_eq_none ha hk e .bottom rfl rfl start events []

end Alternating

namespace Automaton

/-- Neither condition can be dropped: recognition may go on forever if a nonterminal that occurs
yields nothing, and also if a rule is too long for a dot. -/
theorem parse_diverges :
    (∃ a, build .stuck = .ok a ∧ Grammar.stuck.DotsFit ∧
      ∀ events, a.parse (ε := Empty) events ([⟨1⟩, ⟨2⟩, ⟨3⟩].map .ok) = none) ∧
    ∃ a, build (.alternating 65536) = .ok a ∧ (Grammar.alternating 65536).AllProductive ∧
      ∀ events, a.parse (ε := Empty) events ([⟨1⟩].map .ok) = none := by
  refine ⟨?_, ?_⟩
  · obtain ⟨a, h, stuck⟩ := parse_stuck
    have sizes : ∀ r ∈ Grammar.stuck.rules.toList, r.right.size ≤ 65535 := by decide
    exact ⟨a, h, fun r mem _ ↦ sizes r mem, stuck⟩
  · obtain ⟨a, h⟩ := Alternating.exists_build (Nat.le_refl 65536)
    exact ⟨a, h, Alternating.allProductive 65536, Alternating.parse_eq_none (Nat.le_refl 65536) h⟩

end Automaton

end SimpleLR

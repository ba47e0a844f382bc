import SimpleLR.Proofs.Grammar.Ledger
import SimpleLR.Proofs.Grammar.Rules

/-!
# Grammars as they are declared

A grammar that is declared by any declarations, in any order and with any names and numbers, is the
one that those of them declare that are not refused (`Grammar.define_script`). It holds what these
have made, at the numbers that they have answered (`Grammar.Holds`), and it is well formed
(`Grammar.Lawful`).
-/

namespace SimpleLR

/-- Makes declarations one after another, whether they are refused or not. -/
def Declaration.script (ds : List Declaration) : Build Unit := fun b => pure ((), (runEach ds b).2)

namespace Grammar

/-- A grammar holds what declarations have made, at the numbers that these have answered. Numbers
count from the reserved ones without gaps. -/
structure Holds (g : Grammar) (made : List Declaration) (answers : List Declared) : Prop where
  terminals : g.terminals.toList = "$end" :: made.filterMap Declaration.terminalName?
  nonterminals : g.nonterminals.toList = "$start" :: made.filterMap Declaration.nonterminalName?
  rules : g.rules.toList = .augmenting g.start :: made.filterMap Declaration.rule?
  terminalNumbers : .endOfInput :: answers.filterMap Declared.terminal? =
    (List.range g.terminals.size).map Terminal.mk
  nonterminalNumbers : .augmented :: answers.filterMap Declared.nonterminal? =
    (List.range g.nonterminals.size).map Nonterminal.mk
  ruleNumbers : .accept :: answers.filterMap Declared.rule? =
    (List.range g.rules.size).map RuleId.mk
  /-- The start symbol is the one named last, or else the first nonterminal. -/
  start : some g.start = ((made.filterMap Declaration.start?).getLast? <|>
    (answers.filterMap Declared.nonterminal?).head?)
  terminals_le : g.terminals.size ≤ numberLimit
  nonterminals_le : g.nonterminals.size ≤ numberLimit
  rules_le : g.rules.size ≤ numberLimit

/-- Names and rules are unambiguous, rules mention declared symbols, and only the first rule belongs
to the augmentation. -/
structure Lawful (g : Grammar) : Prop where
  names_nodup : (g.terminals.toList ++ g.nonterminals.toList).Nodup
  found : ∀ s ∈ g.symbols, g.symbol? (g.symbolName s) = some s
  rule_inj : ∀ r ∈ g.ruleIds, ∀ r' ∈ g.ruleIds, g.rule r = g.rule r' → r = r'
  left_declared : ∀ r ∈ g.ruleIds, r ≠ .accept → g.Declares (.nonterminal (g.rule r).left)
  right_declared : ∀ r ∈ g.ruleIds, ∀ s ∈ (g.rule r).right.toList, g.Declares s
  not_reserved : ∀ r ∈ g.ruleIds, .terminal .endOfInput ∉ (g.rule r).right.toList ∧
    .nonterminal .augmented ∉ (g.rule r).right.toList
  left_augmented : ∀ r ∈ g.ruleIds, (g.rule r).left = .augmented ↔ r = .accept
  accept_first : g.ruleIds.head? = some .accept ∧ g.rule .accept = .augmenting g.start
  start_declared : g.Declares (.nonterminal g.start)

variable {g : Grammar} {b : Builder} {made ds : List Declaration} {answers : List Declared}

theorem rule_inj_of_mem {r r' : RuleId} (hr : r ∈ g.ruleIds) (hr' : r' ∈ g.ruleIds)
    (same : g.rule r = g.rule r') : r = r' := by
  obtain ⟨i⟩ := r
  obtain ⟨j⟩ := r'
  have lt : i < g.rules.size := mem_ruleIds.1 hr
  have lt' : j < g.rules.size := mem_ruleIds.1 hr'
  rw [rule, rule, Array.getElem?_eq_getElem lt, Array.getElem?_eq_getElem lt'] at same
  exact congrArg RuleId.mk (g.rules_nodup.getElem_inj_iff.1 same)

theorem lawful (g : Grammar) : g.Lawful where
  names_nodup := g.names_nodup
  found s hs := Alphabet.symbol?_symbolName (Alphabet.mem_symbols_iff.1 hs)
  rule_inj _ hr _ hr' := rule_inj_of_mem hr hr'
  left_declared _ hr ne := (declaresRule_of_ne_accept hr ne).1
  right_declared _ _ _ hs := declares_of_mem_right hs
  not_reserved _ _ := ⟨fun h ↦ not_declares_endOfInput (declares_of_mem_right h),
    fun h ↦ not_declares_augmented (declares_of_mem_right h)⟩
  left_augmented _ hr := ⟨fun h ↦ eq_accept_of_left h hr, by rintro rfl; exact left_accept⟩
  accept_first := by
    have pos : 0 < g.rules.size := mem_ruleIds.1 accept_mem_ruleIds
    refine ⟨?_, rule_accept⟩
    rw [ruleIds, List.head?_map, List.head?_range, if_neg (Nat.ne_of_gt pos)]
    rfl
  start_declared := g.start_declared

theorem toList_eq_cons {α : Type} {xs : Array α} {x : α} (h : xs[0]? = some x) :
    xs.toList = x :: xs.toList.tail := by
  rw [← Array.getElem?_toList, ← List.head?_eq_getElem?] at h
  exact List.eq_cons_of_mem_head? h

/-- The number zero and those that follow. -/
theorem cons_map_range' {κ : Type} (number : Nat → κ) {n size : Nat} (count : size = n + 1) :
    number 0 :: (List.range' 1 n).map number = (List.range size).map number := by
  rw [count, List.range_eq_range', List.range'_succ, List.map_cons]

/-- The symbol that a builder starts from is the one named last, or else its first nonterminal. -/
theorem some_getD_start (records : b.Records made answers)
    (some_left : b.nonterminals.toList.tail ≠ []) :
    some (b.start.getD ⟨1⟩) = ((made.filterMap Declaration.start?).getLast? <|>
      (answers.filterMap Declared.nonterminal?).head?) := by
  rw [← records.start, records.nonterminals.numbers_eq, List.head?_map, List.head?_range',
    if_neg (mt List.length_eq_zero_iff.1 some_left)]
  cases b.start <;> rfl

/-- The grammar of a builder holds what the builder does. -/
theorem holds_augment (declared : b.Declares (.nonterminal (b.start.getD ⟨1⟩)))
    (records : b.Records made answers) (room : b.Fits) :
    (b.augment _ declared).Holds made answers := by
  have terminals := toList_eq_cons b.terminals_zero
  have nonterminals := toList_eq_cons b.nonterminals_zero
  have rules := Builder.rules_augment declared
  have count := congrArg List.length rules
  refine ⟨?_, ?_, ?_, ?_, ?_, ?_, ?_, room.terminals, room.nonterminals, ?_⟩
  · exact terminals.trans (congrArg _ records.terminals.entries_eq)
  · exact nonterminals.trans (congrArg _ records.nonterminals.entries_eq)
  · exact rules.trans (congrArg _ records.rules.entries_eq)
  · rw [records.terminals.numbers_eq]
    exact cons_map_range' Terminal.mk (congrArg List.length terminals)
  · rw [records.nonterminals.numbers_eq]
    exact cons_map_range' Nonterminal.mk (congrArg List.length nonterminals)
  · rw [records.rules.numbers_eq]
    exact cons_map_range' RuleId.mk count
  · exact some_getD_start records (Builder.declares_start_iff.1 declared)
  · exact (congrArg (· ≤ numberLimit) count).mpr room.rules

/-- Declarations that are not refused are a script that does not stop. -/
theorem forM_eq (ds : List Declaration) (b : Builder) :
    (ds.forM fun d ↦ discard d.run : Build Unit) b =
      (Declaration.runAll ds b).2.map fun b ↦ ((), b) := by
  induction ds generalizing b with
  | nil => rfl
  | cons d ds ih =>
    change (discard d.run b >>= fun p ↦ (ds.forM fun d ↦ discard d.run : Build Unit) p.2) = _
    rw [Declaration.runAll]
    cases h : d.run b with
    | error fault =>
      have stops : discard d.run b = .error fault := by
        change (d.run b >>= fun p ↦ pure ((), p.2)) = _
        rw [h]
        rfl
      rw [stops]
      rfl
    | ok p =>
      obtain ⟨x, b'⟩ := p
      have continues : discard d.run b = .ok ((), b') := by
        change (d.run b >>= fun p ↦ pure ((), p.2)) = _
        rw [h]
        rfl
      rw [continues]
      exact ih b'

/-- Where no declaration is refused, it is all one whether a refusal ends the run. -/
theorem runEach_of_runAll {steps : List (Except Fault Declared)} {b' : Builder}
    (h : Declaration.runAll ds b = (steps, .ok b')) : Declaration.runEach ds b = (steps, b') := by
  induction ds generalizing b steps with
  | nil =>
    cases h
    rfl
  | cons d ds ih =>
    rw [Declaration.runAll] at h
    cases step : d.run b with
    | error fault =>
      rw [step] at h
      cases h
    | ok p =>
      obtain ⟨x, b₁⟩ := p
      rw [step] at h
      obtain ⟨rfl, rest⟩ := Prod.mk.inj h
      rw [Declaration.runEach_cons_of_ok step, ih (Prod.ext rfl rest)]

/-- Whatever is declared, a declaration that is refused changes nothing: the grammar, or the fault
for want of a nonterminal, is that of the declarations that are not refused, which then all succeed
and answer the same, also in tables that keep what a refused one has written. The grammar holds what
they have made, at the numbers that they have answered, and is well formed. -/
theorem define_script (ds : List Declaration) :
    let steps := (Declaration.runEach ds .empty).1
    let made := Declaration.accepted ds steps
    let answers := Declaration.answers steps
    define (Declaration.script ds) = define (made.forM fun d ↦ discard d.run) ∧
    Declaration.runAll made .empty = (answers.map .ok, .ok (Declaration.runEach ds .empty).2) ∧
    (Declaration.writeEach ds .initial).1 = steps ∧
    Declaration.writeEach made .initial = (answers.map .ok, (Declaration.writeEach ds .initial).2) ∧
    (Declaration.writeEach ds .initial).2 = .ofBuilder (Declaration.runEach ds .empty).2 ∧
    (∀ fault, define (Declaration.script ds) = .error fault ↔
      fault = .noNonterminal ∧ made.filterMap Declaration.nonterminalName? = []) ∧
    ∀ g, define (Declaration.script ds) = .ok g → g.Holds made answers ∧ g.Lawful := by
  intro steps made answers
  have all :
      Declaration.runAll made .empty = (answers.map .ok, .ok (Declaration.runEach ds .empty).2) :=
    Declaration.runAll_accepted ds .empty
  obtain ⟨records, room⟩ :=
    Declaration.records_runEach ds Declaration.records_empty Declaration.fits_empty
  change Builder.Records _ made answers at records
  have written := Ledger.writeEach_ofBuilder Declaration.fits_empty ds
  have writtenMade := Ledger.writeEach_ofBuilder Declaration.fits_empty made
  rw [← Ledger.initial_eq] at written writtenMade
  have finished : define (Declaration.script ds) = (Declaration.runEach ds .empty).2.finish := rfl
  refine ⟨?_, all, congrArg Prod.fst written, ?_, congrArg Prod.snd written, ?_, ?_⟩
  · change _ = (made.forM fun d ↦ discard d.run : Build Unit) .empty >>= fun p ↦ p.2.finish
    rw [forM_eq, all, finished]
    rfl
  · rw [writtenMade, written, runEach_of_runAll all]
  · intro fault
    rw [finished, ← records.nonterminals.entries_eq]
    exact Builder.finish_eq_error_iff
  · intro g defined
    obtain ⟨declared, rfl⟩ := Builder.eq_augment_of_finish (finished.symm.trans defined)
    exact ⟨holds_augment declared records room, lawful _⟩

/-- A name that is given already, a rule with a reserved symbol and an unknown start symbol are
refused; what follows them is not. -/
theorem define_script_refused :
    let ds : List Declaration := [.terminal "a", .nonterminal "a", .nonterminal "S",
      .rule ⟨1⟩ #[.terminal ⟨0⟩], .start ⟨2⟩, .rule ⟨1⟩ #[.terminal ⟨1⟩]]
    ∃ g, define (Declaration.script ds) = .ok g ∧ g.Lawful ∧
      g.Holds [.terminal "a", .nonterminal "S", .rule ⟨1⟩ #[.terminal ⟨1⟩]]
        [.terminal ⟨1⟩, .nonterminal ⟨1⟩, .rule ⟨1⟩] :=
  have ⟨_, _, _, _, _, _, holds⟩ := define_script [.terminal "a", .nonterminal "a",
    .nonterminal "S", .rule ⟨1⟩ #[.terminal ⟨0⟩], .start ⟨2⟩, .rule ⟨1⟩ #[.terminal ⟨1⟩]]
  ⟨_, rfl, (holds _ rfl).2, (holds _ rfl).1⟩

end Grammar

end SimpleLR

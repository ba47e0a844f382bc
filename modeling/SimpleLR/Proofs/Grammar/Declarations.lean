import SimpleLR.Grammar.Builder
import SimpleLR.Proofs.Grammar.Names
import SimpleLR.Proofs.Outcome

/-!
# What declarations add

When a declaration is not refused, and what it adds then (`Declaration.Adds`). From this follows
what a builder holds after any declarations: the names and rules of those that were not refused, at
the numbers that these have answered (`Builder.Records`). Making only those declarations leads to
the same builder (`Declaration.runAll_accepted`).
-/

namespace SimpleLR

namespace Builder

variable {b b' : Builder} {name : String} {t : Terminal} {n left : Nonterminal} {r : RuleId}
  {right : Array Symbol}

theorem terminal_eq_ok_iff : terminal name b = .ok (t, b') ↔
    Alphabet.isAcceptable name = true ∧ b.terminals.size < numberLimit ∧
      ∃ fresh : name ∉ b.names, t = ⟨b.terminals.size⟩ ∧
        b' = b.withAlphabet (b.addTerminal name fresh) fun _ h => h.addTerminal := by
  rw [terminal]
  by_cases acceptable : Alphabet.isAcceptable name = true
  · by_cases fresh : name ∉ b.names
    · by_cases room : b.terminals.size < numberLimit
      · simp [acceptable, fresh, room, pure, Except.pure, eq_comm]
      · simp [acceptable, fresh, room, throw, throwThe, MonadExceptOf.throw]
    · simp [acceptable, fresh, throw, throwThe, MonadExceptOf.throw]
  · simp [acceptable, throw, throwThe, MonadExceptOf.throw]

theorem nonterminal_eq_ok_iff : nonterminal name b = .ok (n, b') ↔
    Alphabet.isAcceptable name = true ∧ b.nonterminals.size < numberLimit ∧
      ∃ fresh : name ∉ b.names, n = ⟨b.nonterminals.size⟩ ∧
        b' = b.withAlphabet (b.addNonterminal name fresh) fun _ h => h.addNonterminal := by
  rw [nonterminal]
  by_cases acceptable : Alphabet.isAcceptable name = true
  · by_cases fresh : name ∉ b.names
    · by_cases room : b.nonterminals.size < numberLimit
      · simp [acceptable, fresh, room, pure, Except.pure, eq_comm]
      · simp [acceptable, fresh, room, throw, throwThe, MonadExceptOf.throw]
    · simp [acceptable, fresh, throw, throwThe, MonadExceptOf.throw]
  · simp [acceptable, throw, throwThe, MonadExceptOf.throw]

theorem rule_eq_ok_iff : rule left right b = .ok (r, b') ↔
    b.rules.size + 1 < numberLimit ∧
      ∃ (declared : b.DeclaresRule ⟨left, right⟩) (fresh : ⟨left, right⟩ ∉ b.rules.toList),
        r = ⟨b.rules.size + 1⟩ ∧ b' = b.addRule ⟨left, right⟩ declared fresh := by
  rw [rule]
  by_cases hl : b.Declares (.nonterminal left)
  · by_cases hr : b.DeclaresAll right.toList
    · by_cases fresh : ⟨left, right⟩ ∉ b.rules.toList
      · by_cases room : b.rules.size + 1 < numberLimit
        · rw [dif_pos hl, dif_pos hr, dif_pos fresh, if_pos room]
          constructor
          · rintro ⟨⟩
            exact ⟨room, ⟨hl, hr⟩, fresh, rfl, rfl⟩
          · rintro ⟨_, _, _, rfl, rfl⟩
            rfl
        · rw [dif_pos hl, dif_pos hr, dif_pos fresh, if_neg room]
          exact ⟨nofun, fun ⟨room', _⟩ ↦ absurd room' room⟩
      · rw [dif_pos hl, dif_pos hr, dif_neg fresh]
        exact ⟨nofun, fun ⟨_, _, fresh', _⟩ ↦ absurd fresh' fresh⟩
    · rw [dif_pos hl, dif_neg hr]
      exact ⟨nofun, fun ⟨_, declared, _⟩ ↦ absurd declared.2 hr⟩
  · rw [dif_neg hl]
    exact ⟨nofun, fun ⟨_, declared, _⟩ ↦ absurd declared.1 hl⟩

theorem startFrom_eq_ok_iff {u : Unit} : startFrom n b = .ok (u, b') ↔
    ∃ declared : b.Declares (.nonterminal n),
      b' = { b with start := some n, start_declared := by simpa using declared } := by
  rw [startFrom]
  by_cases declared : b.Declares (.nonterminal n)
  · rw [dif_pos declared]
    constructor
    · rintro ⟨⟩
      exact ⟨declared, rfl⟩
    · rintro ⟨_, rfl⟩
      rfl
  · rw [dif_neg declared]
    exact ⟨nofun, fun ⟨declared', _⟩ ↦ absurd declared' declared⟩

end Builder

namespace Declaration

/-- What a declaration answers when it is not refused, and the builder that it leads to. -/
inductive Adds (b : Builder) : Declaration → Declared → Builder → Prop
  | terminal {name : String} (acceptable : Alphabet.isAcceptable name = true)
    (room : b.terminals.size < numberLimit) (fresh : name ∉ b.names) :
    Adds b (.terminal name) (.terminal ⟨b.terminals.size⟩)
      (b.withAlphabet (b.addTerminal name fresh) fun _ h => h.addTerminal)
  | nonterminal {name : String} (acceptable : Alphabet.isAcceptable name = true)
    (room : b.nonterminals.size < numberLimit) (fresh : name ∉ b.names) :
    Adds b (.nonterminal name) (.nonterminal ⟨b.nonterminals.size⟩)
      (b.withAlphabet (b.addNonterminal name fresh) fun _ h => h.addNonterminal)
  | rule {left : Nonterminal} {right : Array Symbol} (room : b.rules.size + 1 < numberLimit)
    (declared : b.DeclaresRule ⟨left, right⟩) (fresh : ⟨left, right⟩ ∉ b.rules.toList) :
    Adds b (.rule left right) (.rule ⟨b.rules.size + 1⟩) (b.addRule ⟨left, right⟩ declared fresh)
  | start {symbol : Nonterminal} (declared : b.Declares (.nonterminal symbol)) :
    Adds b (.start symbol) .start
      { b with start := some symbol, start_declared := by simpa using declared }

variable {b b' : Builder} {d : Declaration} {x : Declared}

theorem run_eq_ok_iff : d.run b = .ok (x, b') ↔ Adds b d x b' := by
  cases d with
  | terminal name =>
    rw [run, StateT.map_eq_ok_iff]
    simp only [Builder.terminal_eq_ok_iff]
    constructor
    · rintro ⟨_, ⟨acceptable, room, fresh, rfl, rfl⟩, rfl⟩
      exact .terminal acceptable room fresh
    · rintro ⟨⟩
      exact ⟨_, ⟨‹_›, ‹_›, ‹_›, rfl, rfl⟩, rfl⟩
  | nonterminal name =>
    rw [run, StateT.map_eq_ok_iff]
    simp only [Builder.nonterminal_eq_ok_iff]
    constructor
    · rintro ⟨_, ⟨acceptable, room, fresh, rfl, rfl⟩, rfl⟩
      exact .nonterminal acceptable room fresh
    · rintro ⟨⟩
      exact ⟨_, ⟨‹_›, ‹_›, ‹_›, rfl, rfl⟩, rfl⟩
  | rule left right =>
    rw [run, StateT.map_eq_ok_iff]
    simp only [Builder.rule_eq_ok_iff]
    constructor
    · rintro ⟨_, ⟨room, declared, fresh, rfl, rfl⟩, rfl⟩
      exact .rule room declared fresh
    · rintro ⟨⟩
      exact ⟨_, ⟨‹_›, ‹_›, ‹_›, rfl, rfl⟩, rfl⟩
  | start symbol =>
    rw [run, StateT.map_eq_ok_iff]
    simp only [Builder.startFrom_eq_ok_iff]
    constructor
    · rintro ⟨_, ⟨declared, rfl⟩, rfl⟩
      exact .start declared
    · rintro ⟨⟩
      exact ⟨(), ⟨‹_›, rfl⟩, rfl⟩

/-! ## Declarations one after another -/

/-- The name that a declaration gives to a terminal. -/
def terminalName? : Declaration → Option String
  | .terminal name => some name
  | _ => none

/-- The name that a declaration gives to a nonterminal. -/
def nonterminalName? : Declaration → Option String
  | .nonterminal name => some name
  | _ => none

/-- The rule that a declaration makes. -/
def rule? : Declaration → Option Rule
  | .rule left right => some ⟨left, right⟩
  | _ => none

/-- The start symbol that a declaration names. -/
def start? : Declaration → Option Nonterminal
  | .start symbol => some symbol
  | _ => none

/-- The declarations that are not refused, by what each did. -/
def accepted (ds : List Declaration) (steps : List (Except Fault Declared)) : List Declaration :=
  ((ds.zip steps).filter fun p => p.2.isOk).map Prod.fst

/-- What declarations have answered, those that are refused left out. -/
def answers (steps : List (Except Fault Declared)) : List Declared :=
  steps.filterMap Except.toOption

end Declaration

/-- The terminal that has been added. -/
def Declared.terminal? : Declared → Option Terminal
  | .terminal t => some t
  | _ => none

/-- The nonterminal that has been added. -/
def Declared.nonterminal? : Declared → Option Nonterminal
  | .nonterminal n => some n
  | _ => none

/-- The rule that has been added. -/
def Declared.rule? : Declared → Option RuleId
  | .rule r => some r
  | _ => none

/-- Entries that declarations have made, one after another, and the numbers that these have
answered: they count from one. -/
structure Entered {α κ : Type} (added? : Declaration → Option α) (number? : Declared → Option κ)
    (number : Nat → κ) (entries : List α) (made : List Declaration) (answers : List Declared) :
    Prop where
  entries_eq : entries = made.filterMap added?
  numbers_eq : answers.filterMap number? = (List.range' 1 entries.length).map number

/-- A builder holds what declarations have made, at the numbers that they have answered. -/
structure Builder.Records (b : Builder) (made : List Declaration) (answers : List Declared) :
    Prop where
  terminals : Entered Declaration.terminalName? Declared.terminal? Terminal.mk
    b.terminals.toList.tail made answers
  nonterminals : Entered Declaration.nonterminalName? Declared.nonterminal? Nonterminal.mk
    b.nonterminals.toList.tail made answers
  rules : Entered Declaration.rule? Declared.rule? RuleId.mk b.rules.toList made answers
  start : b.start = (made.filterMap Declaration.start?).getLast?

/-- Every number that is given, and the one that comes next, has 16 bits. -/
structure Builder.Fits (b : Builder) : Prop where
  terminals : b.terminals.size ≤ numberLimit
  nonterminals : b.nonterminals.size ≤ numberLimit
  rules : b.rules.size + 1 ≤ numberLimit

theorem filterMap_concat {α β : Type} (f : α → Option β) (l : List α) (a : α) :
    (l ++ [a]).filterMap f = l.filterMap f ++ (f a).toList := by
  rw [List.filterMap_append, List.filterMap_cons]
  cases f a <;> rfl

section

variable {α κ : Type} {added? : Declaration → Option α} {number? : Declared → Option κ}
  {number : Nat → κ} {entries : List α} {made : List Declaration} {answers : List Declared}
  {d : Declaration} {x : Declared} {a : α}

/-- A declaration of another kind makes no entry. -/
theorem Entered.other (h : Entered added? number? number entries made answers)
    (hd : added? d = none) (hx : number? x = none) :
    Entered added? number? number entries (made ++ [d]) (answers ++ [x]) where
  entries_eq := by rw [filterMap_concat, hd, ← h.entries_eq, Option.toList_none, List.append_nil]
  numbers_eq := by rw [filterMap_concat, hx, ← h.numbers_eq, Option.toList_none, List.append_nil]

/-- A declaration of the kind makes an entry at the next number. -/
theorem Entered.concat (h : Entered added? number? number entries made answers)
    (hd : added? d = some a) (hx : number? x = some (number (entries.length + 1))) :
    Entered added? number? number (entries ++ [a]) (made ++ [d]) (answers ++ [x]) where
  entries_eq := by rw [filterMap_concat, hd, ← h.entries_eq, Option.toList_some]
  numbers_eq := by
    rw [filterMap_concat, hx, h.numbers_eq, List.length_append, List.length_singleton,
      List.range'_concat, List.map_append, Nat.one_mul, Nat.add_comm 1]
    rfl

end

theorem tail_push {α : Type} {xs : Array α} (h : 0 < xs.size) (x : α) :
    (xs.push x).toList.tail = xs.toList.tail ++ [x] ∧ xs.toList.tail.length + 1 = xs.size := by
  rw [Array.toList_push, List.tail_append_of_ne_nil (by simpa using Nat.ne_of_gt h),
    List.length_tail, Array.length_toList]
  exact ⟨rfl, Nat.sub_add_cancel h⟩

namespace Declaration

variable {b b' : Builder} {d : Declaration} {x : Declared} {made : List Declaration}
  {given : List Declared} {fault : Fault}

theorem records_empty : Builder.empty.Records [] [] := ⟨⟨rfl, rfl⟩, ⟨rfl, rfl⟩, ⟨rfl, rfl⟩, rfl⟩

/-- What is declared without being a start symbol leaves the start symbol as it is. -/
theorem start_of_ne {b : Builder} (start : b.start = (made.filterMap start?).getLast?)
    (hd : d.start? = none) : b.start = ((made ++ [d]).filterMap start?).getLast? := by
  rw [filterMap_concat, hd, Option.toList_none, List.append_nil, start]

theorem Adds.records (h : Adds b d x b') (before : b.Records made given) :
    b'.Records (made ++ [d]) (given ++ [x]) := by
  obtain ⟨terminals, nonterminals, rules, start⟩ := before
  cases h with
  | @terminal name =>
    obtain ⟨pushed, count⟩ := tail_push (Array.getElem?_eq_some_iff.1 b.terminals_zero).1 name
    have terminals' := terminals.concat (d := .terminal name) (x := .terminal ⟨b.terminals.size⟩)
      rfl (by rw [count]; rfl)
    rw [← pushed] at terminals'
    exact ⟨terminals', nonterminals.other rfl rfl, rules.other rfl rfl, start_of_ne start rfl⟩
  | @nonterminal name =>
    obtain ⟨pushed, count⟩ := tail_push (Array.getElem?_eq_some_iff.1 b.nonterminals_zero).1 name
    have nonterminals' := nonterminals.concat (d := .nonterminal name)
      (x := .nonterminal ⟨b.nonterminals.size⟩) rfl (by rw [count]; rfl)
    rw [← pushed] at nonterminals'
    exact ⟨terminals.other rfl rfl, nonterminals', rules.other rfl rfl, start_of_ne start rfl⟩
  | @rule left right =>
    have rules' := rules.concat (d := .rule left right) (x := .rule ⟨b.rules.size + 1⟩) rfl
      (by rw [Array.length_toList]; rfl)
    rw [← Array.toList_push] at rules'
    exact ⟨terminals.other rfl rfl, nonterminals.other rfl rfl, rules', start_of_ne start rfl⟩
  | @start symbol =>
    refine ⟨terminals.other rfl rfl, nonterminals.other rfl rfl, rules.other rfl rfl, ?_⟩
    rw [filterMap_concat]
    exact List.getLast?_concat.symm

theorem fits_empty : Builder.empty.Fits := by
  constructor <;> decide

theorem Adds.fits (h : Adds b d x b') (before : b.Fits) : b'.Fits := by
  obtain ⟨terminals, nonterminals, rules⟩ := before
  cases h with
  | @terminal name _ room =>
    refine ⟨?_, nonterminals, rules⟩
    change (b.terminals.push name).size ≤ numberLimit
    rwa [Array.size_push]
  | @nonterminal name _ room =>
    refine ⟨terminals, ?_, rules⟩
    change (b.nonterminals.push name).size ≤ numberLimit
    rwa [Array.size_push]
  | @rule left right room =>
    refine ⟨terminals, nonterminals, ?_⟩
    change (b.rules.push ⟨left, right⟩).size + 1 ≤ numberLimit
    rwa [Array.size_push]
  | start => exact ⟨terminals, nonterminals, rules⟩

theorem runEach_cons_of_error (h : d.run b = .error fault) (ds : List Declaration) :
    runEach (d :: ds) b = (.error fault :: (runEach ds b).1, (runEach ds b).2) := by
  rw [runEach, h]
  rfl

theorem runEach_cons_of_ok (h : d.run b = .ok (x, b')) (ds : List Declaration) :
    runEach (d :: ds) b = (.ok x :: (runEach ds b').1, (runEach ds b').2) := by
  rw [runEach, h]
  rfl

/-- Making only the declarations that are not refused: they all succeed, answer the same and lead to
the same builder. -/
theorem runAll_accepted (ds : List Declaration) (b : Builder) :
    runAll (accepted ds (runEach ds b).1) b =
      ((answers (runEach ds b).1).map .ok, .ok (runEach ds b).2) := by
  induction ds generalizing b with
  | nil => rfl
  | cons d ds ih =>
    cases h : d.run b with
    | error fault =>
      rw [runEach_cons_of_error h]
      exact ih b
    | ok p =>
      obtain ⟨x, b'⟩ := p
      rw [runEach_cons_of_ok h]
      change runAll (d :: accepted ds (runEach ds b').1) b = _
      rw [runAll, h]
      dsimp only
      rw [ih b']
      rfl

/-- A builder holds what declarations have made that are not refused. -/
theorem records_runEach (ds : List Declaration) (before : b.Records made given) (room : b.Fits) :
    (runEach ds b).2.Records (made ++ accepted ds (runEach ds b).1)
        (given ++ answers (runEach ds b).1) ∧ (runEach ds b).2.Fits := by
  induction ds generalizing b made given with
  | nil => exact ⟨by simpa [runEach, accepted, answers] using before, room⟩
  | cons d ds ih =>
    cases h : d.run b with
    | error fault =>
      rw [runEach_cons_of_error h]
      exact ih before room
    | ok p =>
      obtain ⟨x, b'⟩ := p
      have adds := run_eq_ok_iff.1 h
      have after := ih (adds.records before) (adds.fits room)
      rw [List.append_assoc, List.append_assoc] at after
      rw [runEach_cons_of_ok h]
      exact after

end Declaration

/-! ## The grammar declared -/

namespace Builder

variable {b : Builder} {g : Grammar} {fault : Fault}

theorem rules_augment {n : Nonterminal} (declared : b.Declares (.nonterminal n)) :
    (b.augment n declared).rules.toList = .augmenting n :: b.rules.toList := Array.toList_append

/-- A grammar starts from the symbol that was named, or else from the first nonterminal. -/
theorem finish_of_declares (declared : b.Declares (.nonterminal (b.start.getD ⟨1⟩))) :
    b.finish = .ok (b.augment _ declared) := by
  unfold finish
  split
  · next n named =>
    have same : b.start.getD ⟨1⟩ = n := by rw [named, Option.getD_some]
    simp only [same]
    rfl
  · next unnamed =>
    have same : b.start.getD ⟨1⟩ = ⟨1⟩ := by rw [unnamed, Option.getD_none]
    simp only [same] at declared ⊢
    rw [dif_pos declared]
    rfl

/-- There is no grammar without nonterminals. -/
theorem finish_of_not_declares (h : ¬ b.Declares (.nonterminal (b.start.getD ⟨1⟩))) :
    b.finish = .error .noNonterminal := by
  unfold finish
  split
  · next n named =>
    rw [named, Option.getD_some] at h
    exact absurd (b.start_declared n named) h
  · next unnamed =>
    rw [unnamed, Option.getD_none] at h
    rw [dif_neg h]
    rfl

theorem declares_start_iff :
    b.Declares (.nonterminal (b.start.getD ⟨1⟩)) ↔ b.nonterminals.toList.tail ≠ [] := by
  have some_left : b.nonterminals.toList.tail ≠ [] ↔ 1 < b.nonterminals.size := by
    rw [← List.length_pos_iff, List.length_tail, Array.length_toList, Nat.sub_pos_iff_lt]
  rw [some_left]
  cases named : b.start with
  | none => exact and_iff_right Nat.one_pos
  | some n =>
    have declared := b.start_declared n named
    exact iff_of_true declared (Nat.lt_of_le_of_lt declared.1 declared.2)

theorem finish_eq_error_iff :
    b.finish = .error fault ↔ fault = .noNonterminal ∧ b.nonterminals.toList.tail = [] := by
  by_cases declared : b.Declares (.nonterminal (b.start.getD ⟨1⟩))
  · rw [finish_of_declares declared]
    exact ⟨nofun, fun ⟨_, none_left⟩ ↦ absurd none_left (declares_start_iff.1 declared)⟩
  · rw [finish_of_not_declares declared]
    have none_left := not_not.1 (mt declares_start_iff.2 declared)
    exact ⟨fun e ↦ ⟨(Except.error.inj e).symm, none_left⟩, fun ⟨e, _⟩ ↦ e ▸ rfl⟩

theorem eq_augment_of_finish (h : b.finish = .ok g) :
    ∃ declared : b.Declares (.nonterminal (b.start.getD ⟨1⟩)), g = b.augment _ declared := by
  by_cases declared : b.Declares (.nonterminal (b.start.getD ⟨1⟩))
  · rw [finish_of_declares declared] at h
    exact ⟨declared, (Except.ok.inj h).symm⟩
  · rw [finish_of_not_declares declared] at h
    cases h

end Builder

end SimpleLR

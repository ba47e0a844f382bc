import SimpleLR.Grammar.Description.Reader
import SimpleLR.Proofs.Outcome
import SimpleLR.Proofs.Text.Lines

/-!
# The format of descriptions

Which lines describe a grammar, and what they say of it (`Describes`), and that each line is read as
what it says.
-/

namespace SimpleLR.Description

open Text (Blanks Solid Trims isBlank trim)

/-- The names of nonterminals that a description lists. -/
def nonterminalNames (d : Description) : List Char := d.nonterminals.map Located.value

/-- The names of terminals that a description lists. -/
def terminalNames (d : Description) : List Char := d.terminals.map Located.value

/-- The rules that a description lists. -/
def rules (d : Description) : List Production := d.productions.map Located.value

/-- Decimal digits, at least one, that write a number. -/
structure Numeral (digits : List Char) (n : Nat) : Prop where
  nonempty : digits ≠ []
  decimal : ∀ c ∈ digits, c.isDigit = true
  value : Nat.ofDigitChars 10 digits 0 = n

/-- A line that states a number, which may have a plus sign. -/
structure CountLine (n : Nat) (line : List Char) : Prop where
  written : ∃ digits, Numeral digits n ∧ (Trims line digits ∨ Trims line ('+' :: digits))
  below : n < countLimit

/-- A line, or a part of one, that names a symbol. -/
structure NameLine (c : Char) (line : List Char) : Prop where
  alone : Trims line [c]
  unmarked : c ≠ emptyMark

/-- The two sides of the first arrow of a text. -/
structure FirstArrow (text before after : List Char) : Prop where
  split : text = before ++ '-' :: '>' :: after
  first : ∀ before' after', text = before' ++ '-' :: '>' :: after' → before.length ≤ before'.length

/-- A text that is the right side of a rule: but for blanks, it is the empty mark or has none. -/
inductive RightSide : List Char → List Char → Prop
  | empty {text : List Char} (marked : text.filter (!isBlank ·) = [emptyMark]) : RightSide [] text
  | symbols {text : List Char} (unmarked : emptyMark ∉ text) :
    RightSide (text.filter (!isBlank ·)) text

/-- A line that states a rule. -/
inductive RuleLine : Production → List Char → Prop
  | intro {line text before after right : List Char} {left : Char} (trimmed : Trims line text)
    (arrow : FirstArrow text before after) (name : NameLine left before)
    (symbols : RightSide right after) : RuleLine ⟨left, right⟩ line

/-- Values on lines of their own, from a line on. -/
def onLines {α : Type} : Nat → List α → List (Located α)
  | _, [] => []
  | line, x :: xs => ⟨line, x⟩ :: onLines (line + 1) xs

/-- What a description says that lists names and rules in that order, after three lines. -/
def listing (nonterminals terminals : List Char) (productions : List Production) : Description where
  nonterminals := onLines 4 nonterminals
  terminals := onLines (4 + nonterminals.length) terminals
  productions := onLines (4 + nonterminals.length + terminals.length) productions

theorem map_value_onLines {α : Type} (line : Nat) (xs : List α) :
    (onLines line xs).map Located.value = xs := by
  induction xs generalizing line with
  | nil => rfl
  | cons x xs ih => exact congrArg (x :: ·) (ih (line + 1))

@[simp] theorem nonterminalNames_listing (ns ts : List Char) (ps : List Production) :
    (listing ns ts ps).nonterminalNames = ns := map_value_onLines _ _

@[simp] theorem terminalNames_listing (ns ts : List Char) (ps : List Production) :
    (listing ns ts ps).terminalNames = ts := map_value_onLines _ _

@[simp] theorem rules_listing (ns ts : List Char) (ps : List Production) :
    (listing ns ts ps).rules = ps := map_value_onLines _ _

/-- Lines that describe a grammar. -/
inductive Describes : List (List Char) → Description → Prop
  | intro {i j k : List Char} {nonterminalLines terminalLines ruleLines rest : List (List Char)}
    {nonterminals terminals : List Char} {productions : List Production}
    (nonterminalCount : CountLine nonterminals.length i)
    (terminalCount : CountLine terminals.length j)
    (ruleCount : CountLine productions.length k)
    (nonterminalNames : List.Forall₂ NameLine nonterminals nonterminalLines)
    (terminalNames : List.Forall₂ NameLine terminals terminalLines)
    (rules : List.Forall₂ RuleLine productions ruleLines)
    (blank : ∀ line ∈ rest, Blanks line) :
    Describes (i :: j :: k :: (nonterminalLines ++ terminalLines ++ ruleLines ++ rest))
      (listing nonterminals terminals productions)

/-! ## Lines are read as what they say -/

variable {cs line text before after right : List Char} {n : Nat} {c left : Char} {p : Production}

theorem digits?_eq_some_iff : digits? cs = some n ↔ Numeral cs n := by
  rw [digits?]
  by_cases proper : cs.isEmpty || !cs.all Char.isDigit
  · rw [if_pos proper]
    refine ⟨nofun, fun h ↦ ?_⟩
    have nonempty := h.nonempty
    have decimal := List.all_eq_true.2 h.decimal
    simp [nonempty, decimal] at proper
  · rw [if_neg proper]
    simp only [Bool.or_eq_true, not_or, List.isEmpty_iff, Bool.not_eq_true', Bool.not_eq_false,
      List.all_eq_true] at proper
    exact ⟨fun h ↦ ⟨proper.1, proper.2, Option.some.inj h⟩, fun h ↦ congrArg some h.value⟩

theorem not_numeral_plus : ¬ Numeral ('+' :: cs) n := fun h ↦
  absurd (h.decimal '+' List.mem_cons_self) (by decide)

theorem count?_eq_some_iff : count? cs = some n ↔
    (∃ digits, Numeral digits n ∧ (cs = digits ∨ cs = '+' :: digits)) ∧ n < countLimit := by
  rw [count?.eq_def, Option.filter_eq_some_iff, decide_eq_true_iff]
  refine and_congr_left fun _ ↦ ?_
  split
  · next cs =>
    rw [digits?_eq_some_iff]
    constructor
    · intro h
      exact ⟨cs, h, .inr rfl⟩
    · rintro ⟨digits, h, rfl | e⟩
      · exact absurd h not_numeral_plus
      · cases e
        exact h
  · next unsigned =>
    rw [digits?_eq_some_iff]
    constructor
    · intro h
      exact ⟨cs, h, .inl rfl⟩
    · rintro ⟨digits, h, rfl | e⟩
      · exact h
      · exact absurd e (unsigned digits)

theorem count?_trim_eq_some_iff : count? (trim line) = some n ↔ CountLine n line := by
  simp only [count?_eq_some_iff, Text.trim_eq_iff]
  exact ⟨fun ⟨written, below⟩ ↦ ⟨written, below⟩, fun ⟨written, below⟩ ↦ ⟨written, below⟩⟩

theorem symbolName_eq_ok_iff : symbolName n cs = .ok c ↔ cs = [c] ∧ isSymbolName c := by
  unfold symbolName
  split
  · next d =>
    by_cases name : isSymbolName d = true
    · rw [if_pos name]
      constructor
      · rintro ⟨⟩
        exact ⟨rfl, name⟩
      · rintro ⟨⟨⟩, _⟩
        rfl
    · rw [if_neg name]
      refine ⟨nofun, ?_⟩
      rintro ⟨⟨⟩, name'⟩
      exact absurd name' name
  · next several => exact ⟨nofun, fun ⟨one, _⟩ ↦ absurd one (several c)⟩

theorem isSymbolName_iff : isSymbolName c = true ↔ isBlank c = false ∧ c ≠ emptyMark := by
  simp [isSymbolName]

theorem symbolName_trim_eq_ok_iff : symbolName n (trim line) = .ok c ↔ NameLine c line := by
  rw [symbolName_eq_ok_iff, Text.trim_eq_iff, isSymbolName_iff]
  exact ⟨fun ⟨alone, _, unmarked⟩ ↦ ⟨alone, unmarked⟩,
    fun ⟨alone, unmarked⟩ ↦ ⟨alone, alone.starts c rfl, unmarked⟩⟩

/-! ### Rules -/

theorem firstArrow_cons_iff (h : ∀ cs, c :: text ≠ '-' :: '>' :: cs) :
    FirstArrow (c :: text) before after ↔
      ∃ before', before = c :: before' ∧ FirstArrow text before' after := by
  constructor
  · rintro ⟨split, first⟩
    cases before with
    | nil => exact absurd split (h after)
    | cons d before =>
      obtain ⟨rfl, rest⟩ := List.cons.inj split
      exact ⟨before, rfl, rest, fun before' after' e ↦
        Nat.le_of_succ_le_succ (first (c :: before') after' (congrArg (c :: ·) e))⟩
  · rintro ⟨before, rfl, split, first⟩
    refine ⟨congrArg (c :: ·) split, fun before' after' e ↦ ?_⟩
    cases before' with
    | nil => exact absurd e (h after')
    | cons d before' => exact Nat.succ_le_succ (first before' after' (List.cons.inj e).2)

theorem splitArrow_eq_some_iff :
    splitArrow text = some (before, after) ↔ FirstArrow text before after := by
  fun_induction splitArrow text generalizing before with
  | case1 => exact ⟨nofun, fun h ↦ by simpa using h.split⟩
  | case2 cs =>
    constructor
    · rintro ⟨⟩
      exact ⟨rfl, fun _ _ _ ↦ Nat.zero_le _⟩
    · rintro ⟨split, first⟩
      obtain rfl := List.length_eq_zero_iff.1 (Nat.le_zero.1 (first [] cs rfl))
      cases split
      rfl
  | case3 c cs other ih =>
    rw [firstArrow_cons_iff fun rest e ↦ by cases e; exact other rest rfl rfl]
    simp only [Option.map_eq_some_iff, Prod.exists, Prod.mk.injEq, ← ih]
    constructor
    · rintro ⟨before', _, h, rfl, rfl⟩
      exact ⟨before', rfl, h⟩
    · rintro ⟨before', rfl, h⟩
      exact ⟨before', after, h, rfl, rfl⟩

/-- Symbols side by side are read one by one. -/
theorem mapM_symbolName_eq_ok_iff (solid : Solid cs) :
    (cs.mapM fun c ↦ symbolName n [c]) = .ok right ↔ right = cs ∧ emptyMark ∉ cs := by
  rw [Except.mapM_eq_ok_iff]
  induction cs generalizing right with
  | nil => simp
  | cons c cs ih =>
    rw [List.forall₂_cons_left_iff]
    have named : ∀ c', symbolName n [c] = .ok c' ↔ c' = c ∧ c ≠ emptyMark := fun c' ↦ by
      rw [symbolName_eq_ok_iff, isSymbolName_iff]
      constructor
      · rintro ⟨⟨⟩, _, unmarked⟩
        exact ⟨rfl, unmarked⟩
      · rintro ⟨rfl, unmarked⟩
        exact ⟨rfl, solid c' List.mem_cons_self, unmarked⟩
    simp only [named, ih fun c' mem ↦ solid c' (List.mem_cons_of_mem _ mem), List.mem_cons, not_or]
    constructor
    · rintro ⟨_, _, ⟨rfl, ne⟩, ⟨rfl, unmarked⟩, rfl⟩
      exact ⟨rfl, ne.symm, unmarked⟩
    · rintro ⟨rfl, ne, unmarked⟩
      exact ⟨c, cs, ⟨rfl, Ne.symm ne⟩, ⟨rfl, unmarked⟩, rfl⟩

theorem isBlank_emptyMark : isBlank emptyMark = false := by decide

theorem rightSide_eq_ok_iff : rightSide n cs = .ok right ↔ RightSide right cs := by
  have mark : emptyMark ∈ cs.filter (!isBlank ·) ↔ emptyMark ∈ cs :=
    Text.mem_filter_solid isBlank_emptyMark
  have alone : Text.trim cs = [emptyMark] ↔ cs.filter (!isBlank ·) = [emptyMark] :=
    Text.trim_eq_singleton_iff isBlank_emptyMark
  rw [rightSide]
  by_cases marked : cs.filter (!isBlank ·) = [emptyMark]
  · rw [if_pos (alone.2 marked)]
    constructor
    · rintro ⟨⟩
      exact .empty marked
    · rintro (_ | unmarked)
      · rfl
      · exact absurd (mark.1 (marked ▸ List.mem_singleton_self _)) unmarked
  · rw [if_neg (mt alone.1 marked), mapM_symbolName_eq_ok_iff (Text.solid_filter cs), mark]
    constructor
    · rintro ⟨rfl, unmarked⟩
      exact .symbols unmarked
    · rintro (marked' | unmarked)
      · exact absurd marked' marked
      · exact ⟨rfl, unmarked⟩

theorem production_trim_eq_ok_iff : production n (trim line) = .ok p ↔ RuleLine p line := by
  unfold production
  split
  · next none_found =>
    refine ⟨nofun, ?_⟩
    rintro ⟨trimmed, arrow, _, _⟩
    rw [Text.trim_eq_iff.2 trimmed, splitArrow_eq_some_iff.2 arrow] at none_found
    cases none_found
  · next before after found =>
    constructor
    · intro h
      obtain ⟨left, name, h⟩ := Except.bind_eq_ok_iff.1 h
      obtain ⟨right, symbols, h⟩ := Except.bind_eq_ok_iff.1 h
      cases h
      exact ⟨Text.trims_trim line, splitArrow_eq_some_iff.1 found,
        symbolName_trim_eq_ok_iff.1 name, rightSide_eq_ok_iff.1 symbols⟩
    · rintro ⟨trimmed, arrow, name, symbols⟩
      rw [Text.trim_eq_iff.2 trimmed, splitArrow_eq_some_iff.2 arrow] at found
      cases found
      exact Except.bind_eq_ok_iff.2 ⟨_, symbolName_trim_eq_ok_iff.2 name,
        Except.bind_eq_ok_iff.2 ⟨_, rightSide_eq_ok_iff.2 symbols, rfl⟩⟩

end SimpleLR.Description

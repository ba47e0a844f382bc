import SimpleLR.Proofs.Grammar.Description.Reading

/-!
# Printed descriptions

A description may be printed with any blanks between its parts, and with or without the mark of an
empty right side (`Prints`). It is read back from all of these texts, whatever characters the names
are, those of the arrow included (`ofText_format`).
-/

namespace SimpleLR.Description

open Text (Blanks Solid Trims isBlank)

/-- Blanks on one line. -/
structure Gap (cs : List Char) : Prop where
  blanks : Blanks cs
  whole : '\n' ∉ cs

/-- Pieces of text on one line, with gaps around and between them. -/
inductive Spaced : List (List Char) → List Char → Prop
  | nil {gap : List Char} (end' : Gap gap) : Spaced [] gap
  | cons {gap piece line : List Char} {pieces : List (List Char)} (before : Gap gap)
    (after : Spaced pieces line) : Spaced (piece :: pieces) (gap ++ (piece ++ line))

/-- The right side of a rule, symbol by symbol; the mark may stand for an empty one. -/
inductive Spelling : List Char → List (List Char) → Prop
  | mark : Spelling [] [[emptyMark]]
  | symbols (right : List Char) : Spelling right (right.map fun c ↦ [c])

def PrintsCount (n : Nat) (line : List Char) : Prop := Spaced [(toString n).toList] line

def PrintsName (c : Char) (line : List Char) : Prop := Spaced [[c]] line

def PrintsRule (p : Production) (line : List Char) : Prop :=
  ∃ symbols, Spelling p.right symbols ∧ Spaced ([p.left] :: ['-', '>'] :: symbols) line

/-- Lines that print names and rules, one on each. -/
inductive Prints (nonterminals terminals : List Char) (productions : List Production) :
    List (List Char) → Prop
  | intro {i j k : List Char} {nonterminalLines terminalLines ruleLines rest : List (List Char)}
    (nonterminalCount : PrintsCount nonterminals.length i)
    (terminalCount : PrintsCount terminals.length j)
    (ruleCount : PrintsCount productions.length k)
    (nonterminalNames : List.Forall₂ PrintsName nonterminals nonterminalLines)
    (terminalNames : List.Forall₂ PrintsName terminals terminalLines)
    (rules : List.Forall₂ PrintsRule productions ruleLines)
    (blank : ∀ line ∈ rest, Gap line) :
    Prints nonterminals terminals productions
      (i :: j :: k :: (nonterminalLines ++ terminalLines ++ ruleLines ++ rest))

/-- Names that a description may list, of which there are not too many to be counted. -/
structure Listable (nonterminals terminals : List Char) (productions : List Production) : Prop where
  nonterminal_names : ∀ c ∈ nonterminals, isSymbolName c
  terminal_names : ∀ c ∈ terminals, isSymbolName c
  left_names : ∀ p ∈ productions, isSymbolName p.left
  right_names : ∀ p ∈ productions, ∀ c ∈ p.right, isSymbolName c
  nonterminals_lt : nonterminals.length < countLimit
  terminals_lt : terminals.length < countLimit
  productions_lt : productions.length < countLimit

/-! ## Printed lines say what they print -/

variable {cs line piece : List Char} {pieces : List (List Char)} {c : Char} {n : Nat}
  {p : Production}

theorem solid_singleton (h : isSymbolName c = true) : Solid [c] := fun _ mem ↦
  List.mem_singleton.1 mem ▸ (isSymbolName_iff.1 h).1

theorem Spaced.trims (h : Spaced [piece] line) (solid : Solid piece) : Trims line piece := by
  obtain _ | ⟨before, ⟨after⟩⟩ := h
  exact ⟨⟨_, _, before.blanks, after.blanks, (List.append_assoc _ _ _).symm⟩, solid.startsSolid,
    solid.reverse.startsSolid⟩

/-- But for the blanks, a line is the pieces on it. -/
theorem Spaced.filter (h : Spaced pieces line) (solid : ∀ piece ∈ pieces, Solid piece) :
    line.filter (!isBlank ·) = pieces.flatten := by
  induction h with
  | nil gap => exact Text.filter_blanks gap.blanks
  | cons gap _ ih =>
    obtain ⟨here, solid⟩ := List.forall_mem_cons.1 solid
    rw [List.filter_append, List.filter_append, Text.filter_blanks gap.blanks,
      Solid.filter_eq here, ih solid]
    rfl

theorem Spaced.whole (h : Spaced pieces line) (solid : ∀ piece ∈ pieces, Solid piece) :
    '\n' ∉ line := by
  induction h with
  | nil gap => exact gap.whole
  | cons gap _ ih =>
    obtain ⟨here, solid⟩ := List.forall_mem_cons.1 solid
    have feed : '\n' ∉ _ := fun mem ↦ absurd (here '\n' mem) (by decide)
    rw [List.mem_append, List.mem_append, not_or, not_or]
    exact ⟨gap.whole, feed, ih solid⟩

/-! ### Counts -/

theorem numeral_toString (n : Nat) : Numeral (toString n).toList n where
  nonempty := by
    rw [Nat.toString_eq_repr, Nat.toList_repr]
    exact Nat.toDigits_ne_nil
  decimal c mem := by
    rw [Nat.toString_eq_repr, Nat.toList_repr] at mem
    exact Nat.isDigit_of_mem_toDigits (by decide) (by decide) mem
  value := by
    rw [Nat.toString_eq_repr, Nat.toList_repr]
    exact Nat.ofDigitChars_toDigits (by decide) (by decide)

theorem isBlank_of_isDigit (h : c.isDigit = true) : isBlank c = false := by
  obtain ⟨low, high⟩ := Char.isDigit_iff_toNat.1 h
  change 48 ≤ c.toNat at low
  change c.toNat ≤ 57 at high
  simp only [isBlank, Bool.or_eq_false_iff, Bool.and_eq_false_iff, decide_eq_false_iff_not,
    beq_eq_false_iff_ne]
  omega

theorem Numeral.solid (h : Numeral cs n) : Solid cs := fun c mem ↦
  isBlank_of_isDigit (h.decimal c mem)

theorem PrintsCount.countLine (h : PrintsCount n line) (below : n < countLimit) :
    CountLine n line ∧ '\n' ∉ line := by
  have solid := (numeral_toString n).solid
  exact ⟨⟨⟨_, numeral_toString n, .inl (Spaced.trims h solid)⟩, below⟩,
    Spaced.whole h (by simpa using solid)⟩

theorem PrintsName.nameLine (name : isSymbolName c) (h : PrintsName c line) :
    NameLine c line ∧ '\n' ∉ line := by
  have solid := solid_singleton name
  exact ⟨⟨Spaced.trims h solid, (isSymbolName_iff.1 name).2⟩, Spaced.whole h (by simpa using solid)⟩

/-! ### Rules -/

/-- There is no arrow before the one that follows a character and blanks: the character may be part
of an arrow, but what follows it is not. -/
theorem firstArrow_of_blanks {gap : List Char} (blanks : Blanks gap) (c : Char)
    (after : List Char) : FirstArrow (c :: (gap ++ '-' :: '>' :: after)) (c :: gap) after := by
  refine ⟨rfl, fun before' after' e ↦ not_lt.1 fun short ↦ ?_⟩
  have arrowEnd : (gap ++ '-' :: '>' :: after)[before'.length]? = some '>' := by
    have at_end := congrArg (·[before'.length + 1]?) e
    simpa using at_end
  rcases Nat.lt_or_eq_of_le (Nat.le_of_lt_succ short) with within | same
  · rw [List.getElem?_append_left within] at arrowEnd
    exact absurd (blanks '>' (List.mem_of_getElem? arrowEnd)) (by decide)
  · rw [same, List.getElem?_append_right (Nat.le_refl _), Nat.sub_self] at arrowEnd
    cases arrowEnd

theorem Spelling.rightSide {right : List Char} (h : Spelling right pieces)
    (names : ∀ c ∈ right, isSymbolName c) (shown : cs.filter (!isBlank ·) = pieces.flatten) :
    RightSide right cs := by
  cases h with
  | mark => exact .empty shown
  | symbols =>
    have symbols : cs.filter (!isBlank ·) = right := by
      rw [shown, ← List.flatMap_def, List.flatMap_singleton']
    have unmarked : emptyMark ∉ cs := fun mem ↦ by
      rw [← Text.mem_filter_solid isBlank_emptyMark, symbols] at mem
      exact (isSymbolName_iff.1 (names _ mem)).2 rfl
    exact symbols ▸ .symbols unmarked

theorem Spelling.solid {right : List Char} (h : Spelling right pieces)
    (names : ∀ c ∈ right, isSymbolName c) : ∀ piece ∈ pieces, Solid piece := by
  cases h with
  | mark => simp [Solid, isBlank_emptyMark]
  | symbols =>
    simp only [List.mem_map, forall_exists_index, and_imp, forall_apply_eq_imp_iff₂]
    exact fun c mem ↦ solid_singleton (names c mem)

theorem solid_arrow : Solid ['-', '>'] := by
  simp [Solid, isBlank]

theorem PrintsRule.ruleLine (names : isSymbolName p.left ∧ ∀ c ∈ p.right, isSymbolName c)
    (h : PrintsRule p line) : RuleLine p line ∧ '\n' ∉ line := by
  obtain ⟨left, right⟩ := names
  obtain ⟨symbols, spelling, spaced⟩ := h
  have whole := spaced.whole (List.forall_mem_cons.2 ⟨solid_singleton left,
    List.forall_mem_cons.2 ⟨solid_arrow, spelling.solid right⟩⟩)
  obtain _ | @⟨front, _, _, _, hfront, spaced⟩ := spaced
  obtain _ | @⟨between, _, rest, _, hbetween, spaced⟩ := spaced
  have shown := spaced.filter (spelling.solid right)
  obtain ⟨body, tail, rfl, blank, ends⟩ := Text.exists_append_blanks rest
  rw [List.filter_append, Text.filter_blanks blank, List.append_nil] at shown
  have name : NameLine p.left (p.left :: between) :=
    ⟨⟨⟨[], between, Text.blanks_nil, hbetween.blanks, rfl⟩, (solid_singleton left).startsSolid,
      (solid_singleton left).reverse.startsSolid⟩, (isSymbolName_iff.1 left).2⟩
  refine ⟨.intro ⟨⟨front, tail, hfront.blanks, blank, ?_⟩, ?_, ?_⟩
    (firstArrow_of_blanks hbetween.blanks p.left body) name (spelling.rightSide right shown), whole⟩
  · simp
  · exact fun c mem ↦ solid_singleton left c (List.mem_singleton.2 (Option.some.inj mem).symm)
  · have closed : (p.left :: (between ++ '-' :: '>' :: body)).reverse =
        body.reverse ++ ('>' :: '-' :: between.reverse ++ [p.left]) := by simp
    rw [closed]
    by_cases ne : body.reverse = []
    · rw [ne]
      exact fun c mem ↦ (Option.some.inj mem) ▸ rfl
    · exact ends.append ne _

/-! ## Printed descriptions are read back -/

variable {nonterminals terminals : List Char} {productions : List Production}
  {ls : List (List Char)}

/-- Lines that print one entry each state these entries. -/
theorem stated_of_printed {α : Type} {proper : α → Prop} {prints states : α → List Char → Prop}
    (each : ∀ {x line}, proper x → prints x line → states x line ∧ '\n' ∉ line) {xs : List α}
    (h : List.Forall₂ prints xs ls) (ok : ∀ x ∈ xs, proper x) :
    List.Forall₂ states xs ls ∧ ∀ line ∈ ls, '\n' ∉ line := by
  induction h with
  | nil => exact ⟨.nil, nofun⟩
  | cons here _ ih =>
    obtain ⟨proper, ok⟩ := List.forall_mem_cons.1 ok
    obtain ⟨stated, whole⟩ := each proper here
    exact ⟨.cons stated (ih ok).1, List.forall_mem_cons.2 ⟨whole, (ih ok).2⟩⟩

theorem Prints.describes (h : Prints nonterminals terminals productions ls)
    (ok : Listable nonterminals terminals productions) :
    Describes ls (listing nonterminals terminals productions) ∧ ∀ line ∈ ls, '\n' ∉ line := by
  obtain ⟨i, j, k, hns, hts, hps, blank⟩ := h
  obtain ⟨i, wholeI⟩ := i.countLine ok.nonterminals_lt
  obtain ⟨j, wholeJ⟩ := j.countLine ok.terminals_lt
  obtain ⟨k, wholeK⟩ := k.countLine ok.productions_lt
  obtain ⟨hns, wholeNs⟩ := stated_of_printed PrintsName.nameLine hns ok.nonterminal_names
  obtain ⟨hts, wholeTs⟩ := stated_of_printed PrintsName.nameLine hts ok.terminal_names
  obtain ⟨hps, wholePs⟩ := stated_of_printed PrintsRule.ruleLine hps fun p mem ↦
    ⟨ok.left_names p mem, ok.right_names p mem⟩
  refine ⟨.intro i j k hns hts hps fun line mem ↦ (blank line mem).blanks, ?_⟩
  simp only [List.forall_mem_cons, List.forall_mem_append]
  exact ⟨wholeI, wholeJ, wholeK, ⟨⟨wholeNs, wholeTs⟩, wholePs⟩,
    fun line mem ↦ (blank line mem).whole⟩

/-- A text is read as a description exactly if its lines describe it. So the text in which names and
rules are printed, with any blanks between the parts of its lines, is read as the description that
lists just these. -/
theorem ofText_format :
    (∀ text d, ofText text = .ok d ↔ ∃ ls, Text.IsLines text.toList ls ∧ Describes ls d) ∧
    ∀ nonterminals terminals productions, Listable nonterminals terminals productions →
      ∀ ls text, Prints nonterminals terminals productions ls → Text.Writes ls text.toList →
        ofText text = .ok (listing nonterminals terminals productions) := by
  refine ⟨fun text d ↦ ofText_eq_ok_iff, fun _ _ _ ok ls text prints writes ↦ ?_⟩
  obtain ⟨describes, whole⟩ := prints.describes ok
  exact (ofText_of_writes writes whole).2 describes

/-- Names that belong to the arrow are told apart from it. -/
theorem ofText_arrow_names :
    ofText " 1\n1\n2\n-\n>\n-->> -\n- -> ε\r\n\n" =
      .ok (listing ['-'] ['>'] [⟨'-', ['>', '-']⟩, ⟨'-', []⟩]) := by
  have nothing : Gap [] := ⟨Text.blanks_nil, nofun⟩
  have blank : Gap [' '] := ⟨by simp [Blanks, isBlank], by decide⟩
  have feed : Gap ['\r'] := ⟨by simp [Blanks, isBlank], by decide⟩
  have prints : Prints ['-'] ['>'] [⟨'-', ['>', '-']⟩, ⟨'-', []⟩]
      [[' ', '1'], ['1'], ['2'], ['-'], ['>'], ['-', '-', '>', '>', ' ', '-'],
        ['-', ' ', '-', '>', ' ', emptyMark, '\r'], []] := by
    refine .intro (.cons blank (.nil nothing)) (.cons nothing (.nil nothing))
      (.cons nothing (.nil nothing)) (.cons (.cons nothing (.nil nothing)) .nil)
      (.cons (.cons nothing (.nil nothing)) .nil)
      (.cons ⟨_, .symbols _, ?_⟩ (.cons ⟨_, .mark, ?_⟩ .nil)) (List.forall_mem_singleton.2 nothing)
    · exact .cons nothing (.cons nothing (.cons nothing (.cons blank (.nil nothing))))
    · exact .cons nothing (.cons blank (.cons blank (.nil feed)))
  refine ofText_format.2 _ _ _ ?_ _ _ prints (Text.writes_flatMap _)
  constructor <;> simp [isSymbolName, isBlank, emptyMark, countLimit]

end SimpleLR.Description

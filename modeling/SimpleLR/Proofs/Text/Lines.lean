import Mathlib.Data.List.TakeWhile
import SimpleLR.Text.Blank

/-!
# Lines and blanks of a text

What the lines of a text are (`IsLines`), how lines are written (`Writes`) and what trimming leaves
of one (`Trims`), said without a word on how they are found. Lines end with a line feed or with a
carriage return and a line feed; the last one need not. Since a carriage return is a blank, lines
that are cut at line feeds only are the same once they are trimmed (`map_trim_lines`).
-/

namespace SimpleLR.Text

/-- All characters are blanks. -/
def Blanks (cs : List Char) : Prop := ∀ c ∈ cs, isBlank c = true

/-- No character is a blank. -/
def Solid (cs : List Char) : Prop := ∀ c ∈ cs, isBlank c = false

/-- The first character, if there is one, is not a blank. -/
def StartsSolid (cs : List Char) : Prop := ∀ c ∈ cs.head?, isBlank c = false

/-- A text without the blanks at both of its ends. -/
structure Trims (cs inner : List Char) : Prop where
  surrounded : ∃ before after, Blanks before ∧ Blanks after ∧ cs = before ++ inner ++ after
  starts : StartsSolid inner
  ends : StartsSolid inner.reverse

/-- The lines of a text. -/
inductive IsLines : List Char → List (List Char) → Prop
  | nil : IsLines [] []
  | last {line : List Char} (nonempty : line ≠ []) (whole : '\n' ∉ line) : IsLines line [line]
  | feed {line text : List Char} {ls : List (List Char)} (whole : '\n' ∉ line)
    (only : line.getLast? ≠ some '\r') (rest : IsLines text ls) :
    IsLines (line ++ '\n' :: text) (line :: ls)
  | returnFeed {line text : List Char} {ls : List (List Char)} (whole : '\n' ∉ line)
    (rest : IsLines text ls) : IsLines (line ++ '\r' :: '\n' :: text) (line :: ls)

/-- Lines written one after another, each with its end; the last one may be without. -/
inductive Writes : List (List Char) → List Char → Prop
  | nil : Writes [] []
  | last {line : List Char} (nonempty : line ≠ []) : Writes [line] line
  | feed {line text : List Char} {ls : List (List Char)} (rest : Writes ls text) :
    Writes (line :: ls) (line ++ '\n' :: text)
  | returnFeed {line text : List Char} {ls : List (List Char)} (rest : Writes ls text) :
    Writes (line :: ls) (line ++ '\r' :: '\n' :: text)

variable {cs cs' before after inner text line : List Char} {ls : List (List Char)} {c : Char}

theorem blanks_nil : Blanks [] := nofun

theorem Blanks.append (h : Blanks cs) (h' : Blanks cs') : Blanks (cs ++ cs') := fun _ mem ↦
  (List.mem_append.1 mem).elim (h _) (h' _)

theorem Blanks.reverse (h : Blanks cs) : Blanks cs.reverse := fun _ mem ↦
  h _ (List.mem_reverse.1 mem)

theorem Solid.startsSolid (h : Solid cs) : StartsSolid cs := fun c mem ↦
  h c (List.mem_of_mem_head? mem)

theorem Solid.reverse (h : Solid cs) : Solid cs.reverse := fun c mem ↦
  h c (List.mem_reverse.1 mem)

theorem Solid.filter_eq (h : Solid cs) : cs.filter (!isBlank ·) = cs :=
  List.filter_eq_self.2 fun c mem ↦ by rw [h c mem]; rfl

theorem solid_filter (cs : List Char) : Solid (cs.filter (!isBlank ·)) := fun c mem ↦ by
  simpa using (List.mem_filter.1 mem).2

theorem mem_filter_solid (solid : isBlank c = false) : c ∈ cs.filter (!isBlank ·) ↔ c ∈ cs := by
  rw [List.mem_filter, solid]
  exact and_iff_left rfl

/-! ## Trimming -/

theorem dropWhile_blanks_append (h : Blanks before) (solid : StartsSolid cs) :
    (before ++ cs).dropWhile isBlank = cs := by
  rw [List.dropWhile_append_of_pos h]
  cases cs with
  | nil => rfl
  | cons c cs => rw [List.dropWhile_cons_of_neg (by simp [solid c rfl])]

theorem startsSolid_dropWhile (cs : List Char) : StartsSolid (cs.dropWhile isBlank) := by
  intro c mem
  have solid := List.head?_dropWhile_not isBlank cs
  rw [Option.mem_def.1 mem] at solid
  simpa using solid

theorem StartsSolid.append (solid : StartsSolid cs) (ne : cs ≠ []) (rest : List Char) :
    StartsSolid (cs ++ rest) := by
  cases cs with
  | nil => exact absurd rfl ne
  | cons => exact solid

theorem trim_of_trims (h : Trims cs inner) : trim cs = inner := by
  obtain ⟨⟨before, after, hb, ha, rfl⟩, starts, ends⟩ := h
  rw [trim, List.append_assoc]
  by_cases ne : inner = []
  · subst ne
    have none_left : StartsSolid [] := nofun
    have nothing := dropWhile_blanks_append (hb.append ha) none_left
    rw [List.append_nil] at nothing
    rw [List.nil_append, nothing]
    rfl
  · rw [dropWhile_blanks_append hb (starts.append ne after), List.reverse_append,
      dropWhile_blanks_append ha.reverse ends, List.reverse_reverse]

theorem trims_trim (cs : List Char) : Trims cs (trim cs) := by
  let front := cs.takeWhile isBlank
  let rest := cs.dropWhile isBlank
  let back := (rest.reverse.takeWhile isBlank).reverse
  have split : rest = trim cs ++ back := by
    rw [trim, ← List.reverse_append, List.takeWhile_append_dropWhile, List.reverse_reverse]
  refine ⟨⟨front, back, fun c mem ↦ List.mem_takeWhile_imp mem, fun c mem ↦ ?_, ?_⟩, ?_, ?_⟩
  · exact List.mem_takeWhile_imp (List.mem_reverse.1 mem)
  · rw [List.append_assoc, ← split, List.takeWhile_append_dropWhile]
  · intro c mem
    refine startsSolid_dropWhile cs c ?_
    change c ∈ rest.head?
    rw [split, List.head?_append, Option.mem_def.1 mem]
    rfl
  · rw [trim, List.reverse_reverse]
    exact startsSolid_dropWhile rest.reverse

/-- Trimming leaves what is between the blanks. -/
theorem trim_eq_iff : trim cs = inner ↔ Trims cs inner :=
  ⟨fun h ↦ h ▸ trims_trim cs, trim_of_trims⟩

theorem Blanks.trims_nil (h : Blanks cs) : Trims cs [] :=
  ⟨⟨cs, [], h, blanks_nil, by simp⟩, nofun, nofun⟩

theorem trim_eq_nil_iff : trim cs = [] ↔ Blanks cs := by
  refine ⟨fun h ↦ ?_, fun h ↦ trim_eq_iff.2 h.trims_nil⟩
  obtain ⟨before, after, hb, ha, rfl⟩ := (trim_eq_iff.1 h).surrounded
  rw [List.append_nil]
  exact hb.append ha

/-- Blanks at the end make no difference. -/
theorem trim_append_blanks (h : Blanks after) (cs : List Char) : trim (cs ++ after) = trim cs := by
  obtain ⟨⟨front, back, hf, hb, split⟩, starts, ends⟩ := trims_trim cs
  refine trim_eq_iff.2 ⟨⟨front, back ++ after, hf, hb.append h, ?_⟩, starts, ends⟩
  rw [← List.append_assoc, ← split]

theorem filter_blanks (h : Blanks cs) : cs.filter (!isBlank ·) = [] :=
  List.filter_eq_nil_iff.2 fun c mem ↦ by simp [h c mem]

/-- The characters that are not blanks stand in what trimming leaves. -/
theorem filter_trim (cs : List Char) :
    (trim cs).filter (!isBlank ·) = cs.filter (!isBlank ·) := by
  obtain ⟨before, after, hb, ha, split⟩ := (trims_trim cs).surrounded
  have solid := congrArg (List.filter (!isBlank ·)) split
  rw [List.filter_append, List.filter_append, filter_blanks hb, filter_blanks ha, List.nil_append,
    List.append_nil] at solid
  exact solid.symm

/-- A single character is left when the others are blanks. -/
theorem trim_eq_singleton_iff (solid : isBlank c = false) :
    trim cs = [c] ↔ cs.filter (!isBlank ·) = [c] := by
  rw [← filter_trim]
  refine ⟨fun h ↦ by rw [h]; simp [solid], fun h ↦ ?_⟩
  obtain ⟨_, starts, ends⟩ := trims_trim cs
  generalize trim cs = inner at *
  cases inner with
  | nil => cases h
  | cons d inner =>
    rw [List.filter_cons_of_pos (by simp [starts d rfl])] at h
    obtain ⟨rfl, rest⟩ := List.cons.inj h
    have blanks : Blanks inner := fun c mem ↦ by simpa using List.filter_eq_nil_iff.1 rest c mem
    -- The last character is not a blank, so it is the first one.
    rcases List.eq_nil_or_concat inner with rfl | ⟨inner, last, rfl⟩
    · rfl
    · have ended := ends last (by simp)
      rw [blanks last (by simp)] at ended
      cases ended

/-- A text is what stands before the blanks at its end, and these. -/
theorem exists_append_blanks (cs : List Char) :
    ∃ body tail, cs = body ++ tail ∧ Blanks tail ∧ StartsSolid body.reverse := by
  obtain ⟨⟨front, back, hf, hb, split⟩, _, ends⟩ := trims_trim cs
  by_cases ne : trim cs = []
  · exact ⟨[], cs, rfl, trim_eq_nil_iff.1 ne, nofun⟩
  · refine ⟨front ++ trim cs, back, split, hb, ?_⟩
    rw [List.reverse_append]
    exact ends.append (mt List.reverse_eq_nil_iff.1 ne) _

/-! ## Lines -/

/-- Every text has lines. -/
theorem exists_isLines (text : List Char) : ∃ ls, IsLines text ls := by
  induction h : text.length using Nat.strongRecOn generalizing text with
  | ind n ih =>
    by_cases feed : '\n' ∈ text
    · obtain ⟨line, rest, rfl, whole⟩ := List.eq_append_cons_of_mem feed
      obtain ⟨ls, lines⟩ := ih rest.length (by rw [← h]; simp; omega) rest rfl
      by_cases only : line.getLast? = some '\r'
      · obtain ⟨line, rfl⟩ := List.getLast?_eq_some_iff.1 only
        rw [List.append_assoc]
        exact ⟨_, .returnFeed (fun mem ↦ whole (List.mem_append_left _ mem)) lines⟩
      · exact ⟨_, .feed whole only lines⟩
    · by_cases nonempty : text = []
      · exact ⟨[], nonempty ▸ .nil⟩
      · exact ⟨[text], .last nonempty feed⟩

/-- Lines that hold no line feed are those of a text. -/
theorem exists_isLines_of_whole (whole : ∀ line ∈ ls, '\n' ∉ line) : ∃ text, IsLines text ls := by
  induction ls with
  | nil => exact ⟨[], .nil⟩
  | cons line ls ih =>
    obtain ⟨here, whole⟩ := List.forall_mem_cons.1 whole
    obtain ⟨text, lines⟩ := ih whole
    exact ⟨_, .returnFeed here lines⟩

theorem lines_of_not_mem (nonempty : line ≠ []) (whole : '\n' ∉ line) :
    lines '\n' line = [line] := by
  induction line with
  | nil => exact absurd rfl nonempty
  | cons c line ih =>
    rw [List.mem_cons, not_or] at whole
    rw [lines, if_neg (Ne.symm whole.1)]
    cases line with
    | nil => rfl
    | cons c' line => rw [ih (List.cons_ne_nil c' line) whole.2]

/-- A text is what its lines are when they are written. -/
theorem IsLines.writes (h : IsLines text ls) : Writes ls text ∧ ∀ line ∈ ls, '\n' ∉ line := by
  induction h with
  | nil => exact ⟨.nil, nofun⟩
  | last nonempty whole => exact ⟨.last nonempty, List.forall_mem_singleton.2 whole⟩
  | feed whole _ _ ih => exact ⟨.feed ih.1, List.forall_mem_cons.2 ⟨whole, ih.2⟩⟩
  | returnFeed whole _ ih => exact ⟨.returnFeed ih.1, List.forall_mem_cons.2 ⟨whole, ih.2⟩⟩

/-- Lines may be written with a line feed after each. -/
theorem writes_flatMap (ls : List (List Char)) : Writes ls (ls.flatMap (· ++ ['\n'])) := by
  induction ls with
  | nil => exact .nil
  | cons line ls ih =>
    rw [List.flatMap_cons, List.append_assoc]
    exact .feed ih

/-- Lines are cut at line feeds; what is left of a carriage return is trimmed. -/
theorem map_trim_lines (h : Writes ls text) (whole : ∀ line ∈ ls, '\n' ∉ line) :
    (lines '\n' text).map trim = ls.map trim := by
  induction h with
  | nil => rfl
  | last nonempty => rw [lines_of_not_mem nonempty (whole _ List.mem_cons_self)]
  | feed _ ih =>
    obtain ⟨here, whole⟩ := List.forall_mem_cons.1 whole
    rw [lines_append_newline here, List.map_cons, List.map_cons, ih whole]
  | @returnFeed line text ls _ ih =>
    obtain ⟨here, whole⟩ := List.forall_mem_cons.1 whole
    have here' : '\n' ∉ line ++ ['\r'] := by simp [here]
    have blank : Blanks ['\r'] := by simp [Blanks, isBlank]
    have cut := lines_append_newline here' text
    rw [List.append_assoc] at cut
    change lines '\n' (line ++ '\r' :: '\n' :: text) = _ at cut
    rw [cut, List.map_cons, List.map_cons, ih whole, trim_append_blanks blank]

end SimpleLR.Text

import SimpleLR.Proofs.Grammar.Description.Format

/-!
# Reading a description

A text is read as a description exactly if its lines describe it (`ofText_eq_ok_iff`).
-/

namespace SimpleLR.Description

open Text (Blanks trim)

/-! ## Reading line by line -/

section

variable {n k : Nat} {ls : List (List Char)} {c : Cursor} {expected : Expected}

theorem nextLine_eq_ok_iff {l : Located (List Char)} :
    nextLine expected ⟨n, ls.map trim⟩ = .ok (l, c) ↔
      ∃ line rest, ls = line :: rest ∧ l = ⟨n, trim line⟩ ∧ c = ⟨n + 1, rest.map trim⟩ := by
  cases ls with
  | nil => exact ⟨nofun, nofun⟩
  | cons line ls =>
    constructor
    · rintro ⟨⟩
      exact ⟨line, ls, rfl, rfl, rfl⟩
    · rintro ⟨_, _, ⟨⟩, rfl, rfl⟩
      rfl

theorem count_eq_ok_iff :
    count expected ⟨n, ls.map trim⟩ = .ok (k, c) ↔
      ∃ line rest, ls = line :: rest ∧ CountLine k line ∧ c = ⟨n + 1, rest.map trim⟩ := by
  rw [count, StateT.bind_eq_ok_iff]
  simp only [nextLine_eq_ok_iff]
  constructor
  · rintro ⟨_, _, ⟨line, rest, rfl, rfl, rfl⟩, h⟩
    cases counted : count? (trim line) with
    | none =>
      rw [counted] at h
      cases h
    | some m =>
      rw [counted] at h
      cases h
      exact ⟨line, rest, rfl, count?_trim_eq_some_iff.1 counted, rfl⟩
  · rintro ⟨line, rest, rfl, counts, rfl⟩
    refine ⟨_, _, ⟨line, rest, rfl, rfl, rfl⟩, ?_⟩
    rw [count?_trim_eq_some_iff.2 counts]
    rfl

theorem located_eq_ok_iff {α : Type} {read : Nat → List Char → Except Error α}
    {holds : α → List Char → Prop}
    (reads : ∀ {n line x}, read n (trim line) = .ok x ↔ holds x line) {xs : List (Located α)} :
    located expected read k ⟨n, ls.map trim⟩ = .ok (xs, c) ↔
      ∃ ys lines rest, ls = lines ++ rest ∧ ys.length = k ∧ List.Forall₂ holds ys lines ∧
        xs = onLines n ys ∧ c = ⟨n + k, rest.map trim⟩ := by
  induction k generalizing n ls xs with
  | zero =>
    constructor
    · rintro ⟨⟩
      exact ⟨[], [], ls, rfl, rfl, .nil, rfl, rfl⟩
    · rintro ⟨ys, lines, rest, rfl, none_left, all, rfl, rfl⟩
      obtain rfl := List.length_eq_zero_iff.1 none_left
      cases all
      rfl
  | succ k ih =>
    rw [located, StateT.bind_eq_ok_iff]
    simp only [nextLine_eq_ok_iff, StateT.bind_eq_ok_iff, StateT.liftM_eq_ok_iff]
    constructor
    · rintro ⟨_, _, ⟨line, ls, rfl, rfl, rfl⟩, x, _, ⟨here, rfl⟩, _, _, others, ⟨⟩⟩
      obtain ⟨ys, lines, rest, rfl, rfl, all, rfl, rfl⟩ := ih.1 others
      refine ⟨x :: ys, line :: lines, rest, rfl, rfl, .cons (reads.1 here) all, rfl, ?_⟩
      rw [Nat.add_assoc, Nat.add_comm 1]
    · rintro ⟨ys, lines, rest, rfl, count, all, rfl, rfl⟩
      cases all with
      | nil => cases count
      | @cons x line ys lines here all =>
        refine ⟨_, _, ⟨line, lines ++ rest, rfl, rfl, rfl⟩, x, _, ⟨reads.2 here, rfl⟩,
          onLines (n + 1) ys, _, ?_, rfl⟩
        refine ih.2 ⟨ys, lines, rest, rfl, Nat.succ.inj count, all, rfl, ?_⟩
        rw [Nat.add_assoc, Nat.add_comm 1]

theorem nothingElse_eq_ok_iff :
    nothingElse (ls.map trim) n = .ok () ↔ ∀ line ∈ ls, Blanks line := by
  induction ls generalizing n with
  | nil => exact ⟨fun _ ↦ nofun, fun _ ↦ rfl⟩
  | cons line ls ih =>
    have empty : (trim line).isEmpty = true ↔ Blanks line :=
      List.isEmpty_iff.trans Text.trim_eq_nil_iff
    rw [List.map_cons, nothingElse, List.forall_mem_cons]
    by_cases blank : Blanks line
    · rw [if_pos (empty.2 blank), ih]
      exact (and_iff_right blank).symm
    · rw [if_neg (mt empty.1 blank)]
      exact ⟨nofun, fun h ↦ absurd h.1 blank⟩

end

/-! ## Reading a text -/

variable {ls : List (List Char)} {text : String} {d : Description}

/-- Lines are read as the description that they state. -/
theorem ofLines_eq_ok_iff : ofLines ls = .ok d ↔ Describes ls d := by
  rw [ofLines, StateT.run'_eq_ok_iff]
  simp only [read, StateT.bind_eq_ok_iff, StateT.liftM_eq_ok_iff]
  constructor
  · rintro ⟨_, a, _, first, b, _, second, c, _, third, xs, _, nonterminals, ys, _, terminals, zs, _,
      rules, _, _, ⟨⟩, _, _, ⟨blank, rfl⟩, ⟨⟩⟩
    obtain ⟨i, ls, rfl, ha, rfl⟩ := count_eq_ok_iff.1 first
    obtain ⟨j, ls, rfl, hb, rfl⟩ := count_eq_ok_iff.1 second
    obtain ⟨k, ls, rfl, hc, rfl⟩ := count_eq_ok_iff.1 third
    obtain ⟨xs, xLines, ls, rfl, rfl, hxs, rfl, rfl⟩ :=
      (located_eq_ok_iff symbolName_trim_eq_ok_iff).1 nonterminals
    obtain ⟨ys, yLines, ls, rfl, rfl, hys, rfl, rfl⟩ :=
      (located_eq_ok_iff symbolName_trim_eq_ok_iff).1 terminals
    obtain ⟨zs, zLines, rest, rfl, rfl, hzs, rfl, rfl⟩ :=
      (located_eq_ok_iff production_trim_eq_ok_iff).1 rules
    rw [← List.append_assoc, ← List.append_assoc]
    exact .intro ha hb hc hxs hys hzs (nothingElse_eq_ok_iff.1 blank)
  · rintro ⟨ha, hb, hc, hxs, hys, hzs, blank⟩
    rw [List.append_assoc, List.append_assoc]
    exact ⟨_, _, _, count_eq_ok_iff.2 ⟨_, _, rfl, ha, rfl⟩,
      _, _, count_eq_ok_iff.2 ⟨_, _, rfl, hb, rfl⟩,
      _, _, count_eq_ok_iff.2 ⟨_, _, rfl, hc, rfl⟩,
      _, _, (located_eq_ok_iff symbolName_trim_eq_ok_iff).2 ⟨_, _, _, rfl, rfl, hxs, rfl, rfl⟩,
      _, _, (located_eq_ok_iff symbolName_trim_eq_ok_iff).2 ⟨_, _, _, rfl, rfl, hys, rfl, rfl⟩,
      _, _, (located_eq_ok_iff production_trim_eq_ok_iff).2 ⟨_, _, _, rfl, rfl, hzs, rfl, rfl⟩,
      _, _, rfl, _, _, ⟨nothingElse_eq_ok_iff.2 blank, rfl⟩, rfl⟩

/-- A text is read as the description that lines state by which it is written. -/
theorem ofText_of_writes (h : Text.Writes ls text.toList) (whole : ∀ line ∈ ls, '\n' ∉ line) :
    ofText text = .ok d ↔ Describes ls d := by
  rw [← ofLines_eq_ok_iff, ofText, ofLines, ofLines, Text.map_trim_lines h whole]

/-- A text is read as the description that its lines state. -/
theorem ofText_eq_ok_iff :
    ofText text = .ok d ↔ ∃ ls, Text.IsLines text.toList ls ∧ Describes ls d := by
  obtain ⟨ls, lines⟩ := Text.exists_isLines text.toList
  constructor
  · intro h
    obtain ⟨writes, whole⟩ := lines.writes
    exact ⟨ls, lines, (ofText_of_writes writes whole).1 h⟩
  · rintro ⟨ls, lines, h⟩
    obtain ⟨writes, whole⟩ := lines.writes
    exact (ofText_of_writes writes whole).2 h

end SimpleLR.Description

import SimpleLR.Proofs.Grammar.Description.Reading

/-!
# Errors at the first impossible line

Reading a description fails at the first line with which it cannot succeed: up to that line the text
can be continued to a description, and with it it cannot, or there is no such line because the text
ends too early (`FirstImpossible`). This is shown for readers in general (`Diagnoses`), one line
after another. Nothing is assumed of the counts, which may promise more lines than there are.
-/

namespace SimpleLR.Description

open Text (Blanks IsLines trim)

/-- The text ends where a line is needed. -/
def Problem.IsMissing (problem : Problem) : Prop := ∃ expected, problem = .missingLine expected

/-- The lines of a text that is read as a description. -/
def Readable (ls : List (List Char)) : Prop :=
  ∃ text d, IsLines text.toList ls ∧ ofText text = .ok d

/-- An error names the first line with which the lines cannot be those of a description. -/
structure FirstImpossible (ls : List (List Char)) (e : Error) : Prop where
  /-- Lines are counted from one. -/
  line_pos : 1 ≤ e.line
  /-- The lines before it can be continued. -/
  continued : ∃ ls', Readable ls' ∧ ls.take (e.line - 1) <+: ls'
  /-- With it, every text fails in the same way. -/
  impossible : ¬ e.problem.IsMissing → e.line ≤ ls.length ∧
    ∀ text ls', IsLines text.toList ls' → ls.take e.line <+: ls' → ofText text = .error e
  /-- It is missing when more lines are needed. -/
  missing_iff : e.problem.IsMissing ↔
    ls.length + 1 = e.line ∧ ∃ ls', Readable ls' ∧ ls <+: ls' ∧ ls ≠ ls'

/-! ## Readers -/

/-- No line holds a line feed. -/
def Whole (ls : List (List Char)) : Prop := ∀ line ∈ ls, '\n' ∉ line

/-- Reading these lines, counted from `n`, succeeds. -/
def Succeeds {α : Type} (x : Reader α) (n : Nat) (ls : List (List Char)) : Prop :=
  ∃ r, x ⟨n, ls.map trim⟩ = .ok r

/-- Reading fails behind `front`: so far it could succeed, but a line is missing, or the next line
makes it fail whatever comes after. -/
structure FailsAfter {α : Type} (x : Reader α) (n : Nat) (front rest : List (List Char))
    (e : Error) : Prop where
  line : e.line = n + front.length
  continued : ∃ more, Whole more ∧ Succeeds x n (front ++ more)
  cause : e.problem.IsMissing ∧ rest = [] ∨
    ¬ e.problem.IsMissing ∧ ∃ here behind, rest = here :: behind ∧
      ∀ behind', x ⟨n, (front ++ here :: behind').map trim⟩ = .error e

/-- Reading can succeed, and it fails at the first line with which it cannot succeed. -/
structure Diagnoses {α : Type} (x : Reader α) : Prop where
  feasible : ∀ n, ∃ ls, Whole ls ∧ Succeeds x n ls
  failure : ∀ {n ls e}, x ⟨n, ls.map trim⟩ = .error e →
    ∃ front rest, ls = front ++ rest ∧ FailsAfter x n front rest e

/-- A computation refuses a line, whatever comes after. -/
def Refuses {α : Type} (n : Nat) (x : Reader α) : Prop :=
  ∃ e, e.line = n ∧ ¬ e.problem.IsMissing ∧ ∀ c, x c = .error e

variable {α β : Type} {n k : Nat} {ls front rest : List (List Char)} {here : List Char}
  {expected : Expected} {e : Error}

theorem Whole.cons (h : '\n' ∉ here) (whole : Whole ls) : Whole (here :: ls) :=
  List.forall_mem_cons.2 ⟨h, whole⟩

/-- Without a line, there is nothing to go on with. -/
theorem nextLine_bind_nil (h : Located (List Char) → Reader α) :
    (nextLine expected >>= h) ⟨n, []⟩ = .error ⟨n, .missingLine expected⟩ := rfl

/-- A line is read, and what comes next goes on with it. -/
theorem nextLine_bind_cons (h : Located (List Char) → Reader α) (cs : List Char)
    (ts : List (List Char)) :
    (nextLine expected >>= h) ⟨n, cs :: ts⟩ = h ⟨n, cs⟩ ⟨n + 1, ts⟩ := rfl

/-- What fails behind a line fails behind that line too when it is read first. -/
theorem FailsAfter.cons {h : Located (List Char) → Reader α}
    (fails : FailsAfter (h ⟨n, trim here⟩) (n + 1) front rest e) :
    FailsAfter (nextLine expected >>= h) n (here :: front) rest e where
  line := by rw [fails.line, List.length_cons, Nat.add_assoc, Nat.add_comm 1]
  continued := by
    obtain ⟨more, whole, succeeds⟩ := fails.continued
    exact ⟨more, whole, succeeds⟩
  cause := fails.cause

/-- A reader that takes a line first: some line is accepted, and each is accepted or refused at
once. -/
theorem Diagnoses.nextLine {h : Located (List Char) → Reader α} (good : List Char)
    (whole : '\n' ∉ good)
    (accepts : ∀ n, Diagnoses (h ⟨n, trim good⟩))
    (judges : ∀ l, Diagnoses (h l) ∨ Refuses l.line (h l)) :
    Diagnoses (nextLine expected >>= h) := by
  have feasible : ∀ n, ∃ ls, Whole ls ∧ Succeeds (Description.nextLine expected >>= h) n ls := by
    intro n
    obtain ⟨ls, whole', succeeds⟩ := (accepts n).feasible (n + 1)
    exact ⟨good :: ls, whole'.cons whole, succeeds⟩
  refine ⟨feasible, fun {n ls e} failed ↦ ?_⟩
  cases ls with
  | nil =>
    rw [List.map_nil, nextLine_bind_nil] at failed
    cases failed
    exact ⟨[], [], rfl, rfl, feasible n, .inl ⟨⟨expected, rfl⟩, rfl⟩⟩
  | cons here ls =>
    rw [List.map_cons, nextLine_bind_cons] at failed
    rcases judges ⟨n, trim here⟩ with diagnoses | ⟨e', line, found, refuses⟩
    -- an accepted line belongs to what can be continued; a refused one is where reading fails
    · obtain ⟨front, rest, rfl, fails⟩ := diagnoses.failure failed
      exact ⟨here :: front, rest, rfl, fails.cons⟩
    · cases (refuses _).symm.trans failed
      refine ⟨[], here :: ls, rfl, line, feasible n, .inr ⟨found, here, ls, rfl, fun behind ↦ ?_⟩⟩
      rw [List.nil_append, List.map_cons, nextLine_bind_cons, refuses]

/-! ## The parts of a description -/

/-- Errors on a line of its own, which is there. -/
def Blames {α : Type} (read : Nat → List Char → Except Error α) : Prop :=
  ∀ n cs e, read n cs = .error e → e.line = n ∧ ¬ e.problem.IsMissing

theorem blames_symbolName : Blames symbolName := by
  intro n cs e failed
  unfold symbolName at failed
  split at failed
  · split at failed
    · cases failed
    · cases failed
      exact ⟨rfl, nofun⟩
  · cases failed
    exact ⟨rfl, nofun⟩

theorem blames_rightSide : Blames rightSide := by
  intro n cs e failed
  rw [rightSide] at failed
  split at failed
  · cases failed
  · obtain ⟨c, _, failed⟩ := Except.exists_of_mapM_eq_error failed
    exact blames_symbolName _ _ _ failed

theorem blames_production : Blames production := by
  intro n cs e failed
  unfold production at failed
  split at failed
  · cases failed
    exact ⟨rfl, nofun⟩
  · rcases Except.bind_eq_error_iff.1 failed with failed | ⟨left, _, failed⟩
    · exact blames_symbolName _ _ _ failed
    · rcases Except.bind_eq_error_iff.1 failed with failed | ⟨right, _, failed⟩
      · exact blames_rightSide _ _ _ failed
      · cases failed

/-- A number is read, and then the rest. -/
theorem Diagnoses.count_bind {f : Nat → Reader α} (rest : ∀ k, Diagnoses (f k)) :
    Diagnoses (count expected >>= f) := by
  rw [count, bind_assoc]
  refine .nextLine ['0'] (by decide) (fun n ↦ rest 0) fun l ↦ ?_
  cases counted : count? l.value with
  | some k => exact .inl (rest k)
  | none =>
    have found : ¬ (Problem.invalidCount (String.ofList l.value)).IsMissing := by
      rintro ⟨_, ⟨⟩⟩
    exact .inr ⟨⟨l.line, _⟩, rfl, found, fun _ ↦ rfl⟩

/-- So many lines are read in the same way, and then the rest. -/
theorem Diagnoses.located_bind {read : Nat → List Char → Except Error β} (blames : Blames read)
    (good : List Char) (whole : '\n' ∉ good) (accepts : ∀ n, ∃ x, read n (trim good) = .ok x)
    {f : List (Located β) → Reader α} (rest : ∀ xs, Diagnoses (f xs)) :
    Diagnoses (located expected read k >>= f) := by
  induction k generalizing f with
  | zero => exact rest []
  | succ k ih =>
    have later : ∀ l : Located (List Char), ∀ x, Diagnoses (located expected read k >>= fun xs ↦
        f (⟨l.line, x⟩ :: xs)) := fun l x ↦ ih fun xs ↦ rest _
    rw [located, bind_assoc]
    refine .nextLine good whole (fun n ↦ ?_) fun l ↦ ?_
    · obtain ⟨x, found⟩ := accepts n
      simp only [bind_assoc, pure_bind]
      rw [found]
      exact later ⟨n, trim good⟩ x
    · simp only [bind_assoc, pure_bind]
      cases found : read l.line l.value with
      | ok x => exact .inl (later l x)
      | error e => exact .inr ⟨e, (blames _ _ _ found).1, (blames _ _ _ found).2, fun _ ↦ rfl⟩

/-- What is left is refused at the first line that is not blank. -/
theorem nothingElse_eq_error (failed : nothingElse (ls.map trim) n = .error e) :
    ∃ front here behind, ls = front ++ here :: behind ∧ (∀ line ∈ front, Blanks line) ∧
      e = ⟨n + front.length, .trailingContent⟩ ∧
        ∀ behind', nothingElse ((front ++ here :: behind').map trim) n = .error e := by
  induction ls generalizing n with
  | nil => cases failed
  | cons here ls ih =>
    rw [List.map_cons, nothingElse] at failed
    by_cases blank : (trim here).isEmpty = true
    · rw [if_pos blank] at failed
      obtain ⟨front, here', behind, rfl, blanks, rfl, always⟩ := ih failed
      refine ⟨here :: front, here', behind, rfl, ?_, ?_, fun behind' ↦ ?_⟩
      · exact List.forall_mem_cons.2 ⟨Text.trim_eq_nil_iff.1 (List.isEmpty_iff.1 blank), blanks⟩
      · rw [List.length_cons, Nat.add_assoc, Nat.add_comm 1]
      · rw [List.cons_append, List.map_cons, nothingElse, if_pos blank, always]
    · rw [if_neg blank] at failed
      cases failed
      refine ⟨[], here, ls, rfl, List.forall_mem_nil _, rfl, fun behind' ↦ ?_⟩
      rw [List.nil_append, List.map_cons, nothingElse, if_neg blank]
      rfl

/-- Checks that only blank lines are left. -/
def closing (d : α) : Reader α := do
  let c ← get
  nothingElse c.rest c.line
  pure d

theorem closing_eq (d : α) (n : Nat) (ts : List (List Char)) :
    closing d ⟨n, ts⟩ = (nothingElse ts n).map fun _ ↦ (d, ⟨n, ts⟩) := by
  change ((nothingElse ts n).bind fun u ↦ .ok (u, _)).bind (fun p ↦ .ok (d, p.2)) = _
  cases nothingElse ts n <;> rfl

theorem diagnoses_closing (d : α) : Diagnoses (closing d) where
  feasible n := ⟨[], nofun, _, rfl⟩
  failure {n ls e} failed := by
    rw [closing_eq] at failed
    cases left : nothingElse (ls.map trim) n with
    | ok =>
      rw [left] at failed
      cases failed
    | error e' =>
      rw [left] at failed
      cases failed
      obtain ⟨front, here, behind, rfl, blanks, rfl, always⟩ := nothingElse_eq_error left
      refine ⟨front, here :: behind, rfl, rfl, ⟨[], nofun, (d, ⟨n, front.map trim⟩), ?_⟩,
        .inr ⟨nofun, here, behind, rfl, fun behind' ↦ ?_⟩⟩
      · rw [List.append_nil, closing_eq, nothingElse_eq_ok_iff.2 blanks]
        rfl
      · rw [closing_eq, always]
        rfl

theorem diagnoses_read : Diagnoses read := by
  have name : ∀ n, ∃ c, symbolName n (trim ['a']) = .ok c := fun n ↦ ⟨'a', rfl⟩
  have rule : ∀ n, ∃ p, production n (trim ['a', '-', '>']) = .ok p := fun n ↦ ⟨⟨'a', []⟩, rfl⟩
  exact .count_bind fun _ ↦ .count_bind fun _ ↦ .count_bind fun _ ↦
    .located_bind blames_symbolName ['a'] (by decide) name fun _ ↦
      .located_bind blames_symbolName ['a'] (by decide) name fun _ ↦
        .located_bind blames_production ['a', '-', '>'] (by decide) rule fun _ ↦
          diagnoses_closing _

/-! ## Texts -/

variable {text : String}

theorem ofText_of_isLines (lines : IsLines text.toList ls) :
    ofText text = read.run' ⟨1, ls.map trim⟩ := by
  obtain ⟨writes, whole⟩ := lines.writes
  rw [ofText, ofLines, Text.map_trim_lines writes whole]

theorem ofText_eq_error_iff (lines : IsLines text.toList ls) :
    ofText text = .error e ↔ read ⟨1, ls.map trim⟩ = .error e := by
  rw [ofText_of_isLines lines, StateT.run'_eq_error_iff]

/-- Lines that can be read are those of a text that is read. -/
theorem readable_of_succeeds (whole : Whole ls) (succeeds : Succeeds read 1 ls) : Readable ls := by
  obtain ⟨text, lines⟩ := Text.exists_isLines_of_whole whole
  rw [← String.toList_ofList (l := text)] at lines
  obtain ⟨⟨d, c⟩, result⟩ := succeeds
  refine ⟨_, d, lines, ?_⟩
  rw [ofText_of_isLines lines]
  exact StateT.run'_eq_ok_iff.2 ⟨c, result⟩

/-- A text that is not read as a description fails at the first line with which it cannot be one:
the lines before it can be continued to a description, and no text with these lines and this one is
a description. If that line is missing, the text is the beginning of a description. -/
theorem firstImpossible_of_error (lines : IsLines text.toList ls) (failed : ofText text = .error e) :
    FirstImpossible ls e := by
  have failed := (ofText_eq_error_iff lines).1 failed
  obtain ⟨front, rest, rfl, fails⟩ := diagnoses_read.failure failed
  obtain ⟨more, whole, succeeds⟩ := fails.continued
  have line := fails.line
  have before : Whole front := fun l mem ↦ lines.writes.2 l (List.mem_append_left rest mem)
  have readable : Readable (front ++ more) :=
    readable_of_succeeds (List.forall_mem_append.2 ⟨before, whole⟩) succeeds
  have taken : (front ++ rest).take (e.line - 1) = front := by
    rw [line, Nat.add_sub_cancel_left, List.take_left]
  have continued : ∃ ls', Readable ls' ∧ (front ++ rest).take (e.line - 1) <+: ls' :=
    ⟨front ++ more, readable, by rw [taken]; exact List.prefix_append front more⟩
  refine ⟨by omega, continued, ?_, ?_⟩
  · intro found
    obtain ⟨here, behind, rfl, always⟩ := (fails.cause.resolve_left fun ⟨missing, _⟩ ↦
      found missing).2
    have taken' : (front ++ here :: behind).take e.line = front ++ [here] := by
      rw [line, Nat.add_comm, List.take_length_add_append]
      rfl
    refine ⟨by simp; omega, fun text' ls' lines' starts ↦ ?_⟩
    rw [taken'] at starts
    obtain ⟨behind', rfl⟩ := starts
    rw [ofText_eq_error_iff lines', List.append_assoc]
    exact always behind'
  · rcases fails.cause with ⟨missing, rfl⟩ | ⟨found, here, behind, rfl, _⟩
    · rw [List.append_nil] at failed ⊢
      refine iff_of_true missing ⟨by omega, _, readable, List.prefix_append front more, fun same ↦ ?_⟩
      obtain ⟨_, succeeds⟩ := succeeds
      -- nothing to add would mean that the text itself is read
      rw [← same] at succeeds
      cases failed.symm.trans succeeds
    · refine iff_of_false found fun ⟨short, _⟩ ↦ ?_
      rw [line, List.length_append, List.length_cons] at short
      omega

/-- Of `0`, `0` and `x` the third line is not a count; after the first two alone it is missing. -/
theorem firstImpossible_of_error_counts :
    ofText "0\n0\nx" = .error ⟨3, .invalidCount "x"⟩ ∧
      FirstImpossible [['0'], ['0'], ['x']] ⟨3, .invalidCount "x"⟩ ∧
      ofText "0\n0\n" = .error ⟨3, .missingLine .ruleCount⟩ ∧
      FirstImpossible [['0'], ['0']] ⟨3, .missingLine .ruleCount⟩ := by
  have ended : IsLines "0\n0\n".toList [['0'], ['0']] := by
    change IsLines (['0'] ++ '\n' :: (['0'] ++ '\n' :: [])) _
    exact .feed (by decide) (by decide) (.feed (by decide) (by decide) .nil)
  have unended : IsLines "0\n0\nx".toList [['0'], ['0'], ['x']] := by
    change IsLines (['0'] ++ '\n' :: (['0'] ++ '\n' :: ['x'])) _
    exact .feed (by decide) (by decide)
      (.feed (by decide) (by decide) (.last (by decide) (by decide)))
  have missing : ofText "0\n0\n" = .error ⟨3, .missingLine .ruleCount⟩ := by decide +kernel
  have invalid : ofText "0\n0\nx" = .error ⟨3, .invalidCount "x"⟩ := by decide +kernel
  exact ⟨invalid, firstImpossible_of_error unended invalid, missing,
    firstImpossible_of_error ended missing⟩

end SimpleLR.Description

import SimpleLR.Command.Session

/-!
# What sessions report

A text on the error stream of the command is the usage or a report. Reports come from the
arguments, from reading, from loading and from building, and from a line whose recognition fails.
If automata do nothing worse than rejecting, no report says that the parser is in an inconsistent
state, whatever is requested (`respond_consistent`).
-/

namespace SimpleLR.Command

/-- How the report of an inconsistent parser starts. -/
def inconsistency : String := "Error: the parser is in an inconsistent state"

/-- A report is of something else. -/
def Report.Consistent (r : Report) : Prop := ¬ inconsistency.toList <+: r.render.toList

/-- The error stream of a run does not start with the report of an inconsistent parser. -/
def Outcome.Consistent (o : Outcome) : Prop := ¬ inconsistency.toList <+: o.stderr.toList

/-- What recognition of a text fails with is a rejection. -/
def Rejects (a : Automaton) : Prop :=
  ∀ events text e, a.parseString events text = some (.error e) → e.isRejection = true

variable {a : Automaton} {r : Report} {printed text path : String} {dump : Bool}

theorem head?_toList_append {s : String} (t : String) {c : Char} (h : s.toList.head? = some c) :
    (s ++ t).toList.head? = some c := by
  rw [String.toList_append, List.head?_append, h, Option.some_or]

/-- The first letter of a literal. -/
theorem head?_ofList (c : Char) (l : List Char) : (String.ofList (c :: l)).toList.head? = some c := by
  rw [String.toList_ofList, List.head?_cons]

theorem head?_usage : usage.toList.head? = some 'U' := by
  unfold usage
  iterate 5 refine head?_toList_append _ ?_
  exact head?_ofList 'U' _

theorem not_inconsistency_of_head {s : String} {c : Char} (h : s.toList.head? = some c)
    (ne : c ≠ 'E') : ¬ inconsistency.toList <+: s.toList := by
  obtain ⟨rest, h⟩ := List.head?_eq_some_iff.1 h
  simp [inconsistency, h, ne.symm]

/-- A report is known by the first letter of its context. -/
theorem Report.consistent_of_head {c : Char} (h : r.context.toList.head? = some c) (ne : c ≠ 't') :
    r.Consistent := by
  obtain ⟨rest, h⟩ := List.head?_eq_some_iff.1 h
  rw [Consistent, render]
  simp [inconsistency, h, ne.symm]

theorem Outcome.consistent_ofReport {failure : Option Report}
    (h : ∀ r, failure = some r → r.Consistent) : (ofReport printed failure).Consistent := by
  cases failure with
  | none => simp [Consistent, ofReport, inconsistency]
  | some r => exact h r rfl

/-- The replies of an automaton that rejects. -/
theorem reply_consistent (h : Rejects a) {l : Line} {failure : Option Report}
    (e : reply a l = .stop failure) : ∀ r, failure = some r → r.Consistent := by
  rintro r rfl
  cases l with
  | closed => cases e
  | invalid =>
    cases e
    exact Report.consistent_of_head (c := 'f') (head?_ofList 'f' _) (by decide)
  | text s =>
    simp only [reply] at e
    split at e
    · cases e
    · rw [answer] at e
      split at e
      · cases e
      · next error run =>
        rw [if_pos (h _ _ _ run)] at e
        cases e
      · cases e
        simp [Report.Consistent, Report.render, inconsistency]

theorem converse_consistent (h : Rejects a) (ls : List Line) :
    (converse a printed ls).Consistent := by
  induction ls generalizing printed with
  | nil => exact Outcome.consistent_ofReport (by simp)
  | cons l ls ih =>
    rw [converse]
    split
    · exact ih
    · next failure e => exact Outcome.consistent_ofReport (reply_consistent h e)

theorem mapError_ok {ε ε' α : Type} (f : ε → ε') (x : α) :
    (Except.ok x : Except ε α).mapError f = .ok x := rfl

theorem mapError_error {ε ε' α : Type} (f : ε → ε') (e : ε) :
    (Except.error e : Except ε α).mapError f = .error (f e) := rfl

theorem context_of_loadGrammar {contents : Except FileError ByteArray}
    (e : loadGrammar path contents = .error r) : r.context = "errored during loading " ++ path := by
  rw [loadGrammar] at e
  cases contents with
  | error error =>
    cases e
    rfl
  | ok bytes =>
    simp only [mapError_ok, bind, Except.bind] at e
    split at e
    · cases e
      rfl
    · next text _ =>
      cases parsed : Grammar.ofText text with
      | error error =>
        rw [parsed, mapError_error] at e
        cases e
        rfl
      | ok g =>
        rw [parsed, mapError_ok] at e
        cases e

theorem openGrammar_consistent {contents : Except FileError ByteArray}
    (e : openGrammar dump path contents = (text, .error r)) : r.Consistent := by
  rw [openGrammar] at e
  split at e
  · next failed =>
    cases e
    refine Report.consistent_of_head (c := 'e') ?_ (by decide)
    rw [context_of_loadGrammar failed]
    exact head?_toList_append _ (head?_ofList 'e' _)
  · split at e
    · cases e
      exact Report.consistent_of_head (c := 'e') (head?_toList_append _ (head?_ofList 'e' _)) (by decide)
    · cases e

/-- An automaton that is opened was built. -/
theorem build_of_openGrammar {contents : Except FileError ByteArray}
    (e : openGrammar dump path contents = (text, .ok a)) : ∃ g, Automaton.build g = .ok a := by
  rw [openGrammar] at e
  split at e
  · cases e
  · next g _ =>
    split at e
    · cases e
    · next built =>
      cases e
      exact ⟨g, built⟩

variable {readFile : String → Except FileError ByteArray}

theorem session_consistent (h : ∀ g a, Automaton.build g = .ok a → Rejects a) (ls : List Line) :
    (session readFile dump path printed ls).Consistent := by
  rw [session]
  split
  · next failed =>
    apply Outcome.consistent_ofReport
    intro r e
    cases e
    exact openGrammar_consistent failed
  · next opened =>
    obtain ⟨g, built⟩ := build_of_openGrammar opened
    exact converse_consistent (h g _ built) ls

/-- If what built automata fail with are rejections, no request is answered with the report of an
inconsistent parser. -/
theorem respond_consistent (h : ∀ g a, Automaton.build g = .ok a → Rejects a) (stdin : ByteArray)
    (request : Option Request) : (respond readFile stdin request).Consistent := by
  rw [respond.eq_def]
  split
  · exact not_inconsistency_of_head head?_usage (by decide)
  · simp [Outcome.Consistent, inconsistency]
  · simp [Outcome.Consistent, inconsistency]
  · exact session_consistent h _
  · rw [askedSession]
    split
    · exact session_consistent h _
    · apply Outcome.consistent_ofReport
      intro r e
      cases e
      exact Report.consistent_of_head (c := 'f') (head?_ofList 'f' _) (by decide)
    · exact session_consistent h _

end SimpleLR.Command

import SimpleLR.Proofs.Automaton.Renaming
import SimpleLR.Proofs.Parser.Forest
import SimpleLR.Proofs.Recognizer.Arguments

/-!
# Where the input is accepted

No transition of a built automaton leads back to the first state, since the augmenting rule is
entered there only, and so that rule is complete in a single state, which the start symbol leads to
from the first one (`Automaton.AcceptsIn`). So a call accepts when the start symbol is all that is
on the stack, its tree holds every token that the sources have given, and the last answer was that
there are no more (`Automaton.Concludes`).
-/

namespace SimpleLR

/-! ## When the end of the input is known -/

namespace Parser

variable {σ τ ν ρ ε : Type} {t : ParseTable σ τ ν ρ} {p : Parser σ τ ν}
  {source : List (Except ε τ)} {turn : Turn σ τ ν ρ ε} {trees : List (Tree τ)}
  {log : List (Option (Except ε τ))}

/-- Moving on, a parser knows of the end of the input from the last answer. -/
theorem Drives.getLast?_of_ended (h : Drives t p source turn) (unread : p.lookahead = .unread)
    (ended : turn.parser.lookahead = .known none) :
    (p.driveAnswers t source).getLast? = some none := by
  induction h with
  | exhausted => rfl
  | stopped effect => cases effect.lookahead.symm.trans ended
  | lexer => cases unread.symm.trans ended
  | shift e action _ ih =>
    rw [driveAnswers, move_of_shift e action, List.getLast?_cons, ih rfl ended]
    rfl

/-- A call that knows of the end of the input knew it before, and then it asks nothing, or it knows
it from the last answer. -/
theorem getLast?_answers_of_ended (reading : p.accepted = false)
    (ended : (p.next t source).parser.lookahead = .known none) :
    p.lookahead = .known none ∨ (p.answers t source).getLast? = some none := by
  have calls := next_calls (t := t) reading source
  rw [answers, if_neg (by simp [reading])]
  generalize p.next t source = turn at calls ended
  cases calls with
  | drive unread drives =>
    rw [unread]
    exact .inr (drives.getLast?_of_ended unread ended)
  | shift known e action drives =>
    simp only [known, move_of_shift e action]
    exact .inr (drives.getLast?_of_ended rfl ended)
  | ended known effect =>
    exact .inl (known.trans (effect.lookahead.symm.trans ended))

/-- A parser knows of the end of the input from the last answer of its sources. -/
theorem Grown.getLast?_of_ended (h : Grown t p trees log) (ended : p.lookahead = .known none) :
    log.getLast? = some none := by
  induction h with
  | start => cases ended
  | @next p _ log before source _ ih =>
    cases reading : p.accepted with
    | true =>
      rw [next_of_accepted reading] at ended
      rw [answers, if_pos reading, List.append_nil]
      exact ih ended
    | false =>
      rcases getLast?_answers_of_ended reading ended with known | last
      · rw [(answers_of_ended known source).1, List.append_nil]
        exact ih known
      · rw [List.getLast?_append, last, Option.some_or]

/-- A parser that reports anything but that it has accepted before has not. -/
theorem reading_of_result {result : Except (ParseError ε) (Event ρ)}
    (h : (p.next t source).result = result) (fresh : result ≠ .error .alreadyAccepted) :
    p.accepted = false := by
  cases reading : p.accepted with
  | true =>
    rw [next_of_accepted reading] at h
    exact absurd h.symm fresh
  | false => rfl

/-- With nothing left to read, a parser knows of the end of the input or is told of it. -/
theorem answers_of_pending_nil (reading : p.accepted = false) (h : p.pending source = []) :
    p.ahead = [] ∧ (p.lookahead = .known none ∧ p.answers t source = [] ∨
      p.answers t source = [none]) := by
  cases known : p.lookahead with
  | unread =>
    rw [pending_of_unread known] at h
    rw [answers, if_neg (by simp [reading]), known, h]
    exact ⟨ahead_of_unread known, .inr rfl⟩
  | known ahead =>
    cases ahead with
    | none => exact ⟨ahead_of_known known, .inl ⟨rfl, (answers_of_ended known source).1⟩⟩
    | some token =>
      rw [pending, known] at h
      cases h

/-- With nothing left to read, a call that accepts takes what is on top off the stack. -/
theorem stack_of_accept (reading : p.accepted = false) (nothing : p.pending source = [])
    (result : (p.next t source).result = .ok .accept) :
    ∃ top below, p.stack = top :: below ∧ (p.next t source).parser.stack = below ∧
      (p.next t source).popped = some [top.entry] := by
  obtain ⟨q, pending, shifts, stops⟩ := next_cases (t := t) reading source
  obtain ⟨v, read, _, shifted, stack, entries⟩ := shifts.stack
  rw [nothing] at read
  obtain rfl : v = [] := List.map_eq_nil_iff.1 (List.append_eq_nil_iff.1 read.symm).1
  obtain rfl : shifted = [] := List.map_eq_nil_iff.1 entries
  rw [List.nil_append] at stack
  generalize p.next t source = turn at stops result
  cases stops with
  | lexer => cases result
  | ended effect =>
    cases result
    cases effect with
    | accept e => exact ⟨_, _, stack.symm.trans e, rfl, rfl⟩

theorem Grown.reached (h : Grown t p trees log) : Reached ε t p := by
  induction h with
  | start => exact .start
  | next _ source _ ih => exact ih.next source

/-- With nothing left to read, the trees hold what the sources have given, and no more comes. -/
theorem Grown.of_pending_nil (h : Grown t p trees log) (reading : p.accepted = false)
    (nothing : p.pending source = []) :
    Tree.leavesUp trees = tokensOf (log ++ p.answers t source) ∧
      (log ++ p.answers t source).getLast? = some none := by
  obtain ⟨none_ahead, asked⟩ := answers_of_pending_nil (t := t) reading nothing
  have tokens := h.conserved.tokens
  rw [none_ahead, List.append_nil] at tokens
  rcases asked with ⟨known, asked⟩ | asked
  · rw [asked, List.append_nil]
    exact ⟨tokens, h.getLast?_of_ended known⟩
  · rw [asked, tokensOf_append, tokens]
    exact ⟨(List.append_nil _).symm, List.getLast?_concat⟩

end Parser

theorem Grammar.Reaches.exists_along {g : Grammar} {s : ItemSet} (h : g.Reaches s) :
    ∃ form, s = .along g form := by
  induction h with
  | initial => exact ⟨[], rfl⟩
  | @goto _ x _ _ _ ih =>
    obtain ⟨form, rfl⟩ := ih
    exact ⟨form ++ [x], (ItemSet.along_concat form x).symm⟩

namespace Automaton

/-- The input is accepted in one cell only, that of the end of the input in the state which the
start symbol leads to from the first one, and no transition leads back to the first state. -/
structure AcceptsIn (a : Automaton) (g : Grammar) (final : StateId) : Prop where
  departs : ∀ id x, a.action? id x ≠ some (.shift .initial) ∧ a.action? id x ≠ some (.goto .initial)
  enters : a.action? .initial (.nonterminal g.start) = some (.goto final)
  accept_iff : ∀ id x, a.action? id x = some .accept ↔ id = final ∧ x = .terminal .endOfInput

variable {ε : Type}

/-- A call accepts when the start symbol alone is on the stack, above the entry below all others.
All tokens that the sources have given have been shifted and are the leaves of its tree, and the
last answer was that there are no more. The start symbol is handed out. -/
structure Concludes (a : Automaton) (g : Grammar) (final : StateId)
    (p : Parser StateId Terminal Nonterminal) (trees : List (Tree Terminal))
    (answers : List (Option (Except ε Terminal)))
    (turn : Turn StateId Terminal Nonterminal RuleId ε) : Prop where
  stack : p.stack = [⟨.nonterminal g.start, final⟩, ⟨.bottom, .initial⟩]
  shifted : p.position = (tokensOf answers).length
  tree : ∃ children, trees = [.node children, .empty] ∧ Tree.leavesAll children = tokensOf answers
  exhausted : answers.getLast? = some none
  popped : turn.popped = some [.nonterminal g.start]
  left : turn.parser.stack = [⟨.bottom, .initial⟩]

variable {a : Automaton} {g : Grammar} {id : StateId} {x : Symbol} {final : StateId}
  {p : Parser StateId Terminal Nonterminal} {form : List Symbol}
  {source : List (Except ε Terminal)}

/-! ## Which cells accept -/

/-- A transition leads to a set that symbols lead to. -/
theorem exists_goto_of_action (ha : a.Tabulates) {act : Action} {target : StateId}
    (cell : a.action? id x = some act) (enters : act = .shift target ∨ act = .goto target) :
    ∃ s : ItemSet, a.itemsOf target = some (s.goto a.grammar x) := by
  obtain ⟨s, place⟩ := exists_itemsOf_of_action cell
  cases (ha.action_iff id s place x act).1 cell with
  | @enter x target' _ place' =>
    obtain rfl : target' = target := by cases x <;> simpa [Action.enter] using enters
    exact ⟨s, place'⟩
  | @complete i =>
    rcases enters with e | e
    · exact absurd e Action.complete_ne_shift
    · rw [Action.complete] at e
      split at e <;> cases e

/-- No transition leads back to the first state. -/
theorem ne_initial_of_action (ha : a.Tabulates) {act : Action} {target : StateId}
    (cell : a.action? id x = some act) (enters : act = .shift target ∨ act = .goto target) :
    target ≠ .initial := by
  rintro rfl
  obtain ⟨s, place⟩ := exists_goto_of_action ha cell enters
  have same : .initial a.grammar = s.goto a.grammar x :=
    Option.some.inj (ha.initial.symm.trans place)
  have entered := ItemSet.initial_accept_mem_along_nil (g := a.grammar)
  rw [ItemSet.along_nil, same] at entered
  exact ItemSet.initial_accept_not_mem_goto s x entered

/-- What is accepted is accepted at the end of the input, along the start symbol. -/
theorem along_start_of_accept (h : build g = .ok a) (cell : a.action? id x = some .accept) :
    a.itemsOf id = some (.along g [.nonterminal g.start]) ∧ x = .terminal .endOfInput := by
  obtain ⟨s, place⟩ := exists_itemsOf_of_action cell
  obtain ⟨form, rfl⟩ := ((exists_itemsOf_iff h).1 ⟨id, place⟩).exists_along
  obtain ⟨rfl, ha⟩ := tabulates_of_build h
  generalize e : Action.accept = act at cell
  cases (ha.action_iff id _ place x act).1 cell with
  | @enter x => cases x <;> cases e
  | @complete i t hi complete follow =>
    -- the augmenting rule is complete along the start symbol only
    have rule := Action.complete_eq_accept_iff.1 e.symm
    rw [rule, Grammar.left_accept] at follow
    rw [place, ItemSet.eq_start_of_isComplete hi complete rule,
      Grammar.eq_endOfInput_of_mem_follow_augmented follow]
    exact ⟨rfl, rfl⟩

theorem exists_acceptsIn (h : build g = .ok a) :
    ∃ final, a.AcceptsIn g final ∧ a.itemsOf final = some (.along g [.nonterminal g.start]) := by
  obtain ⟨rfl, ha⟩ := tabulates_of_build h
  obtain ⟨i, hi, _⟩ := Grammar.exists_accept_mem a.grammar
  have viable : a.grammar.Viable ([] ++ [.nonterminal a.grammar.start]) := ⟨i, hi⟩
  have ne := Grammar.viable_concat_iff.1 viable
  obtain ⟨final, place⟩ := ha.goto .initial _ ha.initial _ ne
  have along : a.itemsOf final = some (.along a.grammar [.nonterminal a.grammar.start]) := place
  refine ⟨final, ⟨fun id x ↦ ⟨fun cell ↦ ?_, fun cell ↦ ?_⟩, ?_, fun id x ↦ ⟨fun cell ↦ ?_, ?_⟩⟩,
    along⟩
  · exact ne_initial_of_action ha cell (.inl rfl) rfl
  · exact ne_initial_of_action ha cell (.inr rfl) rfl
  · exact (ha.action_iff _ _ ha.initial _ _).2 (.enter ne place)
  · obtain ⟨along', eoi⟩ := along_start_of_accept h cell
    exact ⟨itemsOf_inj h along' along, eoi⟩
  · rintro ⟨rfl, rfl⟩
    exact (ha.action_iff _ _ along _ _).2 (claims_accept a)

/-! ## Runs -/

/-- Calls over a built table always find a state to enter, so the trees grow on. -/
theorem grown_next (ha : a.Tabulates) {trees : List (Tree Terminal)}
    {log : List (Option (Except ε Terminal))} (grown : Parser.Grown a.table p trees log)
    (source : List (Except ε Terminal)) :
    Parser.Grown a.table (p.next a.table source).parser (p.grow (p.next a.table source) trees)
      (log ++ p.answers a.table source) := by
  refine grown.next source fun missing ↦ ?_
  have reading := Parser.reading_of_result missing (by simp)
  rcases error_of_reached ha grown.reached reading missing with ⟨_, e⟩ | ⟨_, e⟩ <;> cases e

/-- Terminals do not make up a nonterminal. -/
theorem eq_nil_of_append_terminals {n : Nonterminal} {v : List Terminal}
    (e : form ++ v.map .terminal = [.nonterminal n]) : v = [] ∧ form = [.nonterminal n] := by
  cases v with
  | nil => exact ⟨rfl, by simpa using e⟩
  | cons t v =>
    have mem : Symbol.terminal t ∈ [Symbol.nonterminal n] := by
      rw [← e]
      simp
    cases List.mem_singleton.1 mem

theorem Spells.eq_bottom {stack : List (Frame StateId Terminal Nonterminal)}
    (h : a.Spells stack []) : stack = [⟨.bottom, .initial⟩] := by
  generalize e : [] = form at h
  cases h with
  | bottom => rfl
  | push => exact absurd e (by simp)

/-- The stack that spells a single symbol. -/
theorem Spells.singleton (ha : a.Tabulates) (h : a.Spells p.stack [x]) :
    ∃ target, p.stack = [⟨.ofSymbol x, target⟩, ⟨.bottom, .initial⟩] ∧
      a.itemsOf target = some (.along a.grammar [x]) := by
  obtain ⟨top, below, e, place⟩ := h.exists_top ha
  have appended : a.Spells p.stack ([] ++ [x]) := h
  obtain ⟨target, below', e', spells⟩ := appended.pop
  obtain ⟨rfl, rfl⟩ := List.cons.inj (e'.symm.trans e)
  obtain rfl := spells.eq_bottom
  exact ⟨target, e', place⟩

/-- The tree of the start symbol is a node. -/
theorem exists_node_of_grows {n : Nonterminal} {trees : List (Tree Terminal)}
    (h : List.Forall₂ Entry.Grows [.nonterminal n, .bottom] trees) :
    ∃ children, trees = [.node children, .empty] := by
  cases h with
  | cons left rest =>
    cases left with
    | nonterminal _ children =>
      cases rest with
      | cons lowest none =>
        cases lowest
        cases none
        exact ⟨children, rfl⟩

theorem concludes_of_accept (h : build g = .ok a)
    (along : a.itemsOf final = some (.along g [.nonterminal g.start])) {trees : List (Tree Terminal)}
    {log : List (Option (Except ε Terminal))} (grown : Parser.Grown a.table p trees log)
    (result : (p.next a.table source).result = .ok .accept) :
    a.Concludes g final p trees (log ++ p.answers a.table source) (p.next a.table source) := by
  obtain ⟨rfl, ha⟩ := tabulates_of_build h
  have reading := Parser.reading_of_result result (by simp)
  obtain ⟨form, hs⟩ := exists_spells_of_reached ha grown.reached reading
  obtain ⟨v, nothing, spelled⟩ := (next_turns ha hs reading source).of_accept result
  -- a token that this call shifts would stand above the start symbol
  obtain ⟨rfl, rfl⟩ := eq_nil_of_append_terminals spelled
  obtain ⟨target, stack, place⟩ := hs.singleton ha
  obtain rfl := itemsOf_inj h place along
  obtain ⟨tokens, exhausted⟩ := grown.of_pending_nil reading nothing
  obtain ⟨top, below, e, left, popped⟩ := Parser.stack_of_accept reading nothing result
  obtain ⟨rfl, rfl⟩ := List.cons.inj (stack.symm.trans e)
  have grows := grown.conserved.grows
  rw [reading, stack] at grows
  obtain ⟨children, rfl⟩ := exists_node_of_grows grows
  have leaves : Tree.leavesUp [Tree.node children, .empty] = Tree.leavesAll children := by
    simp [Tree.leavesUp, Tree.leavesAll, Tree.leaves]
  exact {
    stack
    shifted := by rw [grown.conserved.position, tokens]
    tree := ⟨children, rfl, leaves.symm.trans tokens⟩
    exhausted, popped, left }

/-- The input is accepted in one place only. A single cell of a built automaton accepts, and no
transition leads back to the first state. However a parser is called, and whatever its sources hold,
its trees grow on with each call, and a call accepts only with nothing but the start symbol on the
stack, when all tokens have been shifted and a source has said that there are no more. -/
theorem accepts_once (h : build g = .ok a) :
    ∃ final, a.AcceptsIn g final ∧
      ∀ (ε : Type) (p : Parser StateId Terminal Nonterminal) (trees : List (Tree Terminal))
        (log : List (Option (Except ε Terminal))), Parser.Grown a.table p trees log →
        ∀ source : List (Except ε Terminal),
          Parser.Grown a.table (p.next a.table source).parser
              (p.grow (p.next a.table source) trees) (log ++ p.answers a.table source) ∧
            ((p.next a.table source).result = .ok .accept →
              a.Concludes g final p trees (log ++ p.answers a.table source)
                (p.next a.table source)) := by
  obtain ⟨final, accepts, along⟩ := exists_acceptsIn h
  exact ⟨final, accepts, fun ε p trees log grown source ↦
    ⟨grown_next (tabulates_of_build h).2 grown source, concludes_of_accept h along grown⟩⟩

/-- On `a b`, two calls report rules and the third one accepts. -/
theorem accepts_once_nested :
    ∃ a final p trees log, build .nested = .ok a ∧ a.AcceptsIn .nested final ∧
      Parser.Grown (ε := Empty) a.table p trees log ∧
      (p.next (ε := Empty) a.table []).result = .ok .accept ∧
      a.Concludes .nested final p trees (log ++ p.answers a.table []) (p.next a.table []) := by
  obtain ⟨a, h⟩ := exists_build_nested
  obtain ⟨final, accepts, runs⟩ := accepts_once h
  have once := (runs Empty _ _ _ .start [.ok ⟨1⟩, .ok ⟨2⟩]).1
  have twice := (runs Empty _ _ _ once []).1
  have result : ((((Parser.start a.table).next (ε := Empty) a.table
      [.ok ⟨1⟩, .ok ⟨2⟩]).parser.next (ε := Empty) a.table []).parser.next (ε := Empty)
        a.table []).result = .ok .accept :=
    eq_of_build (f := fun a ↦ ((((Parser.start a.table).next (ε := Empty) a.table
      [.ok ⟨1⟩, .ok ⟨2⟩]).parser.next (ε := Empty) a.table []).parser.next (ε := Empty)
        a.table []).result) h (by decide +kernel)
  exact ⟨a, final, _, _, _, h, accepts, twice, result, (runs Empty _ _ _ twice []).2 result⟩

end Automaton

end SimpleLR

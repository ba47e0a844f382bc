import SimpleLR.Proofs.Grammar.Names
import SimpleLR.Proofs.Parser.Interruption
import SimpleLR.Proofs.Recognizer.Safety
import SimpleLR.Proofs.Recognizer.Soundness

/-!
# Recognition of texts

A text is read by the characters that are not blanks, each of which is to name a terminal. If it is
recognized, they all do, and what is derived spells the text. Otherwise recognition stops at the
first character that names none, when the tokens of those before it have been shifted, or it rejects
the input before that; what comes behind that character makes no difference.
-/

namespace SimpleLR

/-- The characters of a text that are not blanks. -/
def Text.visible (text : String) : List Char := text.toList.filter (!isBlank ·)

/-- A character is the name of a terminal, which is not the reserved one. -/
structure Alphabet.NamesTerminal (a : Alphabet) (c : Char) (t : Terminal) : Prop where
  declared : a.Declares (.terminal t)
  name : a.terminalName t = c.toString

theorem Alphabet.namesTerminal_iff {a : Alphabet} {c : Char} {t : Terminal} :
    a.NamesTerminal c t ↔ a.terminal? c.toString = some t ∧ t ≠ .endOfInput := by
  have reserved : t ≠ .endOfInput ↔ 0 < t.index := by
    obtain ⟨i⟩ := t
    simp [Terminal.endOfInput, Nat.pos_iff_ne_zero]
  have named : a.terminal? c.toString = some t ↔
      t.index < a.terminals.size ∧ a.terminalName t = c.toString := by
    rw [terminal?_eq_some_iff]
    exact (name?_eq_some_iff (s := .terminal t)).trans (by rw [hasName, decide_eq_true_iff]; rfl)
  rw [named, reserved]
  constructor
  · rintro ⟨⟨pos, lt⟩, name⟩
    exact ⟨⟨lt, name⟩, pos⟩
  · rintro ⟨⟨lt, name⟩, pos⟩
    exact ⟨⟨pos, lt⟩, name⟩

namespace Automaton

variable {a : Automaton} {g : Grammar} {c : Char} {t : Terminal} {front cs : List Char}
  {v : List Terminal} {text : String} {events : Nat}

/-- Recognition is over at a character that names no terminal: it is reported when so many tokens
have been shifted as there are characters in front of it, and otherwise the input is rejected at a
place before. -/
structure StopsAt (front : List Char) (c : Char)
    (result : Except (ParseError Char) Derivation) (position : Nat) : Prop where
  lexer_iff : result = .error (.lexer c) ↔ position = front.length
  rejected : position ≠ front.length →
    result = .error (.rejected position) ∧ position < front.length

/-! ## Characters and tokens -/

theorem token_eq_ok_iff : a.token c = .ok t ↔ a.grammar.NamesTerminal c t := by
  rw [token, Alphabet.namesTerminal_iff]
  cases a.grammar.terminal? c.toString with
  | none => exact ⟨nofun, fun h ↦ nomatch h.1⟩
  | some t' =>
    dsimp only
    by_cases eoi : t' = .endOfInput
    · rw [if_pos eoi]
      exact ⟨nofun, fun ⟨same, ne⟩ ↦ absurd (Option.some.inj same ▸ eoi) ne⟩
    · rw [if_neg eoi]
      constructor
      · rintro ⟨⟩
        exact ⟨rfl, eoi⟩
      · rintro ⟨⟨⟩, _⟩
        rfl

theorem token_of_not_named (h : ∀ t, ¬ a.grammar.NamesTerminal c t) : a.token c = .error c := by
  simp only [← token_eq_ok_iff] at h
  rw [token] at h ⊢
  cases found : a.grammar.terminal? c.toString with
  | none => rfl
  | some t =>
    rw [found] at h
    dsimp only at h ⊢
    by_cases eoi : t = .endOfInput
    · rw [if_pos eoi]
      rfl
    · rw [if_neg eoi] at h
      exact absurd rfl (h t)

theorem map_token_eq_iff :
    cs.map a.token = v.map .ok ↔ List.Forall₂ a.grammar.NamesTerminal cs v := by
  rw [← List.forall₂_eq_eq_eq, List.forall₂_map_left_iff, List.forall₂_map_right_iff]
  simp only [token_eq_ok_iff]

/-- Characters that name terminals are read as these. -/
theorem exists_tokens (h : ∀ x ∈ cs, ∃ t, g.NamesTerminal x t) :
    ∃ v, List.Forall₂ g.NamesTerminal cs v := by
  induction cs with
  | nil => exact ⟨[], .nil⟩
  | cons x cs ih =>
    obtain ⟨⟨t, here⟩, h⟩ := List.forall_mem_cons.1 h
    obtain ⟨v, names⟩ := ih h
    exact ⟨t :: v, .cons here names⟩

/-- Terminals spell the characters that name them. -/
theorem join_names (h : List.Forall₂ g.NamesTerminal cs v) :
    String.join ((v.map Symbol.terminal).map g.symbolName) = String.ofList cs := by
  induction h with
  | nil => rfl
  | @cons c t cs v here _ ih =>
    have name : g.symbolName (.terminal t) = c.toString := here.name
    rw [List.map_cons, List.map_cons, String.join_cons, ih, name, String.ofList_cons]
    rfl

theorem exists_terminal_of_mem (h : List.Forall₂ g.NamesTerminal cs v) :
    ∀ x ∈ cs, ∃ t, g.NamesTerminal x t := by
  induction h with
  | nil => exact nofun
  | cons here _ ih => exact List.forall_mem_cons.2 ⟨⟨_, here⟩, ih⟩

/-! ## Recognition -/

/-- A text that is recognized is spelled by what is derived. -/
theorem spelled_of_parseString (ha : a.Tabulates) {d : Derivation}
    (run : a.parseString events text = some (.ok d)) :
    (∀ x ∈ Text.visible text, ∃ t, a.grammar.NamesTerminal x t) ∧
      ∃ form, d.replay a.grammar = some form ∧
        String.join (form.map a.grammar.symbolName) = String.ofList (Text.visible text) := by
  obtain ⟨collected, q, rest, collects, e⟩ := parse_eq_some_iff.1 run
  cases collected with
  | error _ => cases e
  | ok rules =>
    cases e
    obtain ⟨v, pending, derived⟩ := expand_of_collect (u := []) ha .bottom rfl rfl collects
    have names : List.Forall₂ a.grammar.NamesTerminal (Text.visible text) v :=
      map_token_eq_iff.1 pending
    exact ⟨exists_terminal_of_mem names, _, derived, join_names names⟩

variable {rest : List Char}

/-- The tokens of a text up to the first character that names no terminal. -/
theorem tokens_of_visible (names : List.Forall₂ a.grammar.NamesTerminal front v)
    (unnamed : ∀ t, ¬ a.grammar.NamesTerminal c t) (h : Text.visible text = front ++ c :: rest) :
    a.tokens text = v.map .ok ++ [.error c] ++ rest.map a.token := by
  change (Text.visible text).map a.token = _
  rw [h, List.map_append, List.map_cons, map_token_eq_iff.2 names, token_of_not_named unnamed,
    List.append_assoc]
  rfl

theorem stopsAt_of_collect (ha : a.Tabulates) (names : List.Forall₂ a.grammar.NamesTerminal front v)
    {behind left : List (Except Char Terminal)} {done : List RuleId}
    {collected : Except (ParseError Char) (List RuleId)} {q : Parser StateId Terminal Nonterminal}
    (collects : (Parser.start a.table).collect a.table events (v.map .ok ++ .error c :: behind)
      done = some (collected, q, left)) :
    StopsAt front c (collected.map Derivation.mk) q.position := by
  have count : (Parser.start a.table).position + v.length = front.length := by
    rw [names.length_eq]
    exact Nat.zero_add _
  rcases (Parser.faces_start a.table v c behind).collect collects with
    ⟨rfl, position⟩ | ⟨e, rfl, other, lt, place⟩
  · rw [count] at position
    exact ⟨iff_of_true rfl position, fun ne ↦ absurd position ne⟩
  · rw [count] at lt
    rcases error_of_collect ha .start rfl collects with ⟨x, rfl⟩ | ⟨n, rfl⟩
    · exact absurd rfl (other x)
    · obtain rfl := place n rfl
      exact ⟨iff_of_false nofun (Nat.ne_of_lt lt), fun _ ↦ ⟨rfl, lt⟩⟩

/-- Recognition does not look behind a character that names no terminal. -/
theorem parse_append_of_error (v : List Terminal) (behind : List (Except Char Terminal)) :
    a.parse events (v.map .ok ++ [.error c] ++ behind) =
      a.parse events (v.map .ok ++ [.error c]) := by
  have same := (Parser.faces_start a.table v c []).collect_append (t := a.table) events [] behind
  have outcome := congrArg (Option.map fun r ↦ r.1.map Derivation.mk) same
  rw [Option.map_map, Option.map_map] at outcome
  exact outcome

/-- Recognition spells its input. A text is recognized only if all of its visible characters name
terminals, and then the names of the symbols that are derived, put together, are these characters.
If a visible character names no terminal, the first such one decides what any text comes to that
begins with the same visible characters: recognition reports it exactly if the tokens of those before
it have all been shifted, and otherwise it rejects the input at a place before. -/
theorem parseString_spells (h : build g = .ok a) (events : Nat) (text : String) :
    (∀ d, a.parseString events text = some (.ok d) →
      (∀ x ∈ Text.visible text, ∃ t, g.NamesTerminal x t) ∧
        ∃ form, d.replay g = some form ∧
          String.join (form.map g.symbolName) = String.ofList (Text.visible text)) ∧
    ∀ front c rest, Text.visible text = front ++ c :: rest →
      (∀ x ∈ front, ∃ t, g.NamesTerminal x t) → (∀ t, ¬ g.NamesTerminal c t) →
        (∀ result, a.parseString events text = some result → ∃ collected q left,
          (Parser.start a.table).collect a.table events (a.tokens text) [] =
            some (collected, q, left) ∧ collected.map Derivation.mk = result ∧
              StopsAt front c result q.position) ∧
        ∀ text' rest', Text.visible text' = front ++ c :: rest' →
          a.parseString events text' = a.parseString events text := by
  obtain ⟨rfl, ha⟩ := tabulates_of_build h
  refine ⟨fun d run ↦ spelled_of_parseString ha run, fun front c rest shown named unnamed ↦ ?_⟩
  obtain ⟨v, names⟩ := exists_tokens named
  have tokens := tokens_of_visible names unnamed shown
  refine ⟨fun result run ↦ ?_, fun text' rest' shown' ↦ ?_⟩
  · obtain ⟨collected, q, left, collects, same⟩ := parse_eq_some_iff.1 run
    refine ⟨collected, q, left, collects, same, ?_⟩
    rw [tokens, List.append_assoc] at collects
    rw [← same]
    exact stopsAt_of_collect ha names collects
  · rw [parseString, parseString, tokens, tokens_of_visible names unnamed shown',
      parse_append_of_error, parse_append_of_error]

/-- ` a b` is recognized and derived. On `ax` the unknown character is reported, whatever follows,
and on `bx` the input is rejected before it. -/
theorem parseString_spells_nested :
    ∃ a, build .nested = .ok a ∧
      (a.parseString 3 " a b" = some (.ok ⟨[⟨2⟩, ⟨1⟩]⟩) ∧
        ∃ form, (Derivation.mk [⟨2⟩, ⟨1⟩]).replay .nested = some form ∧
          String.join (form.map Grammar.nested.symbolName) =
            String.ofList (Text.visible " a b")) ∧
      (∃ position, StopsAt ['a'] 'x' (.error (.lexer 'x')) position) ∧
      a.parseString 2 "a x b" = a.parseString 2 "ax" ∧
      ∃ position, StopsAt ['b'] 'x' (.error (.rejected 0)) position := by
  obtain ⟨a, h⟩ := exists_build_nested
  have run : a.parseString 3 " a b" = some (.ok ⟨[⟨2⟩, ⟨1⟩]⟩) :=
    eq_of_build (f := fun a ↦ a.parseString 3 " a b") h (by decide +kernel)
  have lexer : a.parseString 2 "ax" = some (.error (.lexer 'x')) :=
    eq_of_build (f := fun a ↦ a.parseString 2 "ax") h (by decide +kernel)
  have rejected : a.parseString 2 "bx" = some (.error (.rejected 0)) :=
    eq_of_build (f := fun a ↦ a.parseString 2 "bx") h (by decide +kernel)
  have first : Grammar.nested.NamesTerminal 'a' ⟨1⟩ := ⟨by decide, rfl⟩
  have second : Grammar.nested.NamesTerminal 'b' ⟨2⟩ := ⟨by decide, rfl⟩
  have unnamed : ∀ t, ¬ Grammar.nested.NamesTerminal 'x' t := by
    intro t names
    have found := (Alphabet.namesTerminal_iff.1 names).1
    cases (show Grammar.nested.terminal? 'x'.toString = none by decide +kernel).symm.trans found
  obtain ⟨_, form, derived, spelled⟩ := (parseString_spells h 3 " a b").1 _ run
  obtain ⟨stops, same⟩ := (parseString_spells h 2 "ax").2 ['a'] 'x' [] (by decide +kernel)
    (List.forall_mem_singleton.2 ⟨_, first⟩) unnamed
  obtain ⟨stops', _⟩ := (parseString_spells h 2 "bx").2 ['b'] 'x' [] (by decide +kernel)
    (List.forall_mem_singleton.2 ⟨_, second⟩) unnamed
  obtain ⟨_, q, _, _, _, reports⟩ := stops _ lexer
  obtain ⟨_, q', _, _, _, rejects⟩ := stops' _ rejected
  exact ⟨a, h, ⟨run, form, derived, spelled⟩, ⟨_, reports⟩, same "a x b" ['b'] (by decide +kernel),
    _, rejects⟩

end Automaton

end SimpleLR

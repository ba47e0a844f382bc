import SimpleLR.Proofs.Automaton.Table
import SimpleLR.Proofs.Parser.Call

/-!
# The stack of a parser over an automaton

The entries of the stack spell a form, and each state on it is the one reached along the form that
is spelled below (`Automaton.Spells`). This is kept by every call of `Parser.next`, and it decides
what the call can do (`Automaton.Turns`): the items along the form are those of the state on top.
-/

namespace SimpleLR

/-- The entry that a symbol becomes on the stack. -/
def Entry.ofSymbol : Symbol → Entry Terminal Nonterminal
  | .terminal t => .token t
  | .nonterminal n => .nonterminal n

namespace Automaton

/-- The entries of a stack spell a form, and its states are those along the form. -/
inductive Spells (a : Automaton) : List (Frame StateId Terminal Nonterminal) → List Symbol → Prop
  | bottom : Spells a [⟨.bottom, .initial⟩] []
  | push {stack : List (Frame StateId Terminal Nonterminal)} {form : List Symbol} {x : Symbol}
    {target : StateId} (below : Spells a stack form)
    (place : a.itemsOf target = some (.along a.grammar (form ++ [x]))) :
    Spells a (⟨.ofSymbol x, target⟩ :: stack) (form ++ [x])

variable {a : Automaton} {stack below : List (Frame StateId Terminal Nonterminal)}
  {top : Frame StateId Terminal Nonterminal} {form front back : List Symbol} {x : Symbol}
  {i : Item} {target : StateId}
  {items : ItemSet} {act act' : Action}

theorem Spells.exists_top (ha : a.Tabulates) (h : a.Spells stack form) :
    ∃ top below, stack = top :: below ∧ a.itemsOf top.state = some (.along a.grammar form) := by
  cases h with
  | bottom => exact ⟨_, _, rfl, ha.initial⟩
  | push _ place => exact ⟨_, _, rfl, place⟩

theorem Spells.pop (h : a.Spells stack (form ++ [x])) :
    ∃ target below, stack = ⟨.ofSymbol x, target⟩ :: below ∧ a.Spells below form := by
  generalize e : form ++ [x] = form' at h
  cases h with
  | bottom => exact absurd e (by simp)
  | push below _ =>
    obtain ⟨rfl, last⟩ := List.append_inj' e rfl
    obtain rfl := List.singleton_inj.1 last
    exact ⟨_, _, rfl, below⟩

/-- What is left of the stack spells the front of the form. -/
theorem Spells.drop (h : a.Spells stack (front ++ back)) :
    a.Spells (stack.drop back.length) front := by
  induction back using List.reverseRecOn generalizing stack with
  | nil => simpa using h
  | append_singleton back x ih =>
    rw [← List.append_assoc] at h
    obtain ⟨target, below, rfl, below_spells⟩ := h.pop
    rw [List.length_append]
    exact ih below_spells

/-! ## Cells of the state on top -/

/-- The actions in the state on top are those that the items along the form claim. -/
theorem Spells.action_iff (ha : a.Tabulates) (h : a.Spells stack form) (e : stack = top :: below) :
    a.action? top.state x = some act ↔ a.Claims (.along a.grammar form) x act := by
  obtain ⟨top', below', e', state⟩ := h.exists_top ha
  obtain ⟨rfl, rfl⟩ := List.cons.inj (e'.symm.trans e)
  exact ha.action_iff _ _ state x act

/-- There is a state for each viable form. -/
theorem Tabulates.exists_state (ha : a.Tabulates) (h : a.grammar.Viable form) :
    ∃ id, a.itemsOf id = some (.along a.grammar form) := by
  induction form using List.reverseRecOn with
  | nil => exact ⟨_, ha.initial⟩
  | append_singleton form x ih =>
    obtain ⟨id, state⟩ := ih (Grammar.viable_of_concat h)
    obtain ⟨target, place⟩ := ha.goto id _ state x (Grammar.viable_concat_iff.1 h)
    exact ⟨target, by rw [ItemSet.along_concat, place]⟩

/-- Along a viable form only one action is claimed for a symbol. -/
theorem Tabulates.claims_unique (ha : a.Tabulates) (viable : a.grammar.Viable form)
    (h : a.Claims (.along a.grammar form) x act) (h' : a.Claims (.along a.grammar form) x act') :
    act = act' := by
  obtain ⟨id, state⟩ := ha.exists_state viable
  rw [← ha.action_iff id _ state] at h h'
  exact Option.some.inj (h.symm.trans h')

/-- A symbol with which a form is viable is entered. -/
theorem Tabulates.claims_of_viable (ha : a.Tabulates) (h : a.grammar.Viable (form ++ [x])) :
    ∃ target, a.Claims (.along a.grammar form) x (.enter x target) := by
  obtain ⟨id, state⟩ := ha.exists_state (Grammar.viable_of_concat h)
  have ne := Grammar.viable_concat_iff.1 h
  obtain ⟨target, place⟩ := ha.goto id _ state x ne
  exact ⟨target, .enter ne place⟩

theorem claims_of_reduction {form' : List Symbol} {t : Terminal} {r : RuleId}
    (h : a.grammar.Reduction t r form form') :
    a.Claims (.along a.grammar form) (.terminal t) (.reduce r) := by
  obtain ⟨hi, complete, rfl, ne, follow⟩ := h
  have claim := Claims.complete hi complete follow
  rwa [Action.complete, if_neg ne] at claim

theorem claims_accept (a : Automaton) :
    a.Claims (.along a.grammar [.nonterminal a.grammar.start]) (.terminal .endOfInput)
      .accept := by
  obtain ⟨i, hi, complete, rule⟩ := Grammar.exists_accept_mem a.grammar
  have follow := Grammar.endOfInput_mem_follow_augmented (g := a.grammar)
  rw [← Grammar.left_accept (g := a.grammar), ← rule] at follow
  have claim := Claims.complete hi complete follow
  rwa [Action.complete, if_pos rule] at claim

/-- Nothing is shifted at the end of the input. -/
theorem ne_endOfInput_of_kernel {g : Grammar} {s : ItemSet} {t : Terminal}
    (h : s.kernel g (.terminal t) ≠ []) : t ≠ .endOfInput := by
  rintro rfl
  obtain ⟨j, hj⟩ := List.exists_mem_of_ne_nil _ h
  obtain ⟨i, _, next, _⟩ := ItemSet.mem_kernel.1 hj
  exact Grammar.not_declares_endOfInput
    (Grammar.declares_of_mem_right (Item.mem_right_of_next next))

/-! ## Calls of a parser -/

variable {ε : Type}

/-- The terminal that is looked up, by what is left to read. -/
def lookahead : List (Except ε Terminal) → Terminal
  | .ok t :: _ => t
  | _ => .endOfInput

theorem lookahead_of_known {p : Parser StateId Terminal Nonterminal} {ahead : Option Terminal}
    (h : p.lookahead = .known ahead) (source : List (Except ε Terminal)) :
    lookahead (p.pending source) = ahead.getD .endOfInput := by
  cases ahead with
  | none => simp only [Parser.pending, h, lookahead, Option.getD_none]
  | some t => simp only [Parser.pending, h, lookahead, Option.getD_some]

/-- How a call ends with a stack that spells a form, once the lookahead is known. -/
inductive Ends (a : Automaton) (position : Nat) (form : List Symbol) :
    Option Terminal → Except (ParseError ε) (Event RuleId) →
      Parser StateId Terminal Nonterminal → Prop
  /-- The form ends with the right side of a rule, which is replaced by its left side. -/
  | reduce {r : RuleId} {form' : List Symbol} {ahead : Option Terminal}
    {p : Parser StateId Terminal Nonterminal}
    (step : a.grammar.Reduction (ahead.getD .endOfInput) r form form')
    (spells : a.Spells p.stack form') (reading : p.accepted = false) :
    Ends a position form ahead (.ok (.reduce r)) p
  /-- Only the start symbol is left, and the input is over. -/
  | accept {p : Parser StateId Terminal Nonterminal} (e : form = [.nonterminal a.grammar.start])
    (accepted : p.accepted = true) : Ends a position form none (.ok .accept) p
  /-- No item allows the lookahead, or the end of the input was given as a token. -/
  | reject {ahead : Option Terminal} {p : Parser StateId Terminal Nonterminal}
    (no : ∀ act, a.Claims (.along a.grammar form) (.terminal (ahead.getD .endOfInput)) act →
      act = .accept ∧ ahead ≠ none)
    (spells : a.Spells p.stack form) (reading : p.accepted = false) :
    Ends a position form ahead (.error (.rejected position)) p

/-- What a call does with a stack that spells a form and with what is left to read. -/
inductive Turns (a : Automaton) : Nat → List Symbol → List (Except ε Terminal) →
    Turn StateId Terminal Nonterminal RuleId ε → Prop
  | shift {position : Nat} {form : List Symbol} {t : Terminal} {pending : List (Except ε Terminal)}
    {turn : Turn StateId Terminal Nonterminal RuleId ε}
    (next : a.grammar.Viable (form ++ [.terminal t]))
    (rest : Turns a (position + 1) (form ++ [.terminal t]) pending turn) :
    Turns a position form (.ok t :: pending) turn
  | lexer {position : Nat} {form : List Symbol} {e : ε} {pending : List (Except ε Terminal)}
    {turn : Turn StateId Terminal Nonterminal RuleId ε}
    (result : turn.result = .error (.lexer e)) (spells : a.Spells turn.parser.stack form)
    (reading : turn.parser.accepted = false) (rest : turn.parser.pending turn.rest = pending) :
    Turns a position form (.error e :: pending) turn
  | ends {position : Nat} {form : List Symbol} {pending : List (Except ε Terminal)}
    {turn : Turn StateId Terminal Nonterminal RuleId ε} {ahead : Option Terminal}
    (known : turn.parser.lookahead = .known ahead) (rest : turn.parser.pending turn.rest = pending)
    (ends : Ends a position form ahead turn.result turn.parser) : Turns a position form pending turn

variable {p q q' : Parser StateId Terminal Nonterminal} {ahead : Option Terminal} {t : Terminal}
  {n : Nonterminal} {r : RuleId}

/-- A token that is shifted can be read along the form. -/
theorem Spells.shift (ha : a.Tabulates) (h : a.Spells stack form) (e : stack = top :: below)
    (action : a.table.action top.state (some t) = some (.shift target)) :
    a.grammar.Viable (form ++ [.terminal t]) ∧
      a.Spells (⟨.token t, target⟩ :: stack) (form ++ [.terminal t]) := by
  have claim := (h.action_iff ha e).1 (table_shift_iff.1 action)
  rcases claims_terminal_cases.1 claim with ⟨ne, j, place, same⟩ | ⟨i, _, _, _, same⟩
  · cases same
    refine ⟨Grammar.viable_concat_iff.2 ne, .push (x := .terminal t) h ?_⟩
    rw [ItemSet.along_concat]
    exact place
  · exact absurd same.symm Action.complete_ne_shift

/-- A rule that is reduced has a complete item on top of the stack. -/
theorem Spells.exists_complete (ha : a.Tabulates) (h : a.Spells stack form)
    (e : stack = top :: below) {size : Nat}
    (action : a.table.action top.state ahead = some (.reduce r n size)) :
    n = (a.grammar.rule r).left ∧ size = (a.grammar.rule r).right.size ∧ r ≠ .accept ∧
      ahead.getD .endOfInput ∈ (FirstFollow.ofGrammar a.grammar).follow (a.grammar.rule r).left ∧
      ∃ i ∈ ItemSet.along a.grammar form, i.isComplete a.grammar = true ∧ i.rule = r := by
  obtain ⟨cell, left, right⟩ := table_reduce_iff.1 action
  rcases claims_terminal_cases.1 ((h.action_iff ha e).1 cell) with
    ⟨_, _, _, same⟩ | ⟨i, hi, complete, follow, same⟩
  · cases same
  · obtain ⟨rfl, ne⟩ := Action.complete_eq_reduce_iff.1 same.symm
    exact ⟨left, right, ne, follow, i, hi, complete, rfl⟩

/-- Only the start symbol is on the stack when the input is accepted. -/
theorem Spells.eq_start (ha : a.Tabulates) (h : a.Spells stack form) (e : stack = top :: below)
    (action : a.table.action top.state ahead = some .accept) :
    form = [.nonterminal a.grammar.start] := by
  have claim := (h.action_iff ha e).1 (table_accept_iff.1 action)
  rcases claims_terminal_cases.1 claim with ⟨_, _, _, same⟩ | ⟨i, hi, complete, _, same⟩
  · cases same
  · exact ItemSet.eq_start_of_isComplete hi complete (Action.complete_eq_accept_iff.1 same.symm)

/-- The right side of a rule that is complete on top of the stack is there, and the state below has
a transition for the left side. -/
theorem Spells.replace (ha : a.Tabulates) (hs : a.Spells stack form)
    (hi : i ∈ ItemSet.along a.grammar form) (complete : i.isComplete a.grammar = true)
    (ne : i.rule ≠ .accept) :
    ∃ front exposed rest target, form = front ++ (a.grammar.rule i.rule).right.toList ∧
      stack.drop (a.grammar.rule i.rule).right.size = exposed :: rest ∧
      a.table.goto exposed.state (a.grammar.rule i.rule).left = some target ∧
      a.Spells (⟨.nonterminal (a.grammar.rule i.rule).left, target⟩ :: exposed :: rest)
        (front ++ [.nonterminal (a.grammar.rule i.rule).left]) := by
  obtain ⟨front, rfl, mem⟩ := ItemSet.exists_front_of_isComplete hi complete
  have below := hs.drop
  rw [Array.length_toList] at below
  obtain ⟨exposed, rest, e, state⟩ := below.exists_top ha
  have kernel := ItemSet.kernel_left_ne_nil mem ne (Item.size_le_of_isComplete complete)
  obtain ⟨target, place⟩ := ha.goto _ _ state _ kernel
  have cell := (ha.action_iff _ _ state _ _).2 (.enter kernel place)
  refine ⟨front, exposed, rest, target, rfl, e, table_goto_iff.2 cell, ?_⟩
  rw [e] at below
  refine .push (x := .nonterminal (a.grammar.rule i.rule).left) below ?_
  rw [ItemSet.along_concat]
  exact place

/-- A claim for the lookahead is an action of the table. -/
theorem Spells.exists_action (ha : a.Tabulates) (h : a.Spells stack form)
    (e : stack = top :: below)
    (claim : a.Claims (.along a.grammar form) (.terminal (ahead.getD .endOfInput)) act) :
    ∃ action, a.table.action top.state ahead = some action ∧
      parseAction a.grammar act = some action := by
  have cell := (h.action_iff ha e).2 claim
  have known : ∃ action, parseAction a.grammar act = some action := by
    rcases claims_terminal_cases.1 claim with ⟨_, j, _, rfl⟩ | ⟨i, _, _, _, rfl⟩
    · exact ⟨_, rfl⟩
    · rw [Action.complete]
      split <;> exact ⟨_, rfl⟩
  obtain ⟨action, same⟩ := known
  exact ⟨action, Option.bind_eq_some_iff.2 ⟨act, cell, same⟩, same⟩

/-- The move that ends a call, with a stack that spells a form. -/
theorem ends_of_effect (ha : a.Tabulates) (hs : a.Spells q.stack form)
    (reading : q.accepted = false) {result : Except (ParseError ε) (Event RuleId)}
    {popped : Option (List (Entry Terminal Nonterminal))}
    (h : Parser.Effect a.table q ahead (.ended result q' popped)) :
    a.Ends q.position form ahead result q' := by
  cases h with
  | reduce e action drop goto =>
    obtain ⟨rfl, rfl, ne, follow, i, hi, complete, rfl⟩ := hs.exists_complete ha e action
    obtain ⟨front, exposed, rest, target, rfl, drop', goto', spells⟩ :=
      hs.replace ha hi complete ne
    obtain ⟨rfl, rfl⟩ := List.cons.inj (drop'.symm.trans drop)
    obtain rfl := Option.some.inj (goto'.symm.trans goto)
    exact .reduce (.intro hi complete rfl ne follow) spells reading
  | accept e look action =>
    subst look
    exact .accept (hs.eq_start ha e action) rfl
  | rejected e action =>
    refine .reject (fun act claim ↦ ?_) hs reading
    obtain ⟨action', known, same⟩ := hs.exists_action ha e claim
    rcases action with none | ⟨token, accept⟩
    · cases none.symm.trans known
    · obtain rfl := Option.some.inj (accept.symm.trans known)
      exact ⟨parseAction_eq_accept_iff.1 same, token⟩
  | unexpectedEnd e look action =>
    subst look
    have claim := (hs.action_iff ha e).1 (table_shift_iff.1 action)
    rcases claims_terminal_cases.1 claim with ⟨ne, _⟩ | ⟨_, _, _, _, same⟩
    · exact absurd rfl (ne_endOfInput_of_kernel ne)
    · exact absurd same.symm Action.complete_ne_shift
  | emptyStack empty =>
    rcases empty with empty | ⟨top, below, rule, left, size, e, action, drop⟩
    · obtain ⟨top, below, e, _⟩ := hs.exists_top ha
      cases e.symm.trans empty
    · obtain ⟨rfl, rfl, ne, _, i, hi, complete, rfl⟩ := hs.exists_complete ha e action
      obtain ⟨_, _, _, _, _, drop', _⟩ := hs.replace ha hi complete ne
      cases drop'.symm.trans drop
  | missingGoto e action drop goto =>
    obtain ⟨rfl, rfl, ne, _, i, hi, complete, rfl⟩ := hs.exists_complete ha e action
    obtain ⟨_, _, _, _, _, drop', goto', _⟩ := hs.replace ha hi complete ne
    obtain ⟨rfl, rfl⟩ := List.cons.inj (drop'.symm.trans drop)
    cases goto'.symm.trans goto

theorem turns_of_shifts (ha : a.Tabulates) (hs : a.Spells p.stack form)
    (reading : p.accepted = false) {pending pending' : List (Except ε Terminal)}
    {turn : Turn StateId Terminal Nonterminal RuleId ε}
    (shifts : Parser.Shifts a.table p pending q pending')
    (stops : Parser.Stops a.table q pending' turn) : a.Turns p.position form pending turn := by
  induction shifts generalizing form with
  | refl =>
    cases stops with
    | lexer unread => exact .lexer rfl hs reading (Parser.pending_of_unread unread)
    | ended effect left =>
      refine .ends effect.lookahead ?_ (ends_of_effect ha hs reading effect)
      exact (Parser.pending_of_known effect.lookahead _).symm.trans left
  | head e action _ ih =>
    obtain ⟨next, spells⟩ := hs.shift ha e action
    exact .shift next (ih spells reading stops)

/-- A call of a parser whose stack spells a form. -/
theorem next_turns (ha : a.Tabulates) (hs : a.Spells p.stack form) (reading : p.accepted = false)
    (source : List (Except ε Terminal)) :
    a.Turns p.position form (p.pending source) (p.next a.table source) := by
  obtain ⟨q, pending, shifts, stops⟩ := Parser.next_cases (t := a.table) reading source
  exact turns_of_shifts ha hs reading shifts stops

/-! ## What calls report -/

variable {position : Nat} {pending : List (Except ε Terminal)}
  {turn : Turn StateId Terminal Nonterminal RuleId ε}

/-- A call that reports a rule has shifted some tokens and then reduced the rule. -/
theorem Turns.of_reduce (h : a.Turns position form pending turn)
    (result : turn.result = .ok (.reduce r)) :
    ∃ (v : List Terminal) (form' : List Symbol),
      pending = v.map .ok ++ turn.parser.pending turn.rest ∧
      a.grammar.Reduction (lookahead (turn.parser.pending turn.rest)) r
        (form ++ v.map .terminal) form' ∧
      a.Spells turn.parser.stack form' ∧ turn.parser.accepted = false := by
  induction h with
  | @shift _ form t _ _ _ _ ih =>
    obtain ⟨v, form', rfl, step, spells⟩ := ih result
    refine ⟨t :: v, form', rfl, ?_, spells⟩
    rwa [List.append_assoc] at step
  | lexer result' => cases result.symm.trans result'
  | ends known rest ends =>
    rw [result] at ends
    cases ends with
    | reduce step spells reading =>
      refine ⟨[], _, rest.symm, ?_, spells, reading⟩
      rw [lookahead_of_known known, List.map_nil, List.append_nil]
      exact step

/-- A call that accepts has shifted all tokens, and only the start symbol is left. -/
theorem Turns.of_accept (h : a.Turns position form pending turn)
    (result : turn.result = .ok .accept) :
    ∃ v : List Terminal, pending = v.map .ok ∧
      form ++ v.map .terminal = [.nonterminal a.grammar.start] := by
  induction h with
  | @shift _ form t _ _ _ _ ih =>
    obtain ⟨v, rfl, e⟩ := ih result
    exact ⟨t :: v, rfl, by rw [← e]; simp⟩
  | lexer result' => cases result.symm.trans result'
  | ends known rest ends =>
    rw [result] at ends
    cases ends with
    | accept e =>
      rw [Parser.pending, known] at rest
      exact ⟨[], rest.symm, by simpa using e⟩

theorem Ends.exists_spells {ahead : Option Terminal} {result : Except (ParseError ε) (Event RuleId)}
    (h : a.Ends position form ahead result p) (reading : p.accepted = false) :
    ∃ form', a.Spells p.stack form' := by
  cases h with
  | reduce _ spells => exact ⟨_, spells⟩
  | accept _ accepted => cases reading.symm.trans accepted
  | reject _ spells => exact ⟨_, spells⟩

/-- A call that does not accept leaves a stack that spells a form. -/
theorem Turns.exists_spells (h : a.Turns position form pending turn)
    (reading : turn.parser.accepted = false) : ∃ form', a.Spells turn.parser.stack form' := by
  induction h with
  | shift _ _ ih => exact ih reading
  | lexer _ spells => exact ⟨_, spells⟩
  | ends _ _ ends => exact ends.exists_spells reading

/-- A call fails only because of the source or because of the tokens. -/
theorem Turns.error_cases {e : ParseError ε} (h : a.Turns position form pending turn)
    (result : turn.result = .error e) : (∃ l, e = .lexer l) ∨ ∃ n, e = .rejected n := by
  induction h with
  | shift _ _ ih => exact ih result
  | lexer result' => exact .inl ⟨_, Except.error.inj (result.symm.trans result')⟩
  | ends _ _ ends =>
    rw [result] at ends
    cases ends with
    | reject => exact .inr ⟨_, rfl⟩

theorem parse_eq_some_iff {events : Nat} {source : List (Except ε Terminal)}
    {result : Except (ParseError ε) Derivation} :
    a.parse events source = some result ↔ ∃ collected q rest,
      (Parser.start a.table).collect a.table events source [] = some (collected, q, rest) ∧
        collected.map Derivation.mk = result := by
  simp only [parse, Option.map_eq_some_iff, Prod.exists]

theorem parse_eq_error_iff {events : Nat} {source : List (Except ε Terminal)} {e : ParseError ε} :
    a.parse events source = some (.error e) ↔ ∃ q rest,
      (Parser.start a.table).collect a.table events source [] = some (.error e, q, rest) := by
  rw [parse_eq_some_iff]
  constructor
  · rintro ⟨collected, q, rest, collects, same⟩
    cases collected with
    | ok _ => cases same
    | error _ =>
      cases same
      exact ⟨q, rest, collects⟩
  · rintro ⟨q, rest, collects⟩
    exact ⟨_, q, rest, collects, rfl⟩

end Automaton

end SimpleLR

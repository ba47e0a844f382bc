import SimpleLR.Proofs.Parser.Move

/-!
# Calls of a parser

A call shifts tokens and then stops, at an error of the source or with a move that ends it
(`Parser.next_cases`). Nothing is assumed of the table. What a call does to the stack follows
(`Parser.next_stack`): only the tokens it shifted are put on, some entries are taken off and handed
out, and after a reduction the left side comes on top. A call that ends before some place of its
source does not depend on what comes from there on (`Parser.next_append`).
-/

namespace SimpleLR

variable {σ τ ν ρ ε : Type}

/-- The table has a reduction by the rule to that left side. -/
def ParseTable.Reduces (t : ParseTable σ τ ν ρ) (rule : ρ) (left : ν) : Prop :=
  ∃ state ahead size, t.action state ahead = some (.reduce rule left size)

namespace Parser

/-- What a move does with that ahead. -/
inductive Effect (t : ParseTable σ τ ν ρ) (p : Parser σ τ ν) (ahead : Option τ) :
    Move σ τ ν ρ ε → Prop
  | shift {top : Frame σ τ ν} {below : List (Frame σ τ ν)} {token : τ} {target : σ}
    (e : p.stack = top :: below) (look : ahead = some token)
    (action : t.action top.state ahead = some (.shift target)) :
    Effect t p ahead (.shifted (p.shift token target))
  | reduce {top exposed : Frame σ τ ν} {below rest : List (Frame σ τ ν)} {rule : ρ} {left : ν}
    {size : Nat} {target : σ} (e : p.stack = top :: below)
    (action : t.action top.state ahead = some (.reduce rule left size))
    (drop : p.stack.drop size = exposed :: rest) (goto : t.goto exposed.state left = some target) :
    Effect t p ahead (.ended (.ok (.reduce rule))
      { p.look ahead with stack := ⟨.nonterminal left, target⟩ :: exposed :: rest }
      (some ((p.stack.take size).reverse.map Frame.entry)))
  | accept {top : Frame σ τ ν} {below : List (Frame σ τ ν)} (e : p.stack = top :: below)
    (look : ahead = none) (action : t.action top.state ahead = some .accept) :
    Effect t p ahead (.ended (.ok .accept)
      { p.look ahead with stack := below, accepted := true } (some [top.entry]))
  | rejected {top : Frame σ τ ν} {below : List (Frame σ τ ν)} (e : p.stack = top :: below)
    (action : t.action top.state ahead = none ∨
      ahead ≠ none ∧ t.action top.state ahead = some .accept) :
    Effect t p ahead (.ended (.error (.rejected p.position)) (p.look ahead) none)
  | unexpectedEnd {top : Frame σ τ ν} {below : List (Frame σ τ ν)} {target : σ}
    (e : p.stack = top :: below) (look : ahead = none)
    (action : t.action top.state ahead = some (.shift target)) :
    Effect t p ahead (.ended (.error .unexpectedEnd) (p.look ahead) none)
  | emptyStack (empty : p.stack = [] ∨ ∃ top below rule left size, p.stack = top :: below ∧
      t.action top.state ahead = some (.reduce rule left size) ∧ p.stack.drop size = []) :
    Effect t p ahead (.ended (.error .emptyStack) (p.look ahead) none)
  /-- The right side has been taken off already. -/
  | missingGoto {top exposed : Frame σ τ ν} {below rest : List (Frame σ τ ν)} {rule : ρ} {left : ν}
    {size : Nat} (e : p.stack = top :: below)
    (action : t.action top.state ahead = some (.reduce rule left size))
    (drop : p.stack.drop size = exposed :: rest) (goto : t.goto exposed.state left = none) :
    Effect t p ahead (.ended (.error .missingGoto)
      { p.look ahead with stack := exposed :: rest }
      (some ((p.stack.take size).reverse.map Frame.entry)))

/-- Tokens are shifted one after another. -/
inductive Shifts (t : ParseTable σ τ ν ρ) :
    Parser σ τ ν → List (Except ε τ) → Parser σ τ ν → List (Except ε τ) → Prop
  | refl (p : Parser σ τ ν) (pending : List (Except ε τ)) : Shifts t p pending p pending
  | head {p q : Parser σ τ ν} {top : Frame σ τ ν} {below : List (Frame σ τ ν)} {token : τ}
    {target : σ} {pending pending' : List (Except ε τ)} (e : p.stack = top :: below)
    (action : t.action top.state (some token) = some (.shift target))
    (rest : Shifts t (p.shift token target) pending q pending') :
    Shifts t p (.ok token :: pending) q pending'

/-- How a call ends when no more tokens are shifted. -/
inductive Stops (t : ParseTable σ τ ν ρ) (q : Parser σ τ ν) :
    List (Except ε τ) → Turn σ τ ν ρ ε → Prop
  | lexer {e : ε} {rest : List (Except ε τ)} (unread : q.lookahead = .unread) :
    Stops t q (.error e :: rest) ⟨.error (.lexer e), q, rest, none⟩
  | ended {ahead : Option τ} {result : Except (ParseError ε) (Event ρ)} {q' : Parser σ τ ν}
    {popped : Option (List (Entry τ ν))} {pending rest : List (Except ε τ)}
    (effect : Effect t q ahead (.ended result q' popped))
    (left : (q.look ahead).pending rest = pending) : Stops t q pending ⟨result, q', rest, popped⟩

/-- What moving on comes to while nothing is known to be ahead. -/
inductive Drives (t : ParseTable σ τ ν ρ) :
    Parser σ τ ν → List (Except ε τ) → Turn σ τ ν ρ ε → Prop
  | exhausted {p q : Parser σ τ ν} {result : Except (ParseError ε) (Event ρ)}
    {popped : Option (List (Entry τ ν))} (effect : Effect t p none (.ended result q popped)) :
    Drives t p [] ⟨result, q, [], popped⟩
  | stopped {p q : Parser σ τ ν} {token : τ} {rest : List (Except ε τ)}
    {result : Except (ParseError ε) (Event ρ)} {popped : Option (List (Entry τ ν))}
    (effect : Effect t p (some token) (.ended result q popped)) :
    Drives t p (.ok token :: rest) ⟨result, q, rest, popped⟩
  | lexer (p : Parser σ τ ν) (e : ε) (rest : List (Except ε τ)) :
    Drives t p (.error e :: rest) ⟨.error (.lexer e), p, rest, none⟩
  | shift {p : Parser σ τ ν} {top : Frame σ τ ν} {below : List (Frame σ τ ν)} {token : τ}
    {target : σ} {rest : List (Except ε τ)} {turn : Turn σ τ ν ρ ε} (e : p.stack = top :: below)
    (action : t.action top.state (some token) = some (.shift target))
    (later : Drives t (p.shift token target) rest turn) : Drives t p (.ok token :: rest) turn

/-- What a call comes to: a move on what is known to be ahead, or moving on. -/
inductive Calls (t : ParseTable σ τ ν ρ) (p : Parser σ τ ν) (source : List (Except ε τ)) :
    Turn σ τ ν ρ ε → Prop
  | drive {turn : Turn σ τ ν ρ ε} (unread : p.lookahead = .unread)
    (drives : Drives t p source turn) : Calls t p source turn
  | shift {top : Frame σ τ ν} {below : List (Frame σ τ ν)} {token : τ} {target : σ}
    {turn : Turn σ τ ν ρ ε} (known : p.lookahead = .known (some token)) (e : p.stack = top :: below)
    (action : t.action top.state (some token) = some (.shift target))
    (drives : Drives t (p.shift token target) source turn) : Calls t p source turn
  | ended {q : Parser σ τ ν} {ahead : Option τ} {result : Except (ParseError ε) (Event ρ)}
    {popped : Option (List (Entry τ ν))} (known : p.lookahead = .known ahead)
    (effect : Effect t p ahead (.ended result q popped)) :
    Calls t p source ⟨result, q, source, popped⟩

variable {t : ParseTable σ τ ν ρ} {p q : Parser σ τ ν} {ahead : Option τ}
  {pending pending' source : List (Except ε τ)} {turn : Turn σ τ ν ρ ε}

/-- At the end of the input nothing is shifted. -/
theorem Effect.ahead_ne_none (h : Effect (ε := ε) t p ahead (.shifted q)) : ahead ≠ none := by
  cases h with
  | shift _ look _ => simp [look]

theorem move_effect (t : ParseTable σ τ ν ρ) (p : Parser σ τ ν) (ahead : Option τ) :
    Effect (ε := ε) t p ahead (p.move t ahead) := by
  cases e : p.stack with
  | nil =>
    rw [move_of_nil e]
    exact .emptyStack (.inl e)
  | cons top below =>
    cases action : t.action top.state ahead with
    | none =>
      rw [move_of_none e action]
      exact .rejected e (.inl action)
    | some act =>
      cases act with
      | shift target =>
        cases ahead with
        | none =>
          rw [move_of_shift_none e action]
          exact .unexpectedEnd e rfl action
        | some token =>
          rw [move_of_shift e action]
          exact .shift e rfl action
      | reduce rule left size =>
        rw [move_of_reduce e action]
        cases drop : p.stack.drop size with
        | nil =>
          rw [reduce_of_nil (p := p.look ahead) drop]
          exact .emptyStack (.inr ⟨_, _, _, _, _, e, action, drop⟩)
        | cons exposed rest =>
          cases goto : t.goto exposed.state left with
          | none =>
            rw [reduce_of_no_goto (p := p.look ahead) drop goto]
            exact .missingGoto e action drop goto
          | some target =>
            rw [reduce_of_goto (p := p.look ahead) drop goto]
            exact .reduce e action drop goto
      | accept =>
        cases ahead with
        | none =>
          rw [move_of_accept e action]
          exact .accept e rfl action
        | some token =>
          rw [move_of_accept_token e action]
          exact .rejected e (.inr ⟨Option.some_ne_none token, action⟩)

/-- There is one effect of a move only. -/
theorem Effect.move_eq {move : Move σ τ ν ρ ε} (h : Effect t p ahead move) :
    p.move t ahead = move := by
  cases h with
  | shift e look action =>
    subst look
    exact move_of_shift e action
  | reduce e action drop goto =>
    rw [move_of_reduce e action]
    exact reduce_of_goto (p := p.look ahead) drop goto
  | accept e look action =>
    subst look
    exact move_of_accept e action
  | rejected e action =>
    rcases action with action | ⟨token, action⟩
    · exact move_of_none e action
    · obtain ⟨_, rfl⟩ := Option.ne_none_iff_exists'.1 token
      exact move_of_accept_token e action
  | unexpectedEnd e look action =>
    subst look
    exact move_of_shift_none e action
  | emptyStack empty =>
    rcases empty with e | ⟨top, below, rule, left, size, e, action, drop⟩
    · exact move_of_nil e
    · rw [move_of_reduce e action]
      exact reduce_of_nil (p := p.look ahead) drop
  | missingGoto e action drop goto =>
    rw [move_of_reduce e action]
    exact reduce_of_no_goto (p := p.look ahead) drop goto

/-! ## A whole call -/

theorem drive_drives (t : ParseTable σ τ ν ρ) (p : Parser σ τ ν) (source : List (Except ε τ)) :
    Drives t p source (p.drive t source) := by
  induction source generalizing p with
  | nil =>
    rw [drive]
    have effect := move_effect (ε := ε) t p none
    generalize p.move (ε := ε) t none = move at effect
    cases move with
    | shifted q => exact absurd rfl effect.ahead_ne_none
    | ended => exact .exhausted effect
  | cons answer rest ih =>
    cases answer with
    | error e => exact .lexer p e rest
    | ok token =>
      rw [drive]
      have effect := move_effect (ε := ε) t p (some token)
      generalize p.move (ε := ε) t (some token) = move at effect
      cases move with
      | shifted q =>
        cases effect with
        | shift e look action =>
          cases look
          exact .shift e action (ih _)
      | ended => exact .stopped effect

theorem next_calls (reading : p.accepted = false) (source : List (Except ε τ)) :
    Calls t p source (p.next t source) := by
  rw [next, if_neg (by simp [reading])]
  cases known : p.lookahead with
  | unread => exact .drive known (drive_drives t p source)
  | known ahead =>
    dsimp only
    have effect := move_effect (ε := ε) t p ahead
    generalize p.move (ε := ε) t ahead = move at effect ⊢
    cases move with
    | shifted q =>
      cases effect with
      | shift e look action =>
        subst look
        exact .shift known e action (drive_drives t _ source)
    | ended => exact .ended known effect

theorem Drives.cases (h : Drives t p source turn) (unread : p.lookahead = .unread) :
    ∃ q pending, Shifts t p source q pending ∧ Stops t q pending turn := by
  induction h with
  | @exhausted p _ _ _ effect => exact ⟨p, [], .refl p [], .ended effect rfl⟩
  | @stopped p _ _ _ _ _ effect => exact ⟨p, _, .refl p _, .ended effect rfl⟩
  | lexer p => exact ⟨p, _, .refl p _, .lexer unread⟩
  | shift e action _ ih =>
    obtain ⟨q, pending, shifts, stops⟩ := ih rfl
    exact ⟨q, pending, .head e action shifts, stops⟩

/-- A call of a parser that has not accepted: tokens are shifted, and then it stops. -/
theorem next_cases (reading : p.accepted = false) (source : List (Except ε τ)) :
    ∃ q pending, Shifts t p (p.pending source) q pending ∧ Stops t q pending (p.next t source) := by
  have calls := next_calls (t := t) reading source
  generalize p.next t source = turn at calls ⊢
  cases calls with
  | drive unread drives =>
    rw [pending_of_unread unread]
    exact drives.cases unread
  | shift known e action drives =>
    obtain ⟨q, pending, shifts, stops⟩ := drives.cases rfl
    refine ⟨q, pending, ?_, stops⟩
    rw [Parser.pending, known]
    exact .head e action shifts
  | ended known effect => exact ⟨p, _, .refl p _, .ended effect (by rw [look, ← known])⟩

/-! ## The stack -/

/-- The frame that a call leaves on top for what it reports: that of the left side of a rule. -/
def Pushes (t : ParseTable σ τ ν ρ) (result : Except (ParseError ε) (Event ρ))
    (pushed : List (Frame σ τ ν)) : Prop :=
  (∃ rule left target, result = .ok (.reduce rule) ∧ t.Reduces rule left ∧
    pushed = [⟨.nonterminal left, target⟩]) ∨
  (∀ rule, result ≠ .ok (.reduce rule)) ∧ pushed = []

theorem Pushes.of_reduce {rule : ρ} {pushed : List (Frame σ τ ν)}
    (h : Pushes (ε := ε) t (.ok (.reduce rule)) pushed) :
    ∃ left target, t.Reduces rule left ∧ pushed = [⟨.nonterminal left, target⟩] := by
  rcases h with ⟨_, left, target, result, reduces, rfl⟩ | ⟨other, _⟩
  · cases result
    exact ⟨left, target, reduces, rfl⟩
  · exact absurd rfl (other rule)

theorem Pushes.eq_nil {result : Except (ParseError ε) (Event ρ)} {pushed : List (Frame σ τ ν)}
    (h : Pushes t result pushed) (other : ∀ rule, result ≠ .ok (.reduce rule)) : pushed = [] := by
  rcases h with ⟨rule, _, _, reported, _⟩ | ⟨_, rfl⟩
  · exact absurd reported (other rule)
  · rfl

/-- Frames are taken off the stack, and their entries are handed out, the lowest first. -/
def HandsOut (stack below : List (Frame σ τ ν)) (popped : Option (List (Entry τ ν))) : Prop :=
  ∃ frames, stack = frames ++ below ∧ popped.getD [] = frames.reverse.map Frame.entry

theorem handsOut_none (stack : List (Frame σ τ ν)) : HandsOut stack stack none := ⟨[], rfl, rfl⟩

theorem handsOut_take {stack below : List (Frame σ τ ν)} {size : Nat}
    (drop : stack.drop size = below) :
    HandsOut stack below (some ((stack.take size).reverse.map Frame.entry)) :=
  ⟨stack.take size, by rw [← drop, List.take_append_drop], rfl⟩

/-- The move that ends a call takes frames off the stack, and puts a left side on. -/
theorem Effect.stack {result : Except (ParseError ε) (Event ρ)} {q' : Parser σ τ ν}
    {popped : Option (List (Entry τ ν))} (h : Effect t q ahead (.ended result q' popped)) :
    q'.position = q.position ∧ ∃ pushed below, q'.stack = pushed ++ below ∧
      Pushes t result pushed ∧ HandsOut q.stack below popped := by
  cases h with
  | reduce e action drop goto =>
    exact ⟨rfl, [_], _, rfl, .inl ⟨_, _, _, rfl, ⟨_, _, _, action⟩, rfl⟩, handsOut_take drop⟩
  | accept e => exact ⟨rfl, [], _, rfl, .inr ⟨by simp, rfl⟩, [_], e, rfl⟩
  | rejected => exact ⟨rfl, [], _, rfl, .inr ⟨by simp, rfl⟩, handsOut_none _⟩
  | unexpectedEnd => exact ⟨rfl, [], _, rfl, .inr ⟨by simp, rfl⟩, handsOut_none _⟩
  | emptyStack => exact ⟨rfl, [], _, rfl, .inr ⟨by simp, rfl⟩, handsOut_none _⟩
  | missingGoto _ _ drop => exact ⟨rfl, [], _, rfl, .inr ⟨by simp, rfl⟩, handsOut_take drop⟩

/-- Shifting puts tokens on the stack. -/
theorem Shifts.stack (h : Shifts t p pending q pending') :
    ∃ v : List τ, pending = v.map .ok ++ pending' ∧ q.position = p.position + v.length ∧
      ∃ shifted, q.stack = shifted ++ p.stack ∧
        shifted.map Frame.entry = (v.map Entry.token).reverse := by
  induction h with
  | refl => exact ⟨[], rfl, rfl, [], rfl, rfl⟩
  | @head p q top below token target pending pending' _ _ _ ih =>
    obtain ⟨v, rfl, position, shifted, stack, entries⟩ := ih
    refine ⟨token :: v, rfl, ?_, shifted ++ [⟨.token token, target⟩], ?_, ?_⟩
    · rw [position]
      exact Nat.succ_add_eq_add_succ ..
    · rw [stack, shift, List.append_assoc]
      rfl
    · rw [List.map_append, entries]
      simp

theorem Stops.stack (h : Stops t q pending turn) :
    turn.parser.position = q.position ∧ ∃ pushed below, turn.parser.stack = pushed ++ below ∧
      Pushes t turn.result pushed ∧ HandsOut q.stack below turn.popped := by
  cases h with
  | lexer => exact ⟨rfl, [], _, rfl, .inr ⟨by simp, rfl⟩, handsOut_none _⟩
  | ended effect => exact effect.stack

/-- What a call does to the stack: the tokens that it shifts are put on, what it hands out is taken
off, and the left side of a rule that it reports is put on. -/
theorem next_stack (reading : p.accepted = false) (source : List (Except ε τ)) :
    ∃ (v : List τ) (shifted pushed below : List (Frame σ τ ν)),
      (p.next t source).parser.position = p.position + v.length ∧
      shifted.map Frame.entry = (v.map Entry.token).reverse ∧
      (p.next t source).parser.stack = pushed ++ below ∧
      Pushes t (p.next t source).result pushed ∧
      HandsOut (shifted ++ p.stack) below (p.next t source).popped := by
  obtain ⟨q, pending, shifts, stops⟩ := next_cases (t := t) reading source
  obtain ⟨v, _, position, shifted, stack, entries⟩ := shifts.stack
  obtain ⟨position', pushed, below, stack', pushes, handsOut⟩ := stops.stack
  rw [stack] at handsOut
  exact ⟨v, shifted, pushed, below, position'.trans position, entries, stack', pushes, handsOut⟩

/-! ## What is left to read -/

theorem Effect.lookahead {result : Except (ParseError ε) (Event ρ)} {q' : Parser σ τ ν}
    {popped : Option (List (Entry τ ν))} (h : Effect t q ahead (.ended result q' popped)) :
    q'.lookahead = .known ahead := by
  cases h <;> rfl

theorem pending_of_known (h : p.lookahead = .known ahead) (source : List (Except ε τ)) :
    (q.look ahead).pending source = p.pending source := by
  rw [pending, pending, h, look]

/-- A call that does not stop at an error of the source reads the tokens that it shifts. -/
theorem Stops.reads (h : Stops t q pending turn) :
    (∃ e, turn.result = .error (.lexer e)) ∨ turn.parser.pending turn.rest = pending := by
  cases h with
  | lexer => exact .inl ⟨_, rfl⟩
  | ended effect left => exact .inr ((pending_of_known effect.lookahead _).symm.trans left)

theorem position_le_next (t : ParseTable σ τ ν ρ) (p : Parser σ τ ν) (source : List (Except ε τ)) :
    p.position ≤ (p.next t source).parser.position := by
  cases reading : p.accepted with
  | true =>
    exact Nat.le_of_eq (by rw [next_of_accepted reading])
  | false =>
    obtain ⟨v, _, _, _, position, _⟩ := next_stack (t := t) reading source
    rw [position]
    exact Nat.le_add_right ..

/-- Every token that is read is shifted. -/
theorem position_add_pending (h : ∀ e, (p.next t source).result ≠ .error (.lexer e)) :
    (p.next t source).parser.position +
        ((p.next t source).parser.pending (p.next t source).rest).length =
      p.position + (p.pending source).length := by
  cases reading : p.accepted with
  | true => rw [next_of_accepted reading]
  | false =>
    obtain ⟨q, pending, shifts, stops⟩ := next_cases (t := t) reading source
    obtain ⟨v, before, position, _⟩ := shifts.stack
    rcases stops.reads with ⟨e, result⟩ | after
    · exact absurd result (h e)
    · rw [before, after, stops.stack.1, position, List.length_append, List.length_map]
      omega

/-- A rejection names the place that has been reached. -/
theorem position_of_rejected {n : Nat} (h : (p.next t source).result = .error (.rejected n)) :
    (p.next t source).parser.position = n := by
  cases reading : p.accepted with
  | true =>
    rw [next_of_accepted reading] at h
    cases h
  | false =>
    obtain ⟨q, pending, _, stops⟩ := next_cases (t := t) reading source
    generalize p.next t source = turn at stops h
    cases stops with
    | lexer => cases h
    | ended effect =>
      cases h
      cases effect with
      | rejected => rfl

/-! ## What a call does not look at -/

variable {c s : List (Except ε τ)}

theorem drive_append (unread : p.lookahead = .unread)
    (h : (p.drive t (c ++ s)).parser.position < p.position + c.length) :
    ∃ r, ∀ s', p.drive t (c ++ s') = { p.drive t (c ++ s) with rest := r ++ s' } := by
  induction c generalizing p with
  | nil =>
    obtain ⟨q, pending, shifts, stops⟩ := (drive_drives t p s).cases unread
    obtain ⟨v, _, position, _⟩ := shifts.stack
    rw [List.nil_append, stops.stack.1, position, List.length_nil] at h
    omega
  | cons token c ih =>
    cases token with
    | error e => exact ⟨c, fun _ ↦ rfl⟩
    | ok token =>
      simp only [List.cons_append, drive] at h ⊢
      have effect := move_effect (ε := ε) t p (some token)
      generalize p.move (ε := ε) t (some token) = move at effect h ⊢
      cases move with
      | ended => exact ⟨c, fun _ ↦ rfl⟩
      | shifted q =>
        cases effect with
        | shift =>
          refine ih rfl (Nat.lt_of_lt_of_eq h ?_)
          exact (Nat.succ_add_eq_add_succ ..).symm

/-- A call that ends before some place of what is left to read does not depend on what comes from
there on. -/
theorem next_append
    (h : (p.next t (c ++ s)).parser.position < p.position + (p.pending c).length) :
    ∃ r, ∀ s', p.next t (c ++ s') = { p.next t (c ++ s) with rest := r ++ s' } := by
  cases reading : p.accepted with
  | true =>
    refine ⟨c, fun s' ↦ ?_⟩
    rw [next_of_accepted reading, next_of_accepted reading]
  | false =>
    simp only [next, reading] at h ⊢
    cases known : p.lookahead with
    | unread =>
      simp only [known, pending] at h ⊢
      exact drive_append known h
    | known ahead =>
      simp only [known, pending] at h ⊢
      have effect := move_effect (ε := ε) t p ahead
      generalize p.move (ε := ε) t ahead = move at effect h ⊢
      cases move with
      | ended => exact ⟨c, fun _ ↦ rfl⟩
      | shifted q =>
        cases effect with
        | shift _ look =>
          subst look
          refine drive_append rfl (Nat.lt_of_lt_of_eq h ?_)
          exact (Nat.succ_add_eq_add_succ ..).symm

/-! ## Collecting up to a rejection -/

variable {events n : Nat} {done : List ρ} {rest : List (Except ε τ)}

theorem position_le_of_rejected
    (run : p.collect t events source done = some (.error (.rejected n), q, rest)) :
    p.position ≤ n := by
  induction events generalizing p source done with
  | zero => cases run
  | succ events ih =>
    have le := position_le_next t p source
    rcases collect_cases run with ⟨e, result, same⟩ | ⟨_, same⟩ | ⟨rule, _, run⟩
    · cases same
      exact Nat.le_trans le (Nat.le_of_eq (position_of_rejected result))
    · cases same
    · exact Nat.le_trans le (ih run)

/-- A rejection does not depend on what comes after the token at which it happens. -/
theorem collect_append_of_rejected
    (run : p.collect t events (c ++ s) done = some (.error (.rejected n), q, rest))
    (lt : n < p.position + (p.pending c).length) (s' : List (Except ε τ)) :
    ∃ rest', p.collect t events (c ++ s') done = some (.error (.rejected n), q, rest') := by
  induction events generalizing p c done with
  | zero => cases run
  | succ events ih =>
    rcases collect_cases run with ⟨e, result, same⟩ | ⟨_, same⟩ | ⟨rule, result, run⟩
    · cases same
      rw [← position_of_rejected result] at lt
      obtain ⟨r, same⟩ := next_append lt
      rw [collect_of_error (e := .rejected n) (by rw [same s', result]), same s']
      exact ⟨_, rfl⟩
    · cases same
    · obtain ⟨r, same⟩ := next_append (Nat.lt_of_le_of_lt (position_le_of_rejected run) lt)
      have left : (p.next t (c ++ s)).rest = r ++ s := congrArg Turn.rest (same s)
      -- the same call without what comes after `c`
      have alone := same []
      rw [List.append_nil] at alone
      have result' : (p.next t c).result = .ok (.reduce rule) := by rw [alone, result]
      have count := position_add_pending (by rw [result']; simp)
      rw [alone, List.append_nil] at count
      dsimp only at count
      rw [left] at run
      have step : (p.next t (c ++ s')).result = .ok (.reduce rule) := by rw [same s', result]
      rw [collect_of_reduce step, same s']
      exact ih run (by dsimp only; omega)

end Parser

end SimpleLR

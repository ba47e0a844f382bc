import Mathlib.Data.List.Forall2
import SimpleLR.Proofs.Parser.Call

/-!
# The trees of a stack

Each entry of a stack has a tree: a token is a leaf, and the left side of a rule that a call reports
is a node above the trees of the entries that the call hands out (`Parser.grow`). For every table,
the leaves of the trees, from the bottom of the stack to its top, and the token ahead are the tokens
that the sources have given (`Parser.tokens_conserved`), up to the first call that finds no state to
enter. Once a source has ended or the input has been accepted, no source is asked any more.

A source is asked where the parser looks into it (`Parser.answers`).
-/

namespace SimpleLR

variable {σ τ ν ρ ε : Type}

/-! ## Trees -/

/-- What the entry of a stack stands for. -/
inductive Tree (τ : Type) where
  /-- Nothing: the entry below all others. -/
  | empty
  /-- A token that was shifted. -/
  | leaf (token : τ)
  /-- The left side of a rule, above what its right side stands for. -/
  | node (children : List (Tree τ))

namespace Tree

mutual

/-- The tokens at the leaves of a tree, from left to right. -/
def leaves : Tree τ → List τ
  | .empty => []
  | .leaf token => [token]
  | .node children => leavesAll children

/-- The tokens at the leaves of some trees. -/
def leavesAll : List (Tree τ) → List τ
  | [] => []
  | tree :: trees => tree.leaves ++ leavesAll trees

end

theorem leavesAll_append (front back : List (Tree τ)) :
    leavesAll (front ++ back) = leavesAll front ++ leavesAll back := by
  induction front with
  | nil => rfl
  | cons tree front ih => rw [List.cons_append, leavesAll, leavesAll, ih, List.append_assoc]

theorem leavesAll_map_leaf (v : List τ) : leavesAll (v.map leaf) = v := by
  induction v with
  | nil => rfl
  | cons token v ih =>
    rw [List.map_cons, leavesAll, ih]
    rfl

/-- The leaves of the trees of a stack, whose top comes first, from its bottom to its top. -/
def leavesUp (trees : List (Tree τ)) : List τ := leavesAll trees.reverse

theorem leavesUp_append (front back : List (Tree τ)) :
    leavesUp (front ++ back) = leavesUp back ++ leavesUp front := by
  rw [leavesUp, List.reverse_append, leavesAll_append]
  rfl

/-- A node has the leaves of the trees below it. -/
theorem leavesUp_node (trees : List (Tree τ)) (k : Nat) :
    leavesUp (.node (trees.take k).reverse :: trees.drop k) = leavesUp trees := by
  have split := congrArg leavesUp (List.take_append_drop k trees)
  rw [leavesUp_append] at split
  rw [← List.singleton_append, leavesUp_append, ← split]
  congr 1
  simp [leavesUp, leavesAll, leaves]

end Tree

/-- The tree of an entry that is new on a stack. -/
def Entry.seedling : Entry τ ν → Tree τ
  | .token t => .leaf t
  | _ => .empty

/-- An entry and its tree are of one kind. -/
inductive Entry.Grows : Entry τ ν → Tree τ → Prop
  | bottom : Grows .bottom .empty
  | token (token : τ) : Grows (.token token) (.leaf token)
  | nonterminal (left : ν) (children : List (Tree τ)) : Grows (.nonterminal left) (.node children)

/-! ## What calls read -/

/-- The tokens among the answers of a source. -/
def tokensOf (answers : List (Option (Except ε τ))) : List τ :=
  answers.filterMap fun
    | some (.ok token) => some token
    | _ => none

theorem tokensOf_append (a b : List (Option (Except ε τ))) :
    tokensOf (a ++ b) = tokensOf a ++ tokensOf b := List.filterMap_append ..

namespace Parser

/-- The token ahead, if one is known. -/
def ahead (p : Parser σ τ ν) : List τ :=
  match p.lookahead with
  | .known (some token) => [token]
  | _ => []

/-- The answers that a parser gets while it moves on, `none` for the end of the source. -/
def driveAnswers (t : ParseTable σ τ ν ρ) (p : Parser σ τ ν) :
    List (Except ε τ) → List (Option (Except ε τ))
  | [] => [none]
  | .error e :: _ => [some (.error e)]
  | .ok token :: rest =>
    some (.ok token) ::
      match p.move (ε := ε) t (some token) with
      | .shifted p => p.driveAnswers t rest
      | .ended .. => []

/-- The answers that a call gets from its source. -/
def answers (t : ParseTable σ τ ν ρ) (p : Parser σ τ ν) (source : List (Except ε τ)) :
    List (Option (Except ε τ)) :=
  if p.accepted then []
  else match p.lookahead with
    | .unread => p.driveAnswers t source
    | .known ahead =>
      match p.move (ε := ε) t ahead with
      | .shifted p => p.driveAnswers t source
      | .ended .. => []

/-- The entries on the stack before a call takes some off, the top first. -/
def entriesBefore (turn : Turn σ τ ν ρ ε) : List (Entry τ ν) :=
  (turn.popped.getD []).reverse ++
    match turn.result with
    | .ok (.reduce _) => turn.parser.stack.tail.map Frame.entry
    | _ => turn.parser.stack.map Frame.entry

/-- The trees after a call, the top first: leaves for the tokens that were put on the stack, and a
node above what was handed out if a rule is reported. What an acceptance hands out keeps its
place. -/
def grow (p : Parser σ τ ν) (turn : Turn σ τ ν ρ ε) (trees : List (Tree τ)) : List (Tree τ) :=
  let entries := entriesBefore turn
  let all := (entries.take (entries.length - p.stack.length)).map Entry.seedling ++ trees
  match turn.result with
  | .ok (.reduce _) =>
    let count := (turn.popped.getD []).length
    .node (all.take count).reverse :: all.drop count
  | _ => all

/-- The parsers that calls lead to up to the first one that finds no state to enter, each call with
a source of its own; the trees of their stacks, and the answers of the sources. -/
inductive Grown (t : ParseTable σ τ ν ρ) :
    Parser σ τ ν → List (Tree τ) → List (Option (Except ε τ)) → Prop
  | start : Grown t (.start t) [.empty] []
  | next {p : Parser σ τ ν} {trees : List (Tree τ)} {answers : List (Option (Except ε τ))}
    (before : Grown t p trees answers) (source : List (Except ε τ))
    (found : (p.next t source).result ≠ .error .missingGoto) :
    Grown t (p.next t source).parser (p.grow (p.next t source) trees)
      (answers ++ p.answers t source)

variable {t : ParseTable σ τ ν ρ} {p q : Parser σ τ ν} {ahead : Option τ}
  {source : List (Except ε τ)} {turn : Turn σ τ ν ρ ε} {v : List τ} {token : τ} {target : σ}
  {trees : List (Tree τ)} {log : List (Option (Except ε τ))}

/-- A call shifts some tokens, and takes off and puts on what its result says. -/
structure Builds (t : ParseTable σ τ ν ρ) (p : Parser σ τ ν) (v : List τ)
    (turn : Turn σ τ ν ρ ε) : Prop where
  position : turn.parser.position = p.position + v.length
  stack : ∃ shifted pushed below : List (Frame σ τ ν),
    shifted.map Frame.entry = (v.map Entry.token).reverse ∧ turn.parser.stack = pushed ++ below ∧
      Pushes t turn.result pushed ∧ HandsOut (shifted ++ p.stack) below turn.popped
  outcome : (∃ rule, turn.result = .ok (.reduce rule)) ∧ turn.parser.accepted = p.accepted ∨
    turn.result = .ok .accept ∧ turn.parser.accepted = true ∧ (turn.popped.getD []).length = 1 ∨
    turn.result = .error .missingGoto ∨
    (∃ e, turn.result = .error e) ∧ turn.parser.accepted = p.accepted ∧ turn.popped = none

/-- A call takes answers from the front of its source; the token that was ahead and those among the
answers are shifted, but for the token that is ahead at the end. -/
structure Reads (p : Parser σ τ ν) (source : List (Except ε τ))
    (answers : List (Option (Except ε τ))) (v : List τ) (turn : Turn σ τ ν ρ ε) : Prop where
  tokens : p.ahead ++ tokensOf answers = v ++ turn.parser.ahead
  source : ∃ taken, source = taken ++ turn.rest ∧
    (answers = taken.map some ∨ turn.rest = [] ∧ answers = taken.map some ++ [none])
  ended : none ∈ answers → turn.parser.lookahead = .known none

theorem Builds.of_effect {result : Except (ParseError ε) (Event ρ)} {q' : Parser σ τ ν}
    {popped : Option (List (Entry τ ν))} (h : Effect t q ahead (.ended result q' popped))
    (rest : List (Except ε τ)) : Builds t q [] ⟨result, q', rest, popped⟩ := by
  obtain ⟨position, pushed, below, stack, pushes, out⟩ := h.stack
  refine ⟨position, ⟨[], pushed, below, rfl, stack, pushes, out⟩, ?_⟩
  cases h with
  | reduce => exact .inl ⟨⟨_, rfl⟩, rfl⟩
  | accept => exact .inr (.inl ⟨rfl, rfl, rfl⟩)
  | missingGoto => exact .inr (.inr (.inl rfl))
  | rejected => exact .inr (.inr (.inr ⟨⟨_, rfl⟩, rfl, rfl⟩))
  | unexpectedEnd => exact .inr (.inr (.inr ⟨⟨_, rfl⟩, rfl, rfl⟩))
  | emptyStack => exact .inr (.inr (.inr ⟨⟨_, rfl⟩, rfl, rfl⟩))

theorem Builds.of_lexer (e : ε) (rest : List (Except ε τ)) :
    Builds t q [] ⟨.error (.lexer e), q, rest, none⟩ :=
  ⟨rfl, ⟨[], [], q.stack, rfl, rfl, .inr ⟨by simp, rfl⟩, handsOut_none _⟩,
    .inr (.inr (.inr ⟨⟨_, rfl⟩, rfl, rfl⟩))⟩

/-- A token that is shifted first is the first of those that a call shifts. -/
theorem Builds.shift (h : Builds t (p.shift token target) v turn) :
    Builds t p (token :: v) turn := by
  obtain ⟨shifted, pushed, below, entries, stack, pushes, out⟩ := h.stack
  refine ⟨?_, ⟨shifted ++ [⟨.token token, target⟩], pushed, below, ?_, stack, pushes, ?_⟩,
    h.outcome⟩
  · rw [h.position]
    exact Nat.succ_add_eq_add_succ ..
  · rw [List.map_append, entries]
    simp
  · rw [List.append_assoc]
    exact out

theorem ahead_of_known (h : p.lookahead = .known ahead) : p.ahead = ahead.toList := by
  rw [Parser.ahead, h]
  cases ahead <;> rfl

theorem ahead_of_unread (h : p.lookahead = .unread) : p.ahead = [] := by
  rw [Parser.ahead, h]

theorem Drives.builds (h : Drives t p source turn) (unread : p.lookahead = .unread) :
    ∃ v, Builds t p v turn ∧ Reads p source (p.driveAnswers t source) v turn := by
  induction h with
  | exhausted effect =>
    refine ⟨[], .of_effect effect [], ?_, ⟨[], rfl, .inr ⟨rfl, rfl⟩⟩, fun _ ↦ effect.lookahead⟩
    rw [ahead_of_unread unread, ahead_of_known effect.lookahead]
    rfl
  | @stopped _ _ token rest _ _ effect =>
    rw [driveAnswers, effect.move_eq]
    refine ⟨[], .of_effect effect rest, ?_, ⟨[.ok token], rfl, .inl rfl⟩, by simp⟩
    rw [ahead_of_unread unread, ahead_of_known effect.lookahead]
    rfl
  | lexer p e rest =>
    refine ⟨[], .of_lexer e rest, ?_, ⟨[.error e], rfl, .inl rfl⟩, by simp [driveAnswers]⟩
    rw [driveAnswers, ahead_of_unread unread]
    rfl
  | @shift p _ _ token _ _ _ e action _ ih =>
    obtain ⟨v, builds, tokens, ⟨taken, source, asked⟩, ended⟩ := ih rfl
    rw [driveAnswers, move_of_shift e action]
    refine ⟨token :: v, builds.shift, ?_, ⟨.ok token :: taken, ?_, ?_⟩, fun mem ↦ ?_⟩
    · rw [ahead_of_unread unread, List.cons_append, ← tokens, ahead_of_unread rfl]
      rfl
    · rw [List.cons_append, ← source]
    · rcases asked with asked | ⟨none_left, asked⟩
      · exact .inl (by simp only [asked]; rfl)
      · exact .inr ⟨none_left, by simp only [asked]; rfl⟩
    · exact ended (by simpa using mem)

/-- What a call of a parser that has not accepted reads and builds. -/
theorem next_builds (reading : p.accepted = false) (source : List (Except ε τ)) :
    ∃ v, Builds t p v (p.next t source) ∧
      Reads p source (p.answers t source) v (p.next t source) := by
  have calls := next_calls (t := t) reading source
  rw [answers, if_neg (by simp [reading])]
  generalize p.next t source = turn at calls ⊢
  cases calls with
  | drive unread drives =>
    rw [unread]
    exact drives.builds unread
  | @shift _ _ token _ _ known e action drives =>
    obtain ⟨v, builds, tokens, taken, ended⟩ := drives.builds rfl
    simp only [known, move_of_shift e action]
    refine ⟨token :: v, builds.shift, ?_, taken, ended⟩
    rw [ahead_of_known known, List.cons_append, ← tokens, ahead_of_unread rfl]
    rfl
  | ended known effect =>
    simp only [known, effect.move_eq]
    refine ⟨[], .of_effect effect source, ?_, ⟨[], rfl, .inl rfl⟩, by simp⟩
    rw [ahead_of_known known, ahead_of_known effect.lookahead]
    exact List.append_nil _

/-! ## What calls keep -/

/-- The trees of a stack hold what has been read. -/
structure Conserved (p : Parser σ τ ν) (trees : List (Tree τ))
    (log : List (Option (Except ε τ))) : Prop where
  /-- The first tree is that of the entry that the acceptance has handed out. -/
  grows : List.Forall₂ Entry.Grows (p.stack.map Frame.entry)
    (if p.accepted then trees.tail else trees)
  tokens : Tree.leavesUp trees ++ p.ahead = tokensOf log
  position : p.position = (Tree.leavesUp trees).length
  ended : none ∈ log → p.lookahead = .known none

theorem conserved_start (t : ParseTable σ τ ν ρ) : Conserved (ε := ε) (.start t) [.empty] [] where
  grows := .cons .bottom .nil
  tokens := rfl
  position := rfl
  ended := by simp

theorem entriesBefore_eq {stack pushed below : List (Frame σ τ ν)}
    (left : turn.parser.stack = pushed ++ below) (pushes : Pushes t turn.result pushed)
    (out : HandsOut stack below turn.popped) : entriesBefore turn = stack.map Frame.entry := by
  obtain ⟨frames, rfl, handed⟩ := out
  rw [entriesBefore, handed, List.map_append, List.map_reverse, List.reverse_reverse]
  congr 1
  rcases pushes with ⟨rule, lhs, target, result, _, rfl⟩ | ⟨other, rfl⟩
  · rw [result, left]
    rfl
  · split
    · next rule result => exact absurd result (other rule)
    · rw [left, List.nil_append]

/-- The trees of the stack when the tokens of a call have been put on it. -/
theorem fresh_append (builds : Builds t p v turn) (trees : List (Tree τ)) :
    ((entriesBefore turn).take ((entriesBefore turn).length - p.stack.length)).map
        Entry.seedling ++ trees =
      (v.map Tree.leaf).reverse ++ trees := by
  obtain ⟨shifted, pushed, below, entries, stack, pushes, out⟩ := builds.stack
  rw [entriesBefore_eq stack pushes out, List.map_append]
  congr 1
  have count : ((shifted.map Frame.entry) ++ p.stack.map Frame.entry).length - p.stack.length =
      (shifted.map Frame.entry).length := by simp
  rw [count, List.take_left, entries, List.map_reverse, List.map_map]
  rfl

theorem leavesUp_grow (builds : Builds t p v turn) (trees : List (Tree τ)) :
    Tree.leavesUp (p.grow turn trees) = Tree.leavesUp trees ++ v := by
  have all : Tree.leavesUp ((v.map Tree.leaf).reverse ++ trees) = Tree.leavesUp trees ++ v := by
    rw [Tree.leavesUp_append]
    congr 1
    rw [Tree.leavesUp, List.reverse_reverse, Tree.leavesAll_map_leaf]
  rw [← all, grow, fresh_append builds]
  dsimp only
  split
  · exact Tree.leavesUp_node ..
  · rfl

theorem grows_tokens (v : List τ) :
    List.Forall₂ Entry.Grows (v.map (Entry.token (ν := ν))) (v.map Tree.leaf) := by
  induction v with
  | nil => exact .nil
  | cons token v ih => exact .cons (.token token) ih

/-- The trees grow with the entries. -/
theorem grows_next (builds : Builds t p v turn) (reading : p.accepted = false)
    (grows : List.Forall₂ Entry.Grows (p.stack.map Frame.entry) trees)
    (found : turn.result ≠ .error .missingGoto) :
    List.Forall₂ Entry.Grows (turn.parser.stack.map Frame.entry)
      (if turn.parser.accepted then (p.grow turn trees).tail else p.grow turn trees) := by
  have all := fresh_append builds trees
  obtain ⟨shifted, pushed, below, entries, stack, pushes, frames, taken, handed⟩ := builds.stack
  have grown : List.Forall₂ Entry.Grows ((frames ++ below).map Frame.entry)
      ((v.map Tree.leaf).reverse ++ trees) := by
    rw [← taken, List.map_append, entries]
    exact List.rel_append (List.forall₂_reverse_iff.2 (grows_tokens v)) grows
  have count : (turn.popped.getD []).length = (frames.map Frame.entry).length := by
    rw [handed]
    simp
  have left := List.forall₂_drop (turn.popped.getD []).length grown
  rw [List.map_append] at left
  nth_rewrite 1 [count] at left
  rw [List.drop_left] at left
  rw [grow, all, stack]
  rcases builds.outcome with ⟨⟨rule, result⟩, accepted⟩ | ⟨result, accepted, one⟩ | result |
    ⟨⟨e, result⟩, accepted, none_handed⟩
  · rw [result] at pushes
    obtain ⟨lhs, target, _, rfl⟩ := pushes.of_reduce
    rw [accepted, reading, result]
    exact .cons (.nonterminal lhs _) left
  · obtain rfl := pushes.eq_nil (by simp [result])
    rw [one] at left
    rw [accepted, result]
    simpa using left
  · exact absurd result found
  · obtain rfl := pushes.eq_nil (by simp [result])
    rw [none_handed] at left
    rw [accepted, reading, result]
    exact left

/-- A parser that knows the end of the input asks no source. -/
theorem answers_of_ended (h : p.lookahead = .known none) (source : List (Except ε τ)) :
    p.answers t source = [] ∧ (p.next t source).parser.lookahead = .known none := by
  cases reading : p.accepted with
  | true =>
    rw [next_of_accepted reading]
    exact ⟨by rw [answers, if_pos reading], h⟩
  | false =>
    rw [next, answers, if_neg (by simp [reading]), if_neg (by simp [reading])]
    simp only [h]
    have effect := move_effect (ε := ε) t p none
    generalize p.move (ε := ε) t none = move at effect
    cases move with
    | shifted q => exact absurd rfl effect.ahead_ne_none
    | ended => exact ⟨rfl, effect.lookahead⟩

theorem Conserved.next (h : Conserved p trees log) (source : List (Except ε τ))
    (found : (p.next t source).result ≠ .error .missingGoto) :
    Conserved (p.next t source).parser (p.grow (p.next t source) trees)
      (log ++ p.answers t source) := by
  cases reading : p.accepted with
  | true =>
    have nothing : p.answers t source = [] := by rw [answers, if_pos reading]
    rw [next_of_accepted reading, nothing, List.append_nil]
    simpa [grow, entriesBefore] using h
  | false =>
    obtain ⟨v, builds, reads⟩ := next_builds (t := t) reading source
    have grows := h.grows
    rw [reading] at grows
    refine ⟨grows_next builds reading grows found, ?_, ?_, fun mem ↦ ?_⟩
    · rw [leavesUp_grow builds, List.append_assoc, ← reads.tokens, ← List.append_assoc, h.tokens,
        tokensOf_append]
    · rw [leavesUp_grow builds, builds.position, h.position, List.length_append]
    · rcases List.mem_append.1 mem with mem | mem
      · exact (answers_of_ended (h.ended mem) source).2
      · exact reads.ended mem

theorem Grown.conserved (h : Grown t p trees log) : Conserved p trees log := by
  induction h with
  | start => exact conserved_start t
  | next _ source found ih => exact ih.next source found

/-- A call takes its answers from the front of its source. -/
theorem exists_taken (t : ParseTable σ τ ν ρ) (p : Parser σ τ ν) (source : List (Except ε τ)) :
    ∃ taken, source = taken ++ (p.next t source).rest ∧
      (p.answers t source = taken.map some ∨
        (p.next t source).rest = [] ∧ p.answers t source = taken.map some ++ [none]) := by
  cases reading : p.accepted with
  | true =>
    rw [next_of_accepted reading]
    exact ⟨[], rfl, .inl (by rw [answers, if_pos reading]; rfl)⟩
  | false =>
    obtain ⟨_, _, reads⟩ := next_builds (t := t) reading source
    exact reads.source

/-- No token is lost, doubled or moved, whatever the table does: the leaves of the trees on the
stack and the token ahead are the tokens that the sources have given, and the position counts those
leaves. Once a source has ended or the input has been accepted, a call asks no source. -/
theorem tokens_conserved (h : Grown t p trees log) :
    List.Forall₂ Entry.Grows (p.stack.map Frame.entry)
        (if p.accepted then trees.tail else trees) ∧
    Tree.leavesUp trees ++ p.ahead = tokensOf log ∧
    p.position = (Tree.leavesUp trees).length ∧
    p.position ≤ (tokensOf log).length ∧ (tokensOf log).length ≤ p.position + 1 ∧
    ∀ source : List (Except ε τ),
      (∃ taken, source = taken ++ (p.next t source).rest ∧
        (p.answers t source = taken.map some ∨
          (p.next t source).rest = [] ∧ p.answers t source = taken.map some ++ [none])) ∧
      (none ∈ log ∨ p.accepted = true → p.answers t source = []) := by
  have conserved := h.conserved
  have count := congrArg List.length conserved.tokens
  have single : p.ahead.length ≤ 1 := by
    rw [ahead]
    split <;> simp
  rw [List.length_append, ← conserved.position] at count
  refine ⟨conserved.grows, conserved.tokens, conserved.position, by omega, by omega,
    fun source ↦ ⟨exists_taken t p source, ?_⟩⟩
  rintro (mem | accepted)
  · exact (answers_of_ended (conserved.ended mem) source).1
  · rw [answers, if_pos accepted]

end Parser

/-- The table of rule 1, `S -> A a`, and of rule 2, `A -> a`. -/
def ParseTable.twofold : ParseTable Nat Char Char Nat where
  initial := 0
  action
    | 0, some 'a' => some (.shift 3)
    | 1, none => some .accept
    | 2, some 'a' => some (.shift 4)
    | 3, some 'a' => some (.reduce 2 'A' 1)
    | 4, none => some (.reduce 1 'S' 2)
    | _, _ => none
  goto
    | 0, 'S' => some 1
    | 0, 'A' => some 2
    | _, _ => none

/-- After the first of three calls on `a a` the second token is ahead; after the last one both are
leaves of the accepted tree, and no source is asked again. -/
theorem Parser.tokens_conserved_twofold :
    (∃ p trees, Grown (ε := Empty) .twofold p trees [some (.ok 'a'), some (.ok 'a')] ∧
      p.position = 1 ∧ Tree.leavesUp trees ++ ['a'] = ['a', 'a']) ∧
    ∃ p trees, Grown (ε := Empty) .twofold p trees [some (.ok 'a'), some (.ok 'a'), none] ∧
      p.accepted = true ∧ Tree.leavesUp trees = ['a', 'a'] ∧
      ∀ source : List (Except Empty Char), p.answers .twofold source = [] := by
  have once := (Grown.start (ε := Empty) (t := .twofold)).next [.ok 'a', .ok 'a']
    (by decide +kernel)
  have twice := once.next [] (by decide +kernel)
  have thrice := twice.next [] (by decide +kernel)
  obtain ⟨_, tokens, _⟩ := tokens_conserved once
  obtain ⟨_, tokens', _, _, _, calls⟩ := tokens_conserved thrice
  refine ⟨⟨_, _, once, rfl, tokens⟩, _, _, thrice, rfl, ?_, fun source ↦ ?_⟩
  · exact (List.append_nil _).symm.trans tokens'
  · exact (calls source).2 (.inr rfl)

end SimpleLR

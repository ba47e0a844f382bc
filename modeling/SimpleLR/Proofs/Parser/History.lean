import Mathlib.Data.List.Forall2
import SimpleLR.Proofs.Parser.Call

/-!
# Where the entries of a stack stem from

The rules that calls have reported are numbered in order. An entry that came on the stack with a
report stems from it, all others from none (`Parser.History`). For every table, an entry that holds
a nonterminal stems from the report of a rule that the table reduces to that nonterminal
(`Parser.stems_of_recorded`), and this is so for the entries that a call hands out as well
(`Parser.handedOut_stems`).
-/

namespace SimpleLR

namespace Parser

variable {σ τ ν ρ ε : Type}

/-- What calls have reported so far. -/
structure History (ρ : Type) where
  /-- The rules, the earliest first. -/
  rules : List ρ
  /-- For each entry of the stack, the top first, the place of the report from which it stems. -/
  origins : List (Option Nat)

namespace History

/-- Nothing has been reported. -/
def start : History ρ := ⟨[], [none]⟩

/-- The origins once the tokens of a call are on the stack. -/
def shifted (h : History ρ) (p : Parser σ τ ν) (turn : Turn σ τ ν ρ ε) : List (Option Nat) :=
  .replicate (turn.parser.position - p.position) none ++ h.origins

/-- The origins of the entries that a call hands out, the lowest first. -/
def handedOut (h : History ρ) (p : Parser σ τ ν) (turn : Turn σ τ ν ρ ε) : List (Option Nat) :=
  ((h.shifted p turn).take (turn.popped.getD []).length).reverse

/-- The history after a call. -/
def after (h : History ρ) (p : Parser σ τ ν) (turn : Turn σ τ ν ρ ε) : History ρ :=
  let below := (h.shifted p turn).drop (turn.popped.getD []).length
  match turn.result with
  | .ok (.reduce rule) => ⟨h.rules ++ [rule], some h.rules.length :: below⟩
  | _ => ⟨h.rules, below⟩

end History

/-- The parsers that calls lead to, each call with a source of its own, and their histories. -/
inductive Recorded (ε : Type) (t : ParseTable σ τ ν ρ) : Parser σ τ ν → History ρ → Prop
  | start : Recorded ε t (.start t) .start
  | next {p : Parser σ τ ν} {h : History ρ} (before : Recorded ε t p h)
    (source : List (Except ε τ)) :
    Recorded ε t (p.next t source).parser (h.after p (p.next t source))

/-- An entry stems from the report of a rule that is reduced to its nonterminal, or it holds none
and stems from no report. -/
inductive Stems (t : ParseTable σ τ ν ρ) (rules : List ρ) : Entry τ ν → Option Nat → Prop
  | bottom : Stems t rules .bottom none
  | token (token : τ) : Stems t rules (.token token) none
  | nonterminal {left : ν} {m : Nat} {rule : ρ} (reported : rules[m]? = some rule)
    (reduces : t.Reduces rule left) : Stems t rules (.nonterminal left) (some m)

variable {t : ParseTable σ τ ν ρ} {p : Parser σ τ ν} {h : History ρ} {rules : List ρ}
  {stack below : List (Frame σ τ ν)} {popped : Option (List (Entry τ ν))}
  {origins : List (Option Nat)}

theorem Recorded.reached (h' : Recorded ε t p h) : Reached ε t p := by
  induction h' with
  | start => exact .start
  | next _ source ih => exact ih.next source

/-- Each entry of a stack stems from its origin. -/
abbrev StackStems (t : ParseTable σ τ ν ρ) (rules : List ρ) (stack : List (Frame σ τ ν))
    (origins : List (Option Nat)) : Prop :=
  List.Forall₂ (Stems t rules) (stack.map Frame.entry) origins

theorem StackStems.report (hs : StackStems t rules stack origins) (rule : ρ) :
    StackStems t (rules ++ [rule]) stack origins := by
  refine hs.imp fun entry origin stems ↦ ?_
  cases stems with
  | bottom => exact .bottom
  | token token => exact .token token
  | nonterminal reported reduces =>
    obtain ⟨lt, _⟩ := List.getElem?_eq_some_iff.1 reported
    exact .nonterminal (by rw [List.getElem?_append_left lt, reported]) reduces

/-- Tokens stem from no report. -/
theorem stems_tokens (t : ParseTable σ τ ν ρ) (rules : List ρ) (v : List τ) :
    List.Forall₂ (Stems t rules) (v.map Entry.token) (.replicate v.length none) := by
  induction v with
  | nil => exact .nil
  | cons token v ih => exact .cons (.token token) ih

/-- The entries that are handed out stem from the origins that are taken off with them. -/
theorem StackStems.handsOut (hs : StackStems t rules stack origins)
    (out : HandsOut stack below popped) :
    List.Forall₂ (Stems t rules) (popped.getD [])
        (origins.take (popped.getD []).length).reverse ∧
      StackStems t rules below (origins.drop (popped.getD []).length) := by
  obtain ⟨frames, rfl, out⟩ := out
  have length : (popped.getD []).length = (frames.map Frame.entry).length := by
    rw [out]
    simp
  have taken := List.forall₂_take (popped.getD []).length hs
  have left := List.forall₂_drop (popped.getD []).length hs
  rw [List.map_append, length] at taken left
  rw [List.take_left] at taken
  rw [List.drop_left] at left
  rw [length]
  refine ⟨?_, left⟩
  rw [out, List.map_reverse]
  exact List.forall₂_reverse_iff.2 taken

theorem StackStems.next (hs : StackStems t h.rules p.stack h.origins)
    (source : List (Except ε τ)) :
    List.Forall₂ (Stems t h.rules) ((p.next t source).popped.getD [])
        (h.handedOut p (p.next t source)) ∧
      StackStems t (h.after p (p.next t source)).rules (p.next t source).parser.stack
        (h.after p (p.next t source)).origins := by
  cases reading : p.accepted with
  | true =>
    rw [next_of_accepted reading]
    simpa [History.handedOut, History.after, History.shifted] using hs
  | false =>
    obtain ⟨v, shifted, pushed, below, position, tokens, stack, pushes, out⟩ :=
      next_stack (t := t) reading source
    generalize p.next t source = turn at *
    have all : StackStems t h.rules (shifted ++ p.stack) (h.shifted p turn) := by
      rw [StackStems, List.map_append, tokens, ← List.map_reverse, History.shifted, position,
        Nat.add_sub_cancel_left, ← List.length_reverse]
      exact List.rel_append (stems_tokens t h.rules v.reverse) hs
    obtain ⟨handed, left⟩ := all.handsOut out
    refine ⟨handed, ?_⟩
    rw [stack]
    rcases pushes with ⟨rule, lhs, target, result, reduces, rfl⟩ | ⟨other, rfl⟩
    · rw [History.after, result]
      exact .cons (.nonterminal (by simp) reduces) (left.report rule)
    · have same : h.after p turn =
          ⟨h.rules, (h.shifted p turn).drop (turn.popped.getD []).length⟩ := by
        rw [History.after]
        split
        · next rule result => exact absurd result (other rule)
        · rfl
      rw [same]
      exact left

/-- The entries of the stack stem from reports of their nonterminals. -/
theorem stems_of_recorded (h' : Recorded ε t p h) : StackStems t h.rules p.stack h.origins := by
  induction h' with
  | start => exact .cons .bottom .nil
  | next _ source ih => exact (ih.next source).2

/-- So do the entries that a call hands out. -/
theorem handedOut_stems (h' : Recorded ε t p h) (source : List (Except ε τ)) :
    List.Forall₂ (Stems t h.rules) ((p.next t source).popped.getD [])
      (h.handedOut p (p.next t source)) :=
  ((stems_of_recorded h').next source).1

end Parser

end SimpleLR

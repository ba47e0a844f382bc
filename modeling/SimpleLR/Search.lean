/-!
# Loops and searches

A loop repeats a round for as long as there is one; each round takes something and leads to the next
state. A search is a loop over a queue: it takes what has waited longest, lets it act on a result
and queues what it leads to, unless that has been met before.
-/

namespace SimpleLR

variable {σ α ρ : Type}

/-- Rounds of a loop that take these things, one after another, lead from one state to another. -/
inductive Rounds (round : σ → Option (α × σ)) : σ → List α → σ → Prop
  | none (s : σ) : Rounds round s [] s
  | next {s s' t : σ} {a : α} {taken : List α} (first : round s = some (a, s'))
    (later : Rounds round s' taken t) : Rounds round s (a :: taken) t

/-- A loop takes these things, one after another, and then ends in a state without a round. -/
structure Ends (round : σ → Option (α × σ)) (s : σ) (taken : List α) (t : σ) : Prop where
  rounds : Rounds round s taken t
  finished : round t = .none

/-- What a search has met, in the order in which it was met first, and what of it still waits. -/
structure Worklist (α : Type) where
  met : List α
  waiting : List α

namespace Worklist

variable [DecidableEq α]

/-- Queues something, unless it has been met before. -/
def put (w : Worklist α) (a : α) : Worklist α :=
  if a ∈ w.met then w else ⟨w.met ++ [a], w.waiting ++ [a]⟩

/-- Queues one thing after another. -/
def putAll (w : Worklist α) (as : List α) : Worklist α := as.foldl put w

end Worklist

/-- What looking at a thing does to the result of a search, and where it leads. -/
structure Search (α ρ : Type) where
  look : α → ρ → ρ
  leads : α → List α

namespace Search

/-- The result after looking at one thing after another. -/
def lookAll (S : Search α ρ) (as : List α) (x : ρ) : ρ := as.foldl (fun x a => S.look a x) x

variable [DecidableEq α]

/-- The beginning of a search, from some things and with some result. -/
def start (as : List α) (x : ρ) : ρ × Worklist α := (x, .putAll ⟨[], []⟩ as)

/-- A round of a search; there is none when nothing waits. -/
def round (S : Search α ρ) : ρ × Worklist α → Option (α × (ρ × Worklist α))
  | (_, ⟨_, []⟩) => none
  | (x, ⟨met, a :: waiting⟩) => some (a, S.look a x, .putAll ⟨met, waiting⟩ (S.leads a))

/-- A search from some things ends, all that was met having been taken in turn. -/
def Completes (S : Search α ρ) (as : List α) (x : ρ) (taken : List α) (y : ρ) : Prop :=
  Ends S.round (start as x) taken (y, ⟨taken, []⟩)

end Search

end SimpleLR

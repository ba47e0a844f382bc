import SimpleLR.IndexSet.Basic

/-!
# Least fixed points over sets of indexed things

`saturate` repeats a step on a set until it changes nothing; `reach` follows links between indexed
things; `leastFamily` gives each thing what it owns itself together with what everything reachable
from it owns. Each of them takes the number of things there are, which bounds the rounds needed:
`settles_saturate` says that the step is repeated until it changes nothing, `mem_reach` that exactly
what links lead to is reached, and `mem_leastFamily` what belongs to the sets of a family.
-/

namespace SimpleLR

namespace IndexSet

variable {α : Type} [Indexed α]

/-- Repeats `step` until it changes nothing, at most `rounds` times. -/
def saturate (step : IndexSet α → IndexSet α) : Nat → IndexSet α → IndexSet α
  | 0, s => s
  | rounds + 1, s => if step s = s then s else saturate step rounds (step s)

/-- The number of things, among the first `count`, that do not belong to a set. -/
def missing (count : Nat) (s : IndexSet α) : Nat :=
  (List.range count).countP fun i => !decide (ofIndex i ∈ s)

/-- A step grows a set by some of the first `count` things. -/
structure Grows (count : Nat) (step : IndexSet α → IndexSet α) : Prop where
  le : ∀ {s a}, a ∈ s → a ∈ step s
  lt : ∀ {s a}, a ∈ step s → a ∈ s ∨ index a < count

variable {count : Nat} {step : IndexSet α → IndexSet α} {s t : IndexSet α} {a b : α}

theorem missing_step_lt (h : Grows count step) (ne : step s ≠ s) :
    missing count (step s) < missing count s := by
  obtain ⟨a, ha, hs⟩ : ∃ a, a ∈ step s ∧ a ∉ s :=
    Classical.byContradiction fun none => ne (ext fun a => ⟨fun ha =>
      Classical.byContradiction fun hs => none ⟨a, ha, hs⟩, h.le⟩)
  have hlt := (h.lt ha).resolve_left hs
  have all : ∀ l : List Nat, (l.countP fun i => !decide (ofIndex i ∈ step s)) ≤
      l.countP fun i => !decide (ofIndex i ∈ s) := fun l =>
    List.countP_mono_left fun i _ => by
      simp only [Bool.not_eq_true', decide_eq_false_iff_not]
      exact fun hi hs => hi (h.le hs)
  unfold missing
  obtain ⟨front, back, e⟩ := List.append_of_mem (List.mem_range.2 hlt)
  rw [e, List.countP_append, List.countP_append, List.countP_cons, List.countP_cons]
  have := all front
  have := all back
  simp only [Indexed.ofIndex_index, ha, hs, decide_true, decide_false, Bool.not_true,
    Bool.not_false, Bool.false_eq_true, ↓reduceIte]
  omega

/-- A step is repeated as long as it changes the set, which it does in so many rounds. -/
inductive Settles (step : IndexSet α → IndexSet α) : IndexSet α → Nat → IndexSet α → Prop
  | still {s : IndexSet α} (fixed : step s = s) : Settles step s 0 s
  | change {s t : IndexSet α} {rounds : Nat} (ne : step s ≠ s)
    (later : Settles step (step s) rounds t) : Settles step s (rounds + 1) t

omit [Indexed α] in
theorem Settles.step_eq {rounds : Nat} (h : Settles step s rounds t) : step t = t := by
  induction h with
  | still fixed => exact fixed
  | change _ _ ih => exact ih

theorem settles_saturate_of_missing_le (h : Grows count step) (rounds : Nat)
    (le : missing count s ≤ rounds) : ∃ n ≤ rounds, Settles step s n (saturate step rounds s) := by
  induction rounds generalizing s with
  | zero =>
    refine ⟨0, Nat.le_refl 0, .still (Classical.byContradiction fun ne => ?_)⟩
    have := missing_step_lt h ne
    omega
  | succ rounds ih =>
    unfold saturate
    split
    · next fixed => exact ⟨0, Nat.zero_le _, .still fixed⟩
    · next ne =>
      have := missing_step_lt h ne
      obtain ⟨n, le, settles⟩ := ih (s := step s) (by omega)
      exact ⟨n + 1, Nat.succ_le_succ le, .change ne settles⟩

/-- What ends the rounds is that the step changes nothing any more, and not their number. -/
theorem settles_saturate (h : Grows count step) (s : IndexSet α) :
    ∃ n ≤ count, Settles step s n (saturate step count s) := by
  refine settles_saturate_of_missing_le h count ?_
  simpa [missing] using List.countP_le_length (p := fun i => !decide (ofIndex i ∈ s))
    (l := List.range count)

/-- A saturated set is fixed by the step. -/
theorem step_saturate (h : Grows count step) (s : IndexSet α) :
    step (saturate step count s) = saturate step count s :=
  let ⟨_, _, settles⟩ := settles_saturate h s
  settles.step_eq

theorem mem_saturate_of_mem (h : Grows count step) (rounds : Nat) (ha : a ∈ s) :
    a ∈ saturate step rounds s := by
  induction rounds generalizing s with
  | zero => exact ha
  | succ rounds ih =>
    unfold saturate
    split
    · exact ha
    · exact ih (h.le ha)

/-- What holds of a set and is kept by the step holds of the saturated set. -/
theorem saturate_induction {p : α → Prop} (hs : ∀ a ∈ s, p a)
    (hstep : ∀ s, (∀ a ∈ s, p a) → ∀ a ∈ step s, p a) (rounds : Nat) :
    ∀ a ∈ saturate step rounds s, p a := by
  induction rounds generalizing s with
  | zero => exact hs
  | succ rounds ih =>
    unfold saturate
    split
    · exact hs
    · exact ih (hstep s hs)

/-- Everything reached from `s` over the links `next`, among `count` things. -/
def reach (count : Nat) (next : α → IndexSet α) (s : IndexSet α) : IndexSet α :=
  saturate (fun s => s ∪ s.bind next) count s

/-- Links lead from one thing to another. -/
inductive Path (next : α → IndexSet α) : α → α → Prop
  | refl (a : α) : Path next a a
  | tail {a b c : α} (front : Path next a b) (last : c ∈ next b) : Path next a c

theorem Path.trans {next : α → IndexSet α} {a b c : α} (h : Path next a b)
    (h' : Path next b c) : Path next a c := by
  induction h' with
  | refl => exact h
  | tail _ last ih => exact .tail ih last

variable {next : α → IndexSet α}

theorem Path.index_lt (bounded : ∀ a, ∀ b ∈ next a, index b < count) (ha : index a < count)
    (h : Path next a b) : index b < count := by
  cases h with
  | refl => exact ha
  | tail _ last => exact bounded _ _ last

theorem grows_links (bounded : ∀ a, ∀ b ∈ next a, index b < count) :
    Grows count fun s => s ∪ s.bind next where
  le h := mem_union.2 (.inl h)
  lt h := (mem_union.1 h).imp_right fun h =>
    let ⟨_, _, hb⟩ := mem_bind.1 h
    bounded _ _ hb

/-- Exactly what links lead to is reached. -/
theorem mem_reach (bounded : ∀ a, ∀ b ∈ next a, index b < count) :
    b ∈ reach count next s ↔ ∃ a ∈ s, Path next a b := by
  constructor
  · refine saturate_induction (p := fun b => ∃ a ∈ s, Path next a b)
      (fun a ha => ⟨a, ha, .refl a⟩) (fun t ht b hb => ?_) count b
    rcases mem_union.1 hb with hb | hb
    · exact ht b hb
    · obtain ⟨c, hc, hb⟩ := mem_bind.1 hb
      obtain ⟨a, ha, path⟩ := ht c hc
      exact ⟨a, ha, .tail path hb⟩
  · rintro ⟨a, ha, path⟩
    have grows := grows_links bounded
    induction path with
    | refl => exact mem_saturate_of_mem grows count ha
    | tail _ last ih =>
      unfold reach
      rw [← step_saturate grows s]
      exact mem_union.2 (.inr (mem_bind.2 ⟨_, ih, last⟩))

end IndexSet

variable {α β : Type} [Indexed α]

/-- The values of a function at the first `count` things, written out once. -/
def tabulate (count : Nat) (f : α → β) : Array β :=
  ((List.range count).map fun i => f (ofIndex i)).toArray

/-- The set that a table holds for `a`, empty beyond the table. -/
def setAt (table : Array (IndexSet β)) (a : α) : IndexSet β := table[index a]?.getD ∅

/-- What each of the first `count` things owns directly or through links: the least family with
`own a` in the set of `a` and, for each `b` in `links a`, the set of `b` in the set of `a`. -/
def leastFamily [Indexed β] (count : Nat) (own : α → IndexSet β) (links : α → IndexSet α) :
    Array (IndexSet β) :=
  let owned := tabulate count own
  let linked := tabulate count links
  tabulate count fun a => (IndexSet.reach count (setAt linked) (.single a)).bind (setAt owned)

variable {count : Nat} {f : α → IndexSet β} {a : α}

theorem setAt_tabulate (h : index a < count) : setAt (tabulate count f) a = f a := by
  simp [setAt, tabulate, h]

theorem setAt_tabulate_of_le (h : count ≤ index a) : setAt (tabulate count f) a = ∅ := by
  simp [setAt, tabulate, h]

theorem mem_setAt_tabulate [Indexed β] {b : β} :
    b ∈ setAt (tabulate count f) a ↔ index a < count ∧ b ∈ f a := by
  by_cases h : index a < count
  · simp [setAt_tabulate, h]
  · simp [setAt_tabulate_of_le (Nat.le_of_not_lt h), h]

/-- Something belongs to the set of `a` when links lead from `a` to an owner of it. -/
theorem mem_leastFamily [Indexed β] {own : α → IndexSet β} {links : α → IndexSet α} {x : β}
    (bounded : ∀ a, ∀ b ∈ links a, index b < count) (h : index a < count) :
    x ∈ setAt (leastFamily count own links) a ↔
      ∃ b, IndexSet.Path links a b ∧ x ∈ own b := by
  have path : ∀ b, IndexSet.Path (setAt (tabulate count links)) a b ↔
      index b < count ∧ IndexSet.Path links a b := by
    refine fun b => ⟨fun p => ?_, fun p => ?_⟩
    · induction p with
      | refl => exact ⟨h, .refl a⟩
      | tail _ last ih =>
        obtain ⟨_, last⟩ := mem_setAt_tabulate.1 last
        exact ⟨bounded _ _ last, .tail ih.2 last⟩
    · obtain ⟨_, p⟩ := p
      induction p with
      | refl => exact .refl a
      | tail front last ih =>
        have hc := front.index_lt bounded h
        exact .tail (ih hc) (mem_setAt_tabulate.2 ⟨hc, last⟩)
  simp only [leastFamily, setAt_tabulate h, IndexSet.mem_bind, mem_setAt_tabulate]
  rw [funext fun b => propext (and_congr_left' (IndexSet.mem_reach fun c b hb =>
    bounded c b (mem_setAt_tabulate.1 hb).2))]
  simp only [IndexSet.mem_single, exists_eq_left, path]
  refine exists_congr fun b => ⟨?_, ?_⟩
  · rintro ⟨⟨_, p⟩, _, hx⟩
    exact ⟨p, hx⟩
  · rintro ⟨p, hx⟩
    have hb := p.index_lt bounded h
    exact ⟨⟨hb, p⟩, hb, hx⟩

end SimpleLR

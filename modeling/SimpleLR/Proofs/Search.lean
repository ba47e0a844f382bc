import Mathlib.Data.List.Nodup
import Mathlib.Logic.Relation
import SimpleLR.Search

/-!
# Searches end

A search that stays among finitely many things takes no thing twice, so it ends; by then it has
taken exactly what its beginning leads to, and its result is what looking at all of that gives
(`Search.exists_completes`). What carries this is that a thing that has been met has been taken or
waits, and that what a taken thing leads to has been met (`Search.Underway`).
-/

namespace SimpleLR

variable {σ α ρ : Type}

theorem Ends.next {round : σ → Option (α × σ)} {s s' t : σ} {a : α} {taken : List α}
    (first : round s = some (a, s')) (later : Ends round s' taken t) :
    Ends round s (a :: taken) t :=
  ⟨.next first later.rounds, later.finished⟩

namespace Worklist

variable [DecidableEq α] {w : Worklist α} {a b : α} {as : List α}

theorem mem_met_putAll : b ∈ (w.putAll as).met ↔ b ∈ w.met ∨ b ∈ as := by
  induction as generalizing w with
  | nil => simp [putAll]
  | cons a as ih =>
    rw [putAll, List.foldl_cons, ← putAll, ih, put]
    split
    · next old =>
      rw [List.mem_cons]
      refine or_congr_right' fun new ↦ ⟨.inr, ?_⟩
      rintro (rfl | h)
      · exact absurd old new
      · exact h
    · rw [List.mem_append, List.mem_singleton, List.mem_cons, or_assoc]

/-- What is queued comes to what was met and to what waits alike, and nothing of it was met. -/
theorem exists_putAll_eq (w : Worklist α) (as : List α) :
    ∃ new, w.putAll as = ⟨w.met ++ new, w.waiting ++ new⟩ ∧
      (w.met.Nodup → (w.met ++ new).Nodup) := by
  induction as generalizing w with
  | nil => exact ⟨[], by simp [putAll], by simp⟩
  | cons a as ih =>
    rw [putAll, List.foldl_cons, ← putAll, put]
    split
    · exact ih w
    · next fresh =>
      obtain ⟨new, e, nodup⟩ := ih ⟨w.met ++ [a], w.waiting ++ [a]⟩
      refine ⟨a :: new, by simpa using e, fun h ↦ ?_⟩
      have h' : (w.met ++ [a]).Nodup := by
        rw [← List.concat_eq_append]
        exact h.concat fresh
      simpa using nodup h'

end Worklist

namespace Search

variable {S : Search α ρ} {start univ taken waiting : List α} {x y : ρ} {a b : α}

/-- Looking at one thing after another leads to a thing. -/
def Reaches (S : Search α ρ) : α → α → Prop := Relation.ReflTransGen fun a b ↦ b ∈ S.leads a

theorem lookAll_concat : S.lookAll (taken ++ [a]) x = S.look a (S.lookAll taken x) :=
  List.foldl_concat ..

/-- What looking at a thing adds to a result is what looking at several things adds. -/
theorem lookAll_iff {p : ρ → Prop} {q : α → Prop} (look : ∀ a x, p (S.look a x) ↔ p x ∨ q a) :
    p (S.lookAll taken x) ↔ p x ∨ ∃ a ∈ taken, q a := by
  induction taken generalizing x with
  | nil => simp [lookAll]
  | cons a taken ih =>
    rw [lookAll, List.foldl_cons, ← lookAll, ih, look, List.exists_mem_cons_iff, or_assoc]

/-- A search after it has taken some things. -/
structure Underway (S : Search α ρ) (start : List α) (x : ρ) (taken : List α)
    (s : ρ × Worklist α) : Prop where
  result : s.1 = S.lookAll taken x
  met : s.2.met = taken ++ s.2.waiting
  nodup : s.2.met.Nodup
  start_met : ∀ a ∈ start, a ∈ s.2.met
  leads_met : ∀ a ∈ taken, ∀ b ∈ S.leads a, b ∈ s.2.met
  reached : ∀ b ∈ s.2.met, ∃ a ∈ start, S.Reaches a b

/-- When nothing waits, what has been taken is what the beginning leads to. -/
theorem Underway.mem_taken_iff {met : List α} (h : S.Underway start x taken (y, ⟨met, []⟩)) :
    b ∈ taken ↔ ∃ a ∈ start, S.Reaches a b := by
  obtain rfl : met = taken := by simpa using h.met
  refine ⟨h.reached b, ?_⟩
  rintro ⟨a, ha, path⟩
  induction path with
  | refl => exact h.start_met a ha
  | tail _ last ih => exact h.leads_met _ ih _ last

variable [DecidableEq α]

theorem underway_start (S : Search α ρ) (start : List α) (x : ρ) :
    S.Underway start x [] (Search.start start x) := by
  have mem : ∀ b, b ∈ (Search.start start x).2.met ↔ b ∈ start := fun b ↦
    Worklist.mem_met_putAll.trans (by simp)
  obtain ⟨new, e, nodup⟩ := Worklist.exists_putAll_eq ⟨[], []⟩ start
  refine ⟨rfl, ?_, ?_, fun a ha ↦ (mem a).2 ha, by simp, fun b hb ↦ ⟨b, (mem b).1 hb, .refl⟩⟩
  · rw [Search.start, e]
    rfl
  · rw [Search.start, e]
    exact nodup .nil

/-- A round takes what has waited longest. -/
theorem Underway.take {met : List α} (h : S.Underway start x taken (y, ⟨met, a :: waiting⟩)) :
    S.Underway start x (taken ++ [a])
      (S.look a y, .putAll ⟨met, waiting⟩ (S.leads a)) := by
  have mem : ∀ b, b ∈ (Worklist.putAll ⟨met, waiting⟩ (S.leads a)).met ↔
      b ∈ met ∨ b ∈ S.leads a := fun _ ↦ Worklist.mem_met_putAll
  have ha : a ∈ met := by
    have e : met = taken ++ a :: waiting := h.met
    rw [e]
    simp
  obtain ⟨new, e, nodup⟩ := Worklist.exists_putAll_eq ⟨met, waiting⟩ (S.leads a)
  refine ⟨?_, ?_, ?_, fun b hb ↦ (mem b).2 (.inl (h.start_met b hb)), fun c hc b hb ↦ ?_,
    fun b hb ↦ ?_⟩
  · rw [lookAll_concat, ← h.result]
  · have before : met = taken ++ a :: waiting := h.met
    rw [e]
    simp [before]
  · rw [e]
    exact nodup h.nodup
  · rw [mem]
    rcases List.mem_append.1 hc with hc | hc
    · exact .inl (h.leads_met c hc b hb)
    · rw [List.mem_singleton.1 hc] at hb
      exact .inr hb
  · rcases (mem b).1 hb with hb | hb
    · exact h.reached b hb
    · obtain ⟨c, hc, path⟩ := h.reached a ha
      exact ⟨c, hc, path.tail hb⟩

/-- Among finitely many things a search ends: each round takes another one. -/
theorem Underway.exists_ends {s : ρ × Worklist α} (h : S.Underway start x taken s)
    (within : ∀ b, (∃ a ∈ start, S.Reaches a b) → b ∈ univ) (left : Nat)
    (enough : univ.length ≤ taken.length + left) :
    ∃ rest t, Ends S.round s rest t ∧ t.2.waiting = [] ∧ S.Underway start x (taken ++ rest) t := by
  induction left generalizing taken s with
  | zero =>
    obtain ⟨y, met, waiting⟩ := s
    cases waiting with
    | nil => exact ⟨[], _, ⟨.none _, rfl⟩, rfl, by simpa using h⟩
    | cons a waiting =>
      -- as many things have been taken as there are, so none is left to wait
      have all := h.nodup.length_le_of_subset fun b hb ↦ within b (h.reached b hb)
      rw [h.met] at all
      simp only [List.length_append, List.length_cons] at all
      omega
  | succ left ih =>
    obtain ⟨y, met, waiting⟩ := s
    cases waiting with
    | nil => exact ⟨[], _, ⟨.none _, rfl⟩, rfl, by simpa using h⟩
    | cons a waiting =>
      obtain ⟨rest, t, ends, none, underway⟩ := ih h.take (by simpa using by omega)
      exact ⟨a :: rest, t, ends.next rfl, none, by simpa using underway⟩

/-- A search among finitely many things ends. It takes each thing that its beginning leads to, and
nothing else, once. -/
theorem exists_completes (start : List α) (x : ρ)
    (within : ∀ b, (∃ a ∈ start, S.Reaches a b) → b ∈ univ) :
    ∃ taken, S.Completes start x taken (S.lookAll taken x) ∧ taken.Nodup ∧
      ∀ b, b ∈ taken ↔ ∃ a ∈ start, S.Reaches a b := by
  obtain ⟨taken, ⟨y, met, waiting⟩, ends, rfl, underway⟩ :=
    (underway_start S start x).exists_ends within univ.length (Nat.le_add_left ..)
  rw [List.nil_append] at underway
  obtain rfl : met = taken := by simpa using underway.met
  obtain rfl : y = S.lookAll met x := underway.result
  exact ⟨met, ends, underway.nodup, fun b ↦ underway.mem_taken_iff⟩

end Search

end SimpleLR

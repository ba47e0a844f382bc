import Mathlib.Order.Bounds.Basic
import SimpleLR.Item.Search
import SimpleLR.Proofs.Item.Closure
import SimpleLR.Proofs.Search

/-!
# Closures as least closed sets

The closure of some items is the least set that holds them and is closed under the rules
(`ItemSet.closure_isLeast`), and the search for it ends with its members
(`ItemSet.exists_closureSearch_completes`). As a list it is strictly ascending, so it is the same
whatever the order in which its members were found (`ItemSet.items_ofList`) and a member is found by
halving (`ItemSet.contains_iff`).
-/

namespace SimpleLR

/-! ## Sorting -/

namespace Item

variable {i j : Item} {l acc : List Item}

/-- Items are ordered by rule, and for one rule by the place of the dot. -/
def Precedes (i j : Item) : Prop := i.rule.index < j.rule.index ∨ i.rule = j.rule ∧ i.dot < j.dot

theorem precedes_iff_before : i.Precedes j ↔ i.Before j := by
  obtain ⟨⟨r⟩, d⟩ := i
  obtain ⟨⟨r'⟩, d'⟩ := j
  have hd := d.toNat_lt
  have hd' := d'.toNat_lt
  simp only [Precedes, Before, code, RuleId.mk.injEq, UInt16.lt_iff_toNat_lt]
  omega

theorem mem_eraseReps_loop :
    j ∈ List.eraseRepsBy.loop (· == ·) i l acc ↔ j ∈ acc ∨ j = i ∨ j ∈ l := by
  induction l generalizing i acc with
  | nil => simp [List.eraseRepsBy.loop, or_comm]
  | cons k l ih =>
    rw [List.eraseRepsBy.loop]
    split
    · next same =>
      obtain rfl := beq_iff_eq.1 same
      simp [ih]
    · simp only [ih, List.mem_cons]
      rw [or_comm (a := j = i), or_assoc]

theorem ascending_eraseReps_loop (before : (acc.reverse ++ [i]).Pairwise Before)
    (sorted : (i :: l).Pairwise fun i j ↦ i.code ≤ j.code) :
    (List.eraseRepsBy.loop (· == ·) i l acc).Pairwise Before := by
  induction l generalizing i acc with
  | nil => simpa [List.eraseRepsBy.loop] using before
  | cons k l ih =>
    obtain ⟨le, later⟩ := List.pairwise_cons.1 sorted
    rw [List.eraseRepsBy.loop]
    split
    · next same =>
      obtain rfl := beq_iff_eq.1 same
      exact ih before later
    · next other =>
      have lt : i.Before k := Nat.lt_of_le_of_ne (le k List.mem_cons_self)
        fun e ↦ beq_eq_false_iff_ne.1 other (code_inj.1 e)
      refine ih ?_ later
      rw [List.reverse_cons]
      refine List.pairwise_append.2 ⟨before, List.pairwise_singleton .., fun x hx y hy ↦ ?_⟩
      rw [List.mem_singleton.1 hy]
      rcases List.mem_append.1 hx with hx | hx
      · exact ((List.pairwise_append.1 before).2.2 x hx i List.mem_cons_self).trans lt
      · rwa [List.mem_singleton.1 hx]

theorem mem_sort : j ∈ sort l ↔ j ∈ l := by
  have mem : j ∈ l.mergeSort atMost ↔ j ∈ l := List.mem_mergeSort
  rw [sort, ← mem]
  cases l.mergeSort atMost with
  | nil => rfl
  | cons i m => exact mem_eraseReps_loop.trans (by simp)

theorem sort_ascending (l : List Item) : (sort l).Pairwise Before := by
  have sorted : (l.mergeSort atMost).Pairwise fun i j ↦ i.code ≤ j.code := by
    refine (List.pairwise_mergeSort (fun i j k ↦ ?_) (fun i j ↦ ?_) l).imp of_decide_eq_true
    · simpa [atMost] using Nat.le_trans
    · simpa [atMost] using Nat.le_total i.code j.code
  rw [sort]
  cases e : l.mergeSort atMost with
  | nil => exact .nil
  | cons i m => exact ascending_eraseReps_loop (by simp) (e ▸ sorted)

end Item

/-! ## Halving -/

/-- Halving finds the last place that is not above what is looked for. -/
theorem halve_eq {below : Nat → Bool} {place count p : Nat} (le : place ≤ p)
    (lt : p < place + count) (h : ∀ q < place + count, below q = true ↔ p < q) :
    halve below place count = p := by
  fun_induction halve below place count with
  | case1 place count one => omega
  | case2 place count many middle ih =>
    have inside : middle < place + count := by omega
    by_cases above : below middle = true
    · have := (h middle inside).1 above
      rw [dif_pos above] at ih
      rw [if_pos above]
      exact ih (by omega) (by omega) fun q hq ↦ h q (by omega)
    · have := (h middle inside).not.1 above
      rw [dif_neg above] at ih
      rw [if_neg above]
      exact ih (by omega) (by omega) fun q hq ↦ h q (by omega)

namespace ItemSet

variable {g : Grammar} {s : ItemSet} {i : Item} {core core' : List Item}

/-- The order of the items is that of their places. -/
theorem before_iff_lt {p q : Nat} (hp : p < s.items.length) (hq : q < s.items.length) :
    s.items[p].Before s.items[q] ↔ p < q := by
  have later := List.pairwise_iff_getElem.1 s.ascending
  refine ⟨fun before ↦ ?_, later p q hp hq⟩
  rcases Nat.lt_trichotomy p q with lt | rfl | gt
  · exact lt
  · exact absurd before (Item.not_before_self _)
  · exact absurd (before.trans (later q p hq hp gt)) (Item.not_before_self _)

/-- An item is found by halving exactly if it is a member. -/
theorem contains_iff : s.contains i = true ↔ i ∈ s := by
  rw [contains, decide_eq_true_iff, mem_def]
  refine ⟨List.mem_of_getElem?, fun hi ↦ ?_⟩
  obtain ⟨p, hp, rfl⟩ := List.getElem_of_mem hi
  have found : halve (fun place ↦ s.items[place]?.any fun j ↦ decide (s.items[p].Before j)) 0
      s.size = p := by
    refine halve_eq (Nat.zero_le p) (by simpa [size] using hp) fun q hq ↦ ?_
    have hq : q < s.items.length := by simpa [size] using hq
    simp [List.getElem?_eq_getElem hq, before_iff_lt hp hq]
  rw [found, List.getElem?_eq_getElem hp]

/-- A set of items is the sorted list of its members, in whatever order they are given. -/
theorem items_ofList (l : List Item) : (ofList l).items = Item.sort l :=
  eq_of_mem_iff (ofList l).ascending (Item.sort_ascending l) fun _ ↦
    mem_ofList.trans Item.mem_sort.symm

/-! ## Closures -/

/-- A set that holds some items and, with each item whose dot stands before a nonterminal, the
initial items of the rules of that nonterminal. -/
structure ClosedOver (g : Grammar) (core : List Item) (all : Set Item) : Prop where
  core : ∀ i ∈ core, i ∈ all
  rules : ∀ i ∈ all, ∀ n, i.next? g = some (.nonterminal n) →
    ∀ r ∈ g.rulesFor n, .initial r ∈ all

theorem isLeast_closure (g : Grammar) (core : List Item) :
    IsLeast {all | ClosedOver g core all} {i | i ∈ closure g core} := by
  refine ⟨⟨fun _ ↦ mem_closure_of_mem, fun i hi n next r hr ↦ initial_mem_closure hi next hr⟩, ?_⟩
  intro all closed
  exact closure_induction closed.core fun i n r _ hi next hr ↦ closed.rules i hi n next r hr

theorem mem_leads_closureSearch {j : Item} :
    j ∈ g.closureSearch.leads i ↔
      ∃ n, i.next? g = some (.nonterminal n) ∧ ∃ r ∈ g.rulesFor n, .initial r = j := by
  simp only [Grammar.closureSearch]
  split
  · next n next => simp [next]
  · next other =>
    exact ⟨fun h ↦ absurd h List.not_mem_nil, fun ⟨n, next, _⟩ ↦ absurd next (other n)⟩

/-- A closure holds what the search leads to. -/
theorem mem_closure_iff_reaches :
    i ∈ closure g core ↔ ∃ j ∈ core, g.closureSearch.Reaches j i := by
  constructor
  · refine closure_induction (p := fun i ↦ ∃ j ∈ core, g.closureSearch.Reaches j i)
      (fun i hi ↦ ⟨i, hi, .refl⟩) (fun i n r _ hi next hr ↦ ?_) i
    obtain ⟨j, hj, path⟩ := hi
    exact ⟨j, hj, path.tail (mem_leads_closureSearch.2 ⟨n, next, r, hr, rfl⟩)⟩
  · rintro ⟨j, hj, path⟩
    induction path with
    | refl => exact mem_closure_of_mem hj
    | tail _ last ih =>
      obtain ⟨n, next, r, hr, rfl⟩ := mem_leads_closureSearch.1 last
      exact initial_mem_closure ih next hr

/-- The search for a closure ends, with each of its items taken once. -/
theorem exists_closureSearch_completes (g : Grammar) (core : List Item) :
    ∃ taken, g.closureSearch.Completes core () taken () ∧ taken.Nodup ∧
      ofList taken = closure g core := by
  obtain ⟨taken, completes, nodup, mem⟩ := g.closureSearch.exists_completes core ()
    fun _ h ↦ mem_def.1 (mem_closure_iff_reaches.2 h)
  exact ⟨taken, completes, nodup, ext fun i ↦
    mem_ofList.trans ((mem i).trans mem_closure_iff_reaches.symm)⟩

theorem closure_mono (h : ∀ i ∈ core, i ∈ core') (hi : i ∈ closure g core) :
    i ∈ closure g core' := by
  obtain ⟨j, hj, path⟩ := mem_closure_iff_reaches.1 hi
  exact mem_closure_iff_reaches.2 ⟨j, h j hj, path⟩

theorem closure_congr (h : ∀ i, i ∈ core ↔ i ∈ core') : closure g core = closure g core' :=
  ext fun _ ↦ ⟨closure_mono fun j ↦ (h j).1, closure_mono fun j ↦ (h j).2⟩

theorem closure_closure (g : Grammar) (core : List Item) :
    closure g (closure g core).items = closure g core := by
  refine ext fun i ↦ ⟨fun hi ↦ ?_, mem_closure_of_mem⟩
  obtain ⟨j, hj, path⟩ := mem_closure_iff_reaches.1 hi
  obtain ⟨k, hk, path'⟩ := mem_closure_iff_reaches.1 (mem_def.2 hj)
  exact mem_closure_iff_reaches.2 ⟨k, hk, path'.trans path⟩

theorem mem_closure_append :
    i ∈ closure g (core ++ core') ↔ i ∈ closure g core ∨ i ∈ closure g core' := by
  simp only [mem_closure_iff_reaches, List.mem_append, or_and_right, exists_or]

/-- The closure of some items is what the search for it ends with: the least set that holds them and
is closed under the rules, as a strictly ascending list. It depends only on which items are given,
also by the codes that tell sets apart; closing again adds nothing, more items give more, and joined
items give the joined closures. Sorting a list of items gives the set of its members, and a member
of a set is found by halving. -/
theorem closure_isLeast (g : Grammar) :
    (∀ core : List Item,
      (∃ taken, g.closureSearch.Completes core () taken () ∧
        (closure g core).items = Item.sort taken) ∧
      (closure g core).items.Pairwise Item.Precedes ∧ (closure g core).items.Nodup ∧
      IsLeast {all | ClosedOver g core all} {i | i ∈ closure g core} ∧
      closure g (closure g core).items = closure g core) ∧
    (∀ core core' : List Item,
      ((∀ i, i ∈ core ↔ i ∈ core') → closure g core = closure g core') ∧
      ((closure g core).codes = (closure g core').codes ↔
        ∀ i, i ∈ closure g core ↔ i ∈ closure g core') ∧
      ((∀ i ∈ core, i ∈ core') → ∀ i ∈ closure g core, i ∈ closure g core') ∧
      ∀ i, i ∈ closure g (core ++ core') ↔ i ∈ closure g core ∨ i ∈ closure g core') ∧
    (∀ l : List Item, (ofList l).items = Item.sort l ∧ ∀ i, i ∈ ofList l ↔ i ∈ l) ∧
    ∀ (s : ItemSet) (i : Item), s.contains i = true ↔ i ∈ s := by
  refine ⟨fun core ↦ ⟨?_, ?_, ?_, isLeast_closure g core, closure_closure g core⟩,
    fun core core' ↦ ⟨closure_congr, ?_, fun h i ↦ closure_mono h, fun i ↦ mem_closure_append⟩,
    fun l ↦ ⟨items_ofList l, fun i ↦ mem_ofList⟩, fun s i ↦ contains_iff⟩
  · obtain ⟨taken, completes, _, e⟩ := exists_closureSearch_completes g core
    exact ⟨taken, completes, by rw [← e, items_ofList]⟩
  · exact (closure g core).ascending.imp Item.precedes_iff_before.2
  · refine (closure g core).ascending.imp fun before e ↦ ?_
    rw [e] at before
    exact Item.not_before_self _ before
  · rw [codes_inj]
    exact ⟨fun e i ↦ by rw [e], ext⟩

end ItemSet

/-- The grammar of `S -> A x`, `A -> S y` and `A -> A y`. -/
def Grammar.entangled : Grammar where
  terminals := #["$end", "x", "y"]
  nonterminals := #["$start", "S", "A"]
  terminals_zero := rfl
  nonterminals_zero := rfl
  names_nodup := by decide
  start := ⟨1⟩
  rules := #[.augmenting ⟨1⟩, ⟨⟨1⟩, #[.nonterminal ⟨2⟩, .terminal ⟨1⟩]⟩,
    ⟨⟨2⟩, #[.nonterminal ⟨1⟩, .terminal ⟨2⟩]⟩, ⟨⟨2⟩, #[.nonterminal ⟨2⟩, .terminal ⟨2⟩]⟩]
  start_declared := by decide
  rules_zero := rfl
  rules_declared := by decide
  rules_nodup := by decide

example : (ItemSet.closure .entangled [⟨⟨1⟩, 9⟩, ⟨⟨2⟩, 0⟩]).items =
    [⟨⟨1⟩, 0⟩, ⟨⟨1⟩, 9⟩, ⟨⟨2⟩, 0⟩, ⟨⟨3⟩, 0⟩] := by decide

/-- One of the items is repeated, the dot of the other stands beyond the end of its rule. -/
theorem ItemSet.closure_isLeast_entangled :
    (∀ i : Item, i ∈ [⟨⟨2⟩, 0⟩, ⟨⟨1⟩, 9⟩, ⟨⟨2⟩, 0⟩] ↔ i ∈ [⟨⟨1⟩, 9⟩, ⟨⟨2⟩, 0⟩]) ∧
    closure .entangled [⟨⟨2⟩, 0⟩, ⟨⟨1⟩, 9⟩, ⟨⟨2⟩, 0⟩] =
      closure .entangled [⟨⟨1⟩, 9⟩, ⟨⟨2⟩, 0⟩] ∧
    (∀ i ∈ ([⟨⟨2⟩, 0⟩] : List Item), i ∈ [⟨⟨1⟩, 9⟩, ⟨⟨2⟩, 0⟩]) ∧
    ∀ i ∈ closure .entangled [⟨⟨2⟩, 0⟩], i ∈ closure .entangled [⟨⟨1⟩, 9⟩, ⟨⟨2⟩, 0⟩] := by
  obtain ⟨_, compared, _⟩ := closure_isLeast .entangled
  have same : ∀ i : Item, i ∈ [⟨⟨2⟩, 0⟩, ⟨⟨1⟩, 9⟩, ⟨⟨2⟩, 0⟩] ↔ i ∈ [⟨⟨1⟩, 9⟩, ⟨⟨2⟩, 0⟩] := by
    intro i
    simp only [List.mem_cons, List.not_mem_nil, or_false]
    tauto
  have fewer : ∀ i ∈ ([⟨⟨2⟩, 0⟩] : List Item), i ∈ [⟨⟨1⟩, 9⟩, ⟨⟨2⟩, 0⟩] := by simp
  exact ⟨same, (compared _ _).1 same, fewer, (compared _ _).2.2.1 fewer⟩

end SimpleLR

import SimpleLR.Item.Closure
import SimpleLR.Proofs.Grammar.Rules

/-!
# Members of closures and kernels

The closure of some items is the least set that holds them and, with each item whose dot stands
before a nonterminal, the initial items of the rules of that nonterminal: it is closed
(`initial_mem_closure`), and whatever holds of the items and is handed on to initial items holds of
the whole closure (`closure_induction`).
-/

namespace SimpleLR

variable {g : Grammar} {core : List Item} {i j : Item} {r : RuleId} {n m : Nonterminal}
  {x : Symbol} {s : ItemSet}

namespace Item

/-- The symbol after the dot is on the right of the rule. -/
theorem mem_right_of_next (h : i.next? g = some x) : x ∈ (g.rule i.rule).right.toList :=
  Array.mem_toList_iff.2 (Array.mem_of_getElem? h)

theorem dot_lt_of_next (h : i.next? g = some x) : i.dot.toNat < (g.rule i.rule).right.size :=
  (Array.getElem?_eq_some_iff.1 h).1

/-- The right side of a rule around the symbol after the dot. -/
theorem right_eq_of_next (h : i.next? g = some x) :
    (g.rule i.rule).right.toList =
      (g.rule i.rule).right.toList.take i.dot.toNat ++
        x :: (g.rule i.rule).right.toList.drop (i.dot.toNat + 1) := by
  obtain ⟨lt, e⟩ := Array.getElem?_eq_some_iff.1 h
  rw [← e, ← Array.getElem_toList, ← List.drop_eq_getElem_cons (by simpa using lt),
    List.take_append_drop]

theorem take_succ_of_next (h : i.next? g = some x) :
    (g.rule i.rule).right.toList.take (i.dot.toNat + 1) =
      (g.rule i.rule).right.toList.take i.dot.toNat ++ [x] := by
  rw [next?] at h
  rw [List.take_add_one, Array.getElem?_toList, h]
  rfl

/-- The item with the dot one position further. -/
def moved (i : Item) : Item := { i with dot := i.dot + 1 }

@[simp] theorem moved_rule (i : Item) : i.moved.rule = i.rule := rfl

/-- The dot does not wrap in front of a symbol of a rule that fits. -/
theorem moved_dot (h : i.next? g = some x) (fits : (g.rule i.rule).right.size ≤ 65535) :
    i.moved.dot.toNat = i.dot.toNat + 1 := by
  have lt := dot_lt_of_next h
  rw [moved, UInt16.toNat_add]
  exact Nat.mod_eq_of_lt (by simp only [UInt16.reduceToNat]; omega)

/-- A rule with a complete item fits the positions of a dot. -/
theorem size_le_of_isComplete (h : i.isComplete g = true) :
    (g.rule i.rule).right.size ≤ 65535 :=
  Nat.le_trans (of_decide_eq_true h) (Nat.le_of_lt_succ i.dot.toNat_lt)

theorem advance?_of_next (h : i.next? g = some x) : i.advance? g = some i.moved := by
  rw [advance?, if_neg]
  · rfl
  · have lt := dot_lt_of_next h
    simpa [isComplete] using lt

end Item

namespace Grammar

theorem mem_leftCorners :
    m ∈ g.leftCorners n ↔ ∃ r ∈ g.rulesFor n, (Item.initial r).next? g = some (.nonterminal m) := by
  simp only [leftCorners, IndexSet.mem_ofList, List.mem_filterMap]
  apply exists_congr
  intro r
  apply and_congr_right
  intro _
  rw [Option.bind_eq_some_iff]
  constructor
  · rintro ⟨s, hs, e⟩
    cases s with
    | terminal => exact absurd e (by simp [Symbol.nonterminal?])
    | nonterminal k =>
      obtain rfl := Option.some.inj e
      exact hs
  · exact fun h ↦ ⟨_, h, rfl⟩

theorem index_lt_of_mem_leftCorners (h : m ∈ g.leftCorners n) :
    m.index < g.nonterminals.size := by
  obtain ⟨r, _, h⟩ := mem_leftCorners.1 h
  exact index_lt_of_mem_right (Item.mem_right_of_next h)

end Grammar

namespace ItemSet

/-- The nonterminals after the dots of some items, and everything at their left corners. -/
theorem mem_expanded :
    n ∈ expanded g g.cornerTable core ↔
      ∃ i ∈ core, ∃ m, i.next? g = some (.nonterminal m) ∧ IndexSet.Path g.leftCorners m n := by
  have bounded := fun a b (h : b ∈ g.leftCorners a) ↦ Grammar.index_lt_of_mem_leftCorners h
  have corner : ∀ i : Item, ∀ m, i.next? g = some (.nonterminal m) →
      (n ∈ setAt g.cornerTable m ↔ IndexSet.Path g.leftCorners m n) := by
    intro i m h
    have lt := Grammar.index_lt_of_mem_right (Item.mem_right_of_next h)
    refine (mem_leastFamily bounded lt).trans ?_
    simp
  simp only [expanded, IndexSet.mem_unions, List.mem_map, List.mem_filterMap,
    Option.bind_eq_some_iff]
  constructor
  · rintro ⟨_, ⟨m, ⟨i, hi, s, hs, e⟩, rfl⟩, hn⟩
    cases s with
    | terminal => exact absurd e (by simp [Symbol.nonterminal?])
    | nonterminal k =>
      obtain rfl := Option.some.inj e
      exact ⟨i, hi, k, hs, (corner i k hs).1 hn⟩
  · rintro ⟨i, hi, m, h, path⟩
    exact ⟨_, ⟨m, ⟨i, hi, _, h, rfl⟩, rfl⟩, (corner i m h).2 path⟩

theorem mem_closure :
    i ∈ closure g core ↔ i ∈ core ∨ ∃ r ∈ g.ruleIds, Item.initial r = i ∧
      ∃ j ∈ core, ∃ m, j.next? g = some (.nonterminal m) ∧
        IndexSet.Path g.leftCorners m (g.rule r).left := by
  simp only [closure, closureBy, mem_ofList, List.mem_append, List.mem_map, List.mem_filter,
    decide_eq_true_eq, mem_expanded]
  refine or_congr_right ⟨?_, ?_⟩
  · rintro ⟨r, ⟨hr, h⟩, e⟩
    exact ⟨r, hr, e, h⟩
  · rintro ⟨r, hr, e, h⟩
    exact ⟨r, ⟨hr, h⟩, e⟩

theorem mem_closure_of_mem (h : i ∈ core) : i ∈ closure g core := mem_closure.2 (.inl h)

/-- A closure holds the initial items of the rules of each nonterminal after a dot. -/
theorem initial_mem_closure (hi : i ∈ closure g core) (next : i.next? g = some (.nonterminal n))
    (hr : r ∈ g.rulesFor n) : .initial r ∈ closure g core := by
  have hid := Grammar.mem_ruleIds.2 (Grammar.mem_rulesFor.1 hr).1
  have left := (Grammar.mem_rulesFor.1 hr).2
  rcases mem_closure.1 hi with hi | ⟨r', hr', rfl, j, hj, m, hm, path⟩
  · refine mem_closure.2 (.inr ⟨r, hid, rfl, i, hi, n, next, ?_⟩)
    rw [left]
    exact .refl n
  · have corner : n ∈ g.leftCorners (g.rule r').left :=
      Grammar.mem_leftCorners.2
        ⟨r', Grammar.mem_rulesFor.2 ⟨Grammar.mem_ruleIds.1 hr', rfl⟩, next⟩
    refine mem_closure.2 (.inr ⟨r, hid, rfl, j, hj, m, hm, ?_⟩)
    rw [left]
    exact path.tail corner

/-- What holds of some items, and is handed on to the initial items of the rules of each
nonterminal after a dot, holds of their closure. -/
theorem closure_induction {p : Item → Prop} (base : ∀ i ∈ core, p i)
    (step : ∀ i n r, i ∈ closure g core → p i → i.next? g = some (.nonterminal n) →
      r ∈ g.rulesFor n → p (.initial r)) :
    ∀ i ∈ closure g core, p i := by
  intro i hi
  rcases mem_closure.1 hi with hi | ⟨r, hr, rfl, j, hj, m, hm, path⟩
  · exact base i hi
  · -- along the left corners, for all rules of the corner that is reached
    have all : ∀ n, IndexSet.Path g.leftCorners m n →
        ∀ r ∈ g.rulesFor n, Item.initial r ∈ closure g core ∧ p (.initial r) := by
      intro n path
      induction path with
      | refl =>
        intro r hr
        have hj' := mem_closure_of_mem (g := g) hj
        exact ⟨initial_mem_closure hj' hm hr, step j _ r hj' (base j hj) hm hr⟩
      | tail _ corner ih =>
        intro r hr
        obtain ⟨r', hr', next⟩ := Grammar.mem_leftCorners.1 corner
        obtain ⟨mem, holds⟩ := ih r' hr'
        exact ⟨initial_mem_closure mem next hr, step _ _ r mem holds next hr⟩
    exact (all _ path r (Grammar.mem_rulesFor.2 ⟨Grammar.mem_ruleIds.1 hr, rfl⟩)).2

/-- A member of a closure was there before or is the initial item of a rule whose left side stands
after the dot of another member. -/
theorem mem_closure_cases (h : i ∈ closure g core) :
    i ∈ core ∨ ∃ r, i = .initial r ∧
      ∃ j ∈ closure g core, j.next? g = some (.nonterminal (g.rule r).left) := by
  refine closure_induction (p := fun i ↦ i ∈ core ∨ ∃ r, i = .initial r ∧
    ∃ j ∈ closure g core, j.next? g = some (.nonterminal (g.rule r).left))
    (fun i hi ↦ .inl hi) ?_ i h
  intro j n r hj _ next hr
  obtain ⟨_, rfl⟩ := Grammar.mem_rulesFor.1 hr
  exact .inr ⟨r, rfl, j, hj, next⟩

/-- A kernel holds the items with a symbol after the dot, with the dot moved over it. -/
theorem mem_kernel : j ∈ s.kernel g x ↔ ∃ i ∈ s, i.next? g = some x ∧ i.moved = j := by
  simp only [kernel, List.mem_filterMap, mem_def]
  apply exists_congr
  intro i
  apply and_congr_right
  intro _
  by_cases h : i.next? g = some x
  · simp [h, Item.advance?_of_next h]
  · simp [h]

theorem mem_goto_of_next (hi : i ∈ s) (h : i.next? g = some x) : i.moved ∈ goto g s x :=
  mem_closure_of_mem (mem_kernel.2 ⟨i, hi, h, rfl⟩)

end ItemSet

end SimpleLR

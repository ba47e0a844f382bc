import SimpleLR.Proofs.Automaton.Existence
import SimpleLR.Proofs.Grammar.FirstFollow

/-!
# Automata of rules that are too long for a dot

The dot of an item has 65536 positions, and advancing it from the last one leads back to the first.
The grammar `Grammar.alternating k` has a rule with `k` nonterminals in front of a terminal. If
`k` is at least 65536, the terminal is never reached: after 65535 symbols and one more the items
are those after 65534 symbols again. So there are just as many states as can be numbered, and the
grammar has an automaton (`Alternating.exists_build`).
-/

namespace SimpleLR

namespace Alternating

/-- `S` at even positions, and `Y` at odd ones. -/
def symbol (d : Nat) : Nonterminal := if d % 2 = 0 then ⟨1⟩ else ⟨2⟩

/-- A number of symbols, `S Y` over and over, and then `b`. -/
def right (k : Nat) : List Symbol :=
  (List.range k).map (fun d ↦ .nonterminal (symbol d)) ++ [.terminal ⟨1⟩]

variable {d k q : Nat} {x : Symbol} {n : Nonterminal}

theorem symbol_of_even (even : d % 2 = 0) : symbol d = ⟨1⟩ := if_pos even

theorem symbol_of_odd (odd : d % 2 = 1) : symbol d = ⟨2⟩ := if_neg (by omega)

theorem symbol_congr (h : d % 2 = q % 2) : symbol d = symbol q := by
  rw [symbol, symbol, h]

theorem length_right (k : Nat) : (right k).length = k + 1 := by
  simp [right]

theorem getElem?_right (h : d < k) : (right k)[d]? = some (.nonterminal (symbol d)) := by
  simp [right, List.getElem?_append, h]

theorem mem_right (h : x ∈ right k) :
    x = .nonterminal ⟨1⟩ ∨ x = .nonterminal ⟨2⟩ ∨ x = .terminal ⟨1⟩ := by
  rw [right, List.mem_append, List.mem_singleton, List.mem_map] at h
  rcases h with ⟨d, _, rfl⟩ | rfl
  · rcases Nat.mod_two_eq_zero_or_one d with even | odd
    · exact .inl (congrArg _ (symbol_of_even even))
    · exact .inr (.inl (congrArg _ (symbol_of_odd odd)))
  · exact .inr (.inr rfl)

/-- The terminal comes after each nonterminal. -/
theorem terminal_mem_of_right_eq {front rest : List Symbol}
    (e : right k = front ++ .nonterminal n :: rest) : .terminal ⟨1⟩ ∈ rest := by
  rw [right] at e
  rcases List.eq_nil_or_concat rest with rfl | ⟨rest, y, rfl⟩
  · cases (List.append_inj' e rfl).2
  · rw [List.concat_eq_append, ← List.cons_append, ← List.append_assoc] at e
    obtain rfl := List.singleton_inj.1 (List.append_inj' e rfl).2
    simp

theorem right_succ (k : Nat) :
    right (k + 1) = (List.range k).map (fun d ↦ .nonterminal (symbol d)) ++
      .nonterminal (symbol k) :: [.terminal ⟨1⟩] := by
  simp [right, List.range_succ]

end Alternating

/-- The grammar of `S -> S Y S Y ... b`, `S -> ε` and `Y -> ε`. -/
def Grammar.alternating (k : Nat) : Grammar where
  terminals := #["$end", "b"]
  nonterminals := #["$start", "S", "Y"]
  terminals_zero := rfl
  nonterminals_zero := rfl
  names_nodup := by decide
  start := ⟨1⟩
  rules := #[.augmenting ⟨1⟩, ⟨⟨1⟩, (Alternating.right k).toArray⟩, ⟨⟨1⟩, #[]⟩, ⟨⟨2⟩, #[]⟩]
  start_declared := by decide
  rules_zero := rfl
  rules_declared := by
    intro r hr
    simp only [List.tail_cons, List.mem_cons, List.not_mem_nil, or_false] at hr
    rcases hr with rfl | rfl | rfl
    · refine ⟨⟨Nat.zero_lt_one, Nat.le_of_ble_eq_true rfl⟩, fun x hx ↦ ?_⟩
      rcases Alternating.mem_right hx with rfl | rfl | rfl <;> decide
    · decide
    · decide
  rules_nodup := by
    have ne : (Alternating.right k).toArray ≠ #[] := by
      intro e
      have length := congrArg Array.size e
      rw [List.size_toArray, Alternating.length_right] at length
      cases length
    simp [Rule.augmenting, Nonterminal.augmented, ne]

namespace Alternating

open Grammar

variable {k q : Nat} {d : UInt16} {x : Symbol} {i : Item} {r : RuleId} {t : Terminal}
  {core : List Item} {s : ItemSet}

theorem one_mem_rulesFor (even : q % 2 = 0) : ⟨1⟩ ∈ (alternating k).rulesFor (symbol q) := by
  rw [symbol_of_even even]
  exact mem_rulesFor.2 ⟨Nat.le_of_ble_eq_true rfl, rfl⟩

theorem two_mem_rulesFor (even : q % 2 = 0) : ⟨2⟩ ∈ (alternating k).rulesFor (symbol q) := by
  rw [symbol_of_even even]
  exact mem_rulesFor.2 ⟨Nat.le_of_ble_eq_true rfl, rfl⟩

theorem three_mem_rulesFor (odd : q % 2 = 1) : ⟨3⟩ ∈ (alternating k).rulesFor (symbol q) := by
  rw [symbol_of_odd odd]
  exact mem_rulesFor.2 ⟨Nat.le_of_ble_eq_true rfl, rfl⟩

theorem rulesFor_cases (h : r ∈ (alternating k).rulesFor (symbol q)) :
    q % 2 = 0 ∧ r = ⟨1⟩ ∨ q % 2 = 0 ∧ r = ⟨2⟩ ∨ q % 2 = 1 ∧ r = ⟨3⟩ := by
  obtain ⟨lt, left⟩ := mem_rulesFor.1 h
  rcases Nat.mod_two_eq_zero_or_one q with even | odd
  · rw [symbol_of_even even] at left
    obtain ⟨_ | _ | _ | _ | _⟩ := r
    · cases left
    · exact .inl ⟨even, rfl⟩
    · exact .inr (.inl ⟨even, rfl⟩)
    · cases left
    · exact absurd lt (Nat.not_lt_of_le (Nat.le_add_left ..))
  · rw [symbol_of_odd odd] at left
    obtain ⟨_ | _ | _ | _ | _⟩ := r
    · cases left
    · cases left
    · cases left
    · exact .inr (.inr ⟨odd, rfl⟩)
    · exact absurd lt (Nat.not_lt_of_le (Nat.le_add_left ..))

/-! ## The states -/

/-- The items after so many symbols. -/
inductive ReadBy (q : Nat) : Item → Prop
  | start {d : UInt16} (e : d.toNat = q) (lt : q < 2) : ReadBy q ⟨.accept, d⟩
  | long {d : UInt16} (le : d.toNat ≤ q) (parity : d.toNat % 2 = q % 2) : ReadBy q ⟨⟨1⟩, d⟩
  | even (parity : q % 2 = 0) : ReadBy q (.initial ⟨2⟩)
  | odd (parity : q % 2 = 1) : ReadBy q (.initial ⟨3⟩)

/-- The dot of the long rule is always in front of a nonterminal. -/
theorem next?_long (hk : 65536 ≤ k) (d : UInt16) :
    Item.next? (alternating k) ⟨⟨1⟩, d⟩ = some (.nonterminal (symbol d.toNat)) := by
  refine Eq.trans ?_ (getElem?_right (Nat.lt_of_lt_of_le d.toNat_lt hk))
  exact List.getElem?_toArray

theorem isComplete_long (hk : 65536 ≤ k) (d : UInt16) :
    Item.isComplete (alternating k) ⟨⟨1⟩, d⟩ = false := by
  have size : ((alternating k).rule ⟨1⟩).right.size = k + 1 := length_right k
  have lt : d.toNat < k + 1 := Nat.lt_succ_of_lt (Nat.lt_of_lt_of_le d.toNat_lt hk)
  rw [Item.isComplete, size]
  exact decide_eq_false (Nat.not_le_of_lt lt)

theorem eq_zero_of_next_start (next : Item.next? (alternating k) ⟨.accept, d⟩ = some x) :
    d = 0 := by
  have lt : d.toNat < 1 := Item.dot_lt_of_next next
  exact UInt16.toNat_inj.1 (Nat.lt_one_iff.1 lt)

theorem ReadBy.next (hk : 65536 ≤ k) (h : ReadBy q i) (next : i.next? (alternating k) = some x) :
    x = .nonterminal (symbol q) := by
  cases h with
  | start e lt =>
    obtain rfl := eq_zero_of_next_start next
    obtain rfl := e
    exact (Option.some.inj next).symm
  | long le parity =>
    rw [next?_long hk, symbol_congr parity] at next
    exact (Option.some.inj next).symm
  | even => cases next
  | odd => cases next

theorem ReadBy.initial (hr : r ∈ (alternating k).rulesFor (symbol q)) : ReadBy q (.initial r) := by
  rcases rulesFor_cases hr with ⟨even, rfl⟩ | ⟨even, rfl⟩ | ⟨odd, rfl⟩
  · exact .long (Nat.zero_le q) even.symm
  · exact .even even
  · exact .odd odd

/-- A closure holds the items after so many symbols if it holds the moved ones and an item with the
dot in front of what comes next. -/
theorem mem_closure_iff_readBy (hk : 65536 ≤ k) (sound : ∀ i ∈ core, ReadBy q i)
    (complete : ∀ i, ReadBy q i →
      i ∈ core ∨ ∃ r ∈ (alternating k).rulesFor (symbol q), i = .initial r)
    (here : ∃ i ∈ core, i.next? (alternating k) = some (.nonterminal (symbol q))) :
    i ∈ ItemSet.closure (alternating k) core ↔ ReadBy q i := by
  constructor
  · intro hi
    refine ItemSet.closure_induction sound (fun i n r _ h next hr ↦ ?_) i hi
    obtain rfl := Symbol.nonterminal.inj (h.next hk next)
    exact .initial hr
  · intro h
    rcases complete i h with hi | ⟨r, hr, rfl⟩
    · exact ItemSet.mem_closure_of_mem hi
    · obtain ⟨j, hj, next⟩ := here
      exact ItemSet.initial_mem_closure (ItemSet.mem_closure_of_mem hj) next hr

theorem mem_initial_iff_readBy (hk : 65536 ≤ k) :
    i ∈ ItemSet.initial (alternating k) ↔ ReadBy 0 i := by
  refine mem_closure_iff_readBy hk ?_ (fun i h ↦ ?_) ⟨_, List.mem_singleton_self _, rfl⟩
  · intro i hi
    rw [List.mem_singleton.1 hi]
    exact .start rfl (Nat.zero_lt_succ 1)
  · cases h with
    | @start d e =>
      obtain rfl : d = 0 := UInt16.toNat_inj.1 e
      exact .inl (List.mem_singleton_self _)
    | @long d le =>
      obtain rfl : d = 0 := UInt16.toNat_inj.1 (Nat.le_zero.1 le)
      exact .inr ⟨_, one_mem_rulesFor rfl, rfl⟩
    | even => exact .inr ⟨_, two_mem_rulesFor rfl, rfl⟩
    | odd parity => cases parity

/-- How many symbols lead to the items after one symbol more. -/
def succ (q : Nat) : Nat := if q = 65535 then 65534 else q + 1

theorem succ_cases (q : Nat) : q = 65535 ∧ succ q = 65534 ∨ q ≠ 65535 ∧ succ q = q + 1 := by
  rw [succ]
  split
  · next e => exact .inl ⟨e, rfl⟩
  · next ne => exact .inr ⟨ne, rfl⟩

theorem toNat_add_one (d : UInt16) : (d + 1).toNat = (d.toNat + 1) % 65536 := UInt16.toNat_add d 1

theorem ReadBy.moved (hq : q < 65536) (h : ReadBy q i)
    (next : i.next? (alternating k) = some x) : ReadBy (succ q) i.moved := by
  have target := succ_cases q
  cases h with
  | start e lt =>
    obtain rfl := eq_zero_of_next_start next
    have zero : q = 0 := e.symm
    refine .start ?_ ?_
    · rw [toNat_add_one]
      simp only [UInt16.toNat_zero]
      omega
    · omega
  | @long d le parity =>
    have position := toNat_add_one d
    show ReadBy (succ q) ⟨⟨1⟩, d + 1⟩
    exact .long (by omega) (by omega)
  | even => cases next
  | odd => cases next

/-- An item of the long rule with a moved dot comes from another. -/
theorem exists_moved_eq_long (hk : 65536 ≤ k) (hq : q < 65536) (le : d.toNat ≤ succ q)
    (parity : d.toNat % 2 = succ q % 2) (ne : d.toNat ≠ 0) :
    ∃ j, ReadBy q j ∧ j.next? (alternating k) = some (.nonterminal (symbol q)) ∧
      j.moved = ⟨⟨1⟩, d⟩ := by
  have target := succ_cases q
  have position : (d - 1).toNat = d.toNat - 1 :=
    UInt16.toNat_sub_of_le d 1 (UInt16.le_iff_toNat_le.2 (Nat.pos_of_ne_zero ne))
  have parity' : (d - 1).toNat % 2 = q % 2 := by omega
  refine ⟨⟨⟨1⟩, d - 1⟩, .long (by omega) parity', ?_, ?_⟩
  · rw [next?_long hk, symbol_congr parity']
  · exact congrArg (Item.mk ⟨1⟩) (UInt16.sub_add_cancel d 1)

theorem mem_goto_iff_readBy (hk : 65536 ≤ k) (hq : q < 65536) (hs : ∀ i, i ∈ s ↔ ReadBy q i) :
    i ∈ s.goto (alternating k) (.nonterminal (symbol q)) ↔ ReadBy (succ q) i := by
  have target := succ_cases q
  have entered : ∀ d : UInt16, d.toNat ≤ succ q → d.toNat % 2 = succ q % 2 → d.toNat ≠ 0 →
      ⟨⟨1⟩, d⟩ ∈ s.kernel (alternating k) (.nonterminal (symbol q)) := by
    intro d le parity ne
    obtain ⟨j, hj, next, moved⟩ := exists_moved_eq_long hk hq le parity ne
    exact ItemSet.mem_kernel.2 ⟨j, (hs j).2 hj, next, moved⟩
  refine mem_closure_iff_readBy hk (fun i hi ↦ ?_) (fun i h ↦ ?_) ?_
  · obtain ⟨j, hj, next, rfl⟩ := ItemSet.mem_kernel.1 hi
    exact ((hs j).1 hj).moved hq next
  · cases h with
    | @start d e lt =>
      obtain rfl : q = 0 := by omega
      obtain rfl : d = 1 := UInt16.toNat_inj.1 e
      have first : ⟨.accept, 0⟩ ∈ s := (hs _).2 (.start rfl (Nat.zero_lt_succ 1))
      exact .inl (ItemSet.mem_kernel.2 ⟨_, first, rfl, rfl⟩)
    | @long d le parity =>
      by_cases zero : d.toNat = 0
      · obtain rfl : d = 0 := UInt16.toNat_inj.1 zero
        exact .inr ⟨_, one_mem_rulesFor parity.symm, rfl⟩
      · exact .inl (entered d le parity zero)
    | even parity => exact .inr ⟨_, two_mem_rulesFor parity, rfl⟩
    | odd parity => exact .inr ⟨_, three_mem_rulesFor parity, rfl⟩
  · -- the item that has come furthest is in front of the next symbol
    have bound : succ q < 65536 := by omega
    have position : (UInt16.ofNat (succ q)).toNat = succ q := UInt16.toNat_ofNat_of_lt' bound
    refine ⟨_, entered (.ofNat (succ q)) (Nat.le_of_eq position) ?_ ?_, ?_⟩
    · rw [position]
    · omega
    · rw [next?_long hk, position]

/-- The states in the order in which they are found. -/
def state (k : Nat) : Nat → ItemSet
  | 0 => .initial (alternating k)
  | q + 1 => (state k q).goto (alternating k) (.nonterminal (symbol q))

theorem mem_state (hk : 65536 ≤ k) (hq : q < 65536) : i ∈ state k q ↔ ReadBy q i := by
  induction q generalizing i with
  | zero => exact mem_initial_iff_readBy hk
  | succ q ih =>
    have lt := Nat.lt_of_succ_lt hq
    refine (mem_goto_iff_readBy hk lt fun i ↦ ih lt).trans ?_
    rw [succ, if_neg (by omega)]

/-- Only the symbol that comes next is entered. -/
theorem eq_of_kernel_state (hk : 65536 ≤ k) (hq : q < 65536)
    (ne : (state k q).kernel (alternating k) x ≠ []) : x = .nonterminal (symbol q) := by
  obtain ⟨j, hj⟩ := List.exists_mem_of_ne_nil _ ne
  obtain ⟨i, hi, next, _⟩ := ItemSet.mem_kernel.1 hj
  exact ((mem_state hk hq).1 hi).next hk next

theorem exists_canonical (hk : 65536 ≤ k) :
    ∃ c, Collection.canonical (alternating k) = some c ∧
      c.Within ((List.range 65536).map (state k)) := by
  refine Collection.exists_canonical ?_ ?_ fun s hs x ne ↦ ?_
  · rw [List.length_map, List.length_range]
    exact Nat.le_refl _
  · exact List.mem_map.2 ⟨0, List.mem_range.2 (Nat.zero_lt_succ _), rfl⟩
  · obtain ⟨q, hq, rfl⟩ := List.mem_map.1 hs
    have lt := List.mem_range.1 hq
    obtain rfl := eq_of_kernel_state hk lt ne
    rcases succ_cases q with ⟨_, back⟩ | ⟨last, _⟩
    · -- the last state leads back
      have lt' : 65534 < 65536 := Nat.le_of_ble_eq_true rfl
      refine List.mem_map.2 ⟨65534, List.mem_range.2 lt', ItemSet.ext fun i ↦ ?_⟩
      rw [mem_state hk lt', mem_goto_iff_readBy hk lt fun i ↦ mem_state hk lt, back]
    · exact List.mem_map.2 ⟨q + 1, List.mem_range.2 (by omega), rfl⟩

/-! ## No conflicts -/

/-- The terminal comes after each `Y` of a rule. -/
theorem terminal_mem_after {x : Rule} {front rest : List Symbol}
    (mem : x ∈ (alternating k).rules.toList)
    (e : x.right.toList = front ++ .nonterminal ⟨2⟩ :: rest) : .terminal ⟨1⟩ ∈ rest := by
  simp only [alternating, List.mem_cons, List.not_mem_nil, or_false] at mem
  rcases mem with rfl | rfl | rfl | rfl
  · rcases List.singleton_eq_append_iff.1 e with ⟨_, single⟩ | ⟨_, none⟩
    · cases single
    · cases none
  · exact terminal_mem_of_right_eq e
  · cases (List.append_eq_nil_iff.1 e.symm).2
  · cases (List.append_eq_nil_iff.1 e.symm).2

/-- The end of the input does not follow `Y`. -/
theorem endOfInput_not_mem_follow :
    .endOfInput ∉ (FirstFollow.ofGrammar (alternating k)).follow ⟨2⟩ := by
  intro h
  have unmoved : ∀ m, IndexSet.Path (alternating k).endedBy ⟨2⟩ m → m = ⟨2⟩ := by
    intro m path
    induction path with
    | refl => rfl
    | tail _ link ih =>
      obtain ⟨x, hx, _, front, rest, e, null⟩ := mem_endedBy.1 (ih ▸ link)
      rw [FirstTable.nullable_firstOf] at null
      cases List.all_eq_true.1 null _ (terminal_mem_after hx e)
  obtain ⟨m, path, h⟩ := (mem_follow (Nat.le_of_ble_eq_true rfl)).1 h
  obtain rfl := unmoved m path
  rcases mem_nextInRules.1 h with ⟨e, _⟩ | ⟨x, hx, front, rest, e, h⟩
  · cases e
  · obtain ⟨id, _, rfl⟩ := mem_rules_iff.1 hx
    have declared : ∀ s ∈ rest, (alternating k).Declares s :=
      fun s hs ↦ declares_of_mem_right (by rw [e]; simp [hs])
    exact not_declares_endOfInput (declares_of_mem_firstOf declared h)

theorem nullable_first_symbol (q : Nat) :
    ((FirstTable.ofGrammar (alternating k)).first (.nonterminal (symbol q))).nullable = true := by
  rcases Nat.mod_two_eq_zero_or_one q with even | odd
  · rw [symbol_of_even even]
    exact nullable_first_of_rule (r := ⟨⟨1⟩, #[]⟩) (by simp [alternating]) rfl
  · rw [symbol_of_odd odd]
    exact nullable_first_of_rule (r := ⟨⟨2⟩, #[]⟩) (by simp [alternating]) rfl

/-- The terminal follows both `S` and `Y`. -/
theorem terminal_mem_follow (hk : 2 ≤ k) (q : Nat) :
    ⟨1⟩ ∈ (FirstFollow.ofGrammar (alternating k)).follow (symbol q) := by
  obtain ⟨k, rfl⟩ := Nat.exists_eq_add_of_le' hk
  have mem : ⟨⟨1⟩, (right (k + 2)).toArray⟩ ∈ (alternating (k + 2)).rules.toList := by
    simp [alternating]
  by_cases parity : q % 2 = (k + 1) % 2
  · rw [symbol_congr parity]
    exact mem_follow_of_rule mem (right_succ (k + 1)) (by simp)
  · have e : symbol q = symbol k := symbol_congr (by omega)
    have split : right (k + 2) = (List.range k).map (fun d ↦ .nonterminal (symbol d)) ++
        .nonterminal (symbol k) :: [.nonterminal (symbol (k + 1)), .terminal ⟨1⟩] := by
      rw [right_succ, List.range_succ]
      simp
    rw [e]
    refine mem_follow_of_rule mem split (FirstTable.mem_firstOf_cons.2 (.inr ?_))
    exact ⟨nullable_first_symbol (k + 1), by simp⟩

/-- The rule that is reduced ahead of a terminal. -/
theorem ReadBy.rule_eq (hk : 65536 ≤ k) (h : ReadBy q i)
    (complete : i.isComplete (alternating k) = true)
    (ht : t ∈ (FirstFollow.ofGrammar (alternating k)).follow ((alternating k).rule i.rule).left) :
    i.rule = if q % 2 = 0 then ⟨2⟩ else if t = .endOfInput then .accept else ⟨3⟩ := by
  cases h with
  | @start d e lt =>
    have le : 1 ≤ d.toNat := of_decide_eq_true complete
    rw [if_neg (by omega), if_pos (eq_endOfInput_of_mem_follow_augmented ht)]
  | long =>
    rw [isComplete_long hk] at complete
    cases complete
  | even parity =>
    rw [if_pos parity]
    rfl
  | odd parity =>
    have ne : t ≠ .endOfInput := fun e ↦ endOfInput_not_mem_follow (e ▸ ht)
    rw [if_neg (by omega), if_neg ne]
    rfl

theorem consistent_state (hk : 65536 ≤ k) (hq : q < 65536) :
    (state k q).Consistent (alternating k) where
  shift i _ _ t _ := by
    apply Classical.byContradiction
    intro ne
    cases eq_of_kernel_state hk hq ne
  reduce i hi complete j hj complete' t ht hu := by
    rw [((mem_state hk hq).1 hi).rule_eq hk complete ht,
      ((mem_state hk hq).1 hj).rule_eq hk complete' hu]

/-- The grammar has an automaton. -/
theorem exists_build (hk : 65536 ≤ k) : ∃ a, Automaton.build (alternating k) = .ok a := by
  obtain ⟨c, h, within⟩ := exists_canonical hk
  apply Automaton.exists_build_of_consistent h
  intro id s place
  obtain ⟨q, hq, rfl⟩ := List.mem_map.1 (within id s place)
  exact consistent_state hk (List.mem_range.1 hq)

end Alternating

end SimpleLR

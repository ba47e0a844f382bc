/-!
# Sets of indexed things

Symbols, rules and states are numbered from zero. A finite set of such things is kept as one
natural number whose bits say which numbers belong to it, so two sets with the same members are
equal (`IndexSet.ext`).
-/

namespace SimpleLR

/-- A type whose members are numbered by the natural numbers. -/
class Indexed (α : Type) where
  /-- The number of a member. -/
  index : α → Nat
  /-- The member of that number. -/
  ofIndex : Nat → α
  index_ofIndex : ∀ i, index (ofIndex i) = i
  ofIndex_index : ∀ a, ofIndex (index a) = a

export Indexed (index ofIndex)

attribute [simp] Indexed.index_ofIndex Indexed.ofIndex_index

/-- Natural numbers number themselves. -/
instance : Indexed Nat := ⟨id, id, fun _ => rfl, fun _ => rfl⟩

theorem Indexed.index_inj {α : Type} [Indexed α] {a b : α} : index a = index b ↔ a = b :=
  ⟨fun h => by rw [← Indexed.ofIndex_index a, h, Indexed.ofIndex_index], congrArg index⟩

/-- A finite set of indexed things: `a` belongs to it when bit `index a` is set. -/
structure IndexSet (α : Type) where
  bits : Nat

namespace IndexSet

variable {α β : Type} [Indexed α] [Indexed β] {s t : IndexSet α} {a b : α}

omit [Indexed α] in
theorem bits_inj : s.bits = t.bits ↔ s = t := by
  cases s; cases t; simp

instance {α : Type} : DecidableEq (IndexSet α) := fun _ _ => decidable_of_iff _ bits_inj

instance : Membership α (IndexSet α) := ⟨fun s a => s.bits.testBit (index a) = true⟩

instance : Decidable (a ∈ s) := inferInstanceAs (Decidable (s.bits.testBit (index a) = true))

instance : EmptyCollection (IndexSet α) := ⟨⟨0⟩⟩

instance : Union (IndexSet α) := ⟨fun s t => ⟨s.bits ||| t.bits⟩⟩

theorem mem_def : a ∈ s ↔ s.bits.testBit (index a) = true := Iff.rfl

/-- Sets with the same members are equal. -/
theorem ext (h : ∀ a, a ∈ s ↔ a ∈ t) : s = t := by
  obtain ⟨m⟩ := s
  obtain ⟨n⟩ := t
  congr 1
  refine Nat.eq_of_testBit_eq fun i => ?_
  have := h (ofIndex i)
  simp only [mem_def, Indexed.index_ofIndex] at this
  exact Bool.eq_iff_iff.2 this

@[simp] theorem not_mem_empty : a ∉ (∅ : IndexSet α) := by
  simp [mem_def, EmptyCollection.emptyCollection]

@[simp] theorem mem_union : a ∈ s ∪ t ↔ a ∈ s ∨ a ∈ t := by
  simp [mem_def, Union.union]

/-- The set with one more member. -/
def insert (s : IndexSet α) (a : α) : IndexSet α := ⟨s.bits ||| 1 <<< index a⟩

@[simp] theorem mem_insert : b ∈ s.insert a ↔ b ∈ s ∨ b = a := by
  simp only [mem_def, insert, Nat.one_shiftLeft, Nat.testBit_or, Nat.testBit_two_pow,
    Bool.or_eq_true, decide_eq_true_eq, Indexed.index_inj]
  exact or_congr Iff.rfl eq_comm

/-- The set of one member. -/
def single (a : α) : IndexSet α := insert ∅ a

@[simp] theorem mem_single : b ∈ single a ↔ b = a := by simp [single]

/-- The set of the members of a list. -/
def ofList (as : List α) : IndexSet α := as.foldl insert ∅

theorem mem_foldl_insert {as : List α} : b ∈ as.foldl insert s ↔ b ∈ s ∨ b ∈ as := by
  induction as generalizing s with
  | nil => simp
  | cons a as ih => simp [ih, or_assoc]

@[simp] theorem mem_ofList {as : List α} : b ∈ ofList as ↔ b ∈ as := by
  simp [ofList, mem_foldl_insert]

/-- One, doubled so many times. -/
def doubled : Nat → Nat
  | 0 => 1
  | n + 1 => 2 * doubled n

theorem lt_doubled_log2 (n : Nat) : n < doubled (n.log2 + 1) := by
  have e : ∀ m, doubled m = 1 <<< m := fun m => by
    induction m with
    | zero => rfl
    | succ m ih => rw [doubled, ih, Nat.one_shiftLeft, Nat.one_shiftLeft, Nat.pow_succ, Nat.mul_comm]
  rw [e, Nat.one_shiftLeft]
  exact Nat.lt_log2_self

/-- The places of the set bits among the lowest `doubled level` bits, each raised by `offset`; the
number is cut in halves, so that a large one is not searched bit by bit. -/
def bitPlaces : (level offset bits : Nat) → List Nat
  | 0, offset, bits => if bits.testBit 0 then [offset] else []
  | level + 1, offset, bits =>
    if bits = 0 then []
    else bitPlaces level offset (bits % 1 <<< doubled level) ++
      bitPlaces level (offset + doubled level) (bits >>> doubled level)

theorem mem_bitPlaces {level offset bits i : Nat} :
    i ∈ bitPlaces level offset bits ↔
      offset ≤ i ∧ i < offset + doubled level ∧ bits.testBit (i - offset) = true := by
  induction level generalizing offset bits with
  | zero =>
    unfold bitPlaces
    split
    · next h =>
      simp only [List.mem_singleton, doubled]
      constructor
      · rintro rfl
        simpa using h
      · omega
    · next h =>
      simp only [List.not_mem_nil, false_iff, doubled]
      rintro ⟨h₁, h₂, h₃⟩
      rw [show i - offset = 0 by omega] at h₃
      exact h h₃
  | succ level ih =>
    unfold bitPlaces
    split
    · next h => simp [h]
    · simp only [List.mem_append, ih, Nat.one_shiftLeft, Nat.testBit_mod_two_pow,
        Nat.testBit_shiftRight, Bool.and_eq_true, decide_eq_true_eq, doubled]
      by_cases h : i < offset + doubled level
      · constructor
        · rintro (⟨h₁, h₂, h₃, h₄⟩ | ⟨h₁, -⟩)
          · exact ⟨h₁, by omega, h₄⟩
          · omega
        · rintro ⟨h₁, h₂, h₃⟩
          exact .inl ⟨h₁, h, by omega, h₃⟩
      · have e : doubled level + (i - (offset + doubled level)) = i - offset := by omega
        rw [e]
        constructor
        · rintro (⟨h₁, h₂, -⟩ | ⟨h₁, h₂, h₃⟩)
          · omega
          · exact ⟨by omega, by omega, h₃⟩
        · rintro ⟨h₁, h₂, h₃⟩
          exact .inr ⟨by omega, by omega, h₃⟩

theorem bitPlaces_ascending (level offset bits : Nat) :
    (bitPlaces level offset bits).Pairwise (· < ·) := by
  induction level generalizing offset bits with
  | zero => unfold bitPlaces; split <;> simp
  | succ level ih =>
    unfold bitPlaces
    split
    · simp
    · refine List.pairwise_append.2 ⟨ih _ _, ih _ _, fun i hi j hj => ?_⟩
      have := mem_bitPlaces.1 hi
      have := mem_bitPlaces.1 hj
      omega

/-- The members in ascending order of their numbers. -/
def toList (s : IndexSet α) : List α :=
  (bitPlaces (s.bits.log2.log2 + 1) 0 s.bits).map ofIndex

theorem index_lt_of_mem (h : a ∈ s) : index a < doubled (s.bits.log2.log2 + 1) := by
  have h := Nat.ge_two_pow_of_testBit h
  have : index a ≤ s.bits.log2 :=
    (Nat.le_log2 (by have := Nat.two_pow_pos (index a); omega)).2 h
  have := lt_doubled_log2 s.bits.log2
  omega

@[simp] theorem mem_toList : a ∈ s.toList ↔ a ∈ s := by
  simp only [toList, List.mem_map, mem_bitPlaces]
  constructor
  · rintro ⟨i, ⟨_, _, hi⟩, rfl⟩
    simpa [mem_def] using hi
  · exact fun h => ⟨index a, ⟨by omega, by have := index_lt_of_mem h; omega, h⟩,
      Indexed.ofIndex_index a⟩

theorem toList_ascending (s : IndexSet α) :
    s.toList.Pairwise (fun a b => index a < index b) := by
  simp only [toList, List.pairwise_map, Indexed.index_ofIndex]
  exact bitPlaces_ascending _ _ _

/-- The number of members. -/
def size (s : IndexSet α) : Nat := s.toList.length

/-- Whether there is no member. -/
def isEmpty (s : IndexSet α) : Bool := s.bits == 0

omit [Indexed α] in
@[simp] theorem isEmpty_iff : s.isEmpty = true ↔ s = ∅ := by
  obtain ⟨n⟩ := s
  simp [isEmpty, EmptyCollection.emptyCollection]

/-- The union of the sets of a list. -/
def unions (l : List (IndexSet α)) : IndexSet α := l.foldl (· ∪ ·) ∅

theorem mem_foldl_union {l : List (IndexSet α)} :
    a ∈ l.foldl (· ∪ ·) s ↔ a ∈ s ∨ ∃ t ∈ l, a ∈ t := by
  induction l generalizing s with
  | nil => simp
  | cons t l ih => simp [ih, or_assoc]

@[simp] theorem mem_unions {l : List (IndexSet α)} : a ∈ unions l ↔ ∃ t ∈ l, a ∈ t := by
  simp [unions, mem_foldl_union]

/-- The union of the sets that the members are sent to. -/
def bind (s : IndexSet α) (f : α → IndexSet β) : IndexSet β := unions (s.toList.map f)

@[simp] theorem mem_bind {f : α → IndexSet β} {b : β} : b ∈ s.bind f ↔ ∃ a ∈ s, b ∈ f a := by
  simp only [bind, mem_unions, List.mem_map, mem_toList]
  exact ⟨fun ⟨_, ⟨a, ha, e⟩, hb⟩ => ⟨a, ha, e ▸ hb⟩, fun ⟨a, ha, hb⟩ => ⟨_, ⟨a, ha, rfl⟩, hb⟩⟩

end IndexSet

end SimpleLR

import SimpleLR.Grammar.Basic

/-!
# Items

An item is a rule with a dot at a position of its right side. Positions are kept in 16 bits, and
are added up without a check for overflow: advancing the dot past position 65535 leads back to
position 0. Where overflow is checked, as it is while a program is developed and tested, that step
stops the program, and up to it nothing differs. A set of items is kept as the ascending list of its
members, so two sets with the same members are equal (`ItemSet.ext`).
-/

namespace SimpleLR

/-- A rule with a dot before the symbol at that position of its right side. -/
structure Item where
  rule : RuleId
  dot : UInt16
deriving DecidableEq, Repr

namespace Item

/-- The item with the dot in front of the right side. -/
def initial (r : RuleId) : Item := ⟨r, 0⟩

/-- The symbol after the dot. -/
def next? (g : Grammar) (i : Item) : Option Symbol := (g.rule i.rule).right[i.dot.toNat]?

/-- Whether no symbol is after the dot. -/
def isComplete (g : Grammar) (i : Item) : Bool := (g.rule i.rule).right.size ≤ i.dot.toNat

/-- The item with the dot moved over the next symbol; from position 65535 it goes back to 0. -/
def advance? (g : Grammar) (i : Item) : Option Item :=
  if i.isComplete g then none else some { i with dot := i.dot + 1 }

/-- The symbols of a right side, each in a word of its own, and a dot at a position. -/
def renderFrom (name : Symbol → String) (dot : Nat) : List Symbol → String
  | [] => " ."
  | s :: rest =>
    match dot with
    | 0 => " ." ++ String.join ((s :: rest).map fun s => " " ++ name s)
    | dot + 1 => " " ++ name s ++ renderFrom name dot rest

/-- The text of an item, such as `A -> x . y`. -/
def render (g : Grammar) (i : Item) : String :=
  let r := g.rule i.rule
  g.nonterminalName r.left ++ " ->" ++ renderFrom g.symbolName i.dot.toNat r.right.toList

/-- The place of an item in the order of items, which is by rule and then by the position of the
dot. -/
def code (i : Item) : Nat := 65536 * i.rule.index + i.dot.toNat

variable {i j k : Item}

theorem code_inj : i.code = j.code ↔ i = j := by
  refine ⟨fun h => ?_, congrArg code⟩
  obtain ⟨⟨r⟩, d⟩ := i
  obtain ⟨⟨s⟩, e⟩ := j
  have hd := d.toNat_lt
  have he := e.toNat_lt
  simp only [code] at h
  simp only [mk.injEq, RuleId.mk.injEq, ← UInt16.toNat_inj]
  omega

/-- One item comes before another. -/
def Before (i j : Item) : Prop := i.code < j.code

instance : DecidableRel Before := fun i j => inferInstanceAs (Decidable (i.code < j.code))

theorem Before.trans (h : i.Before j) (h' : j.Before k) : i.Before k := Nat.lt_trans h h'

theorem not_before_self (i : Item) : ¬ i.Before i := Nat.lt_irrefl i.code

theorem before_or_eq_or_before (i j : Item) : i.Before j ∨ i = j ∨ j.Before i := by
  rcases Nat.lt_trichotomy i.code j.code with h | h | h
  · exact .inl h
  · exact .inr (.inl (code_inj.1 h))
  · exact .inr (.inr h)

/-- Puts an item into an ascending list, unless it is there already. -/
def insertInto (i : Item) : List Item → List Item
  | [] => [i]
  | j :: rest =>
    if i.Before j then i :: j :: rest else if i = j then j :: rest else j :: insertInto i rest

@[simp] theorem mem_insertInto {l : List Item} : j ∈ insertInto i l ↔ j = i ∨ j ∈ l := by
  induction l with
  | nil => simp [insertInto]
  | cons k l ih =>
    unfold insertInto
    split
    · simp
    · split
      · simp_all
      · simp only [List.mem_cons, ih]
        grind

theorem insertInto_ascending {l : List Item} (h : l.Pairwise Before) :
    (insertInto i l).Pairwise Before := by
  induction l with
  | nil => simp [insertInto]
  | cons k l ih =>
    obtain ⟨hk, hl⟩ := List.pairwise_cons.1 h
    unfold insertInto
    split
    · next hi =>
      refine List.pairwise_cons.2 ⟨fun j hj => ?_, h⟩
      rcases List.mem_cons.1 hj with rfl | hj
      · exact hi
      · exact hi.trans (hk j hj)
    · split
      · exact h
      · next hi hne =>
        refine List.pairwise_cons.2 ⟨fun j hj => ?_, ih hl⟩
        rcases mem_insertInto.1 hj with rfl | hj
        · have := before_or_eq_or_before j k
          grind
        · exact hk j hj

end Item

/-- A set of items, as the ascending list of its members. -/
structure ItemSet where
  items : List Item
  ascending : items.Pairwise Item.Before
deriving DecidableEq

namespace ItemSet

instance : Membership Item ItemSet := ⟨fun s i => i ∈ s.items⟩

instance (i : Item) (s : ItemSet) : Decidable (i ∈ s) := inferInstanceAs (Decidable (i ∈ s.items))

/-- The set of no item. -/
def empty : ItemSet := ⟨[], .nil⟩

/-- The set with one more item. -/
def insert (s : ItemSet) (i : Item) : ItemSet :=
  ⟨i.insertInto s.items, Item.insertInto_ascending s.ascending⟩

/-- The set of the items of a list. -/
def ofList (l : List Item) : ItemSet := l.foldr (fun i s => s.insert i) empty

/-- The codes of the items; they tell sets apart. -/
def codes (s : ItemSet) : List Nat := s.items.map Item.code

/-- The number of items. -/
def size (s : ItemSet) : Nat := s.items.length

/-- Whether there is no item. -/
def isEmpty (s : ItemSet) : Bool := s.items.isEmpty

variable {s t : ItemSet} {i j : Item}

theorem mem_def : i ∈ s ↔ i ∈ s.items := Iff.rfl

@[simp] theorem not_mem_empty : i ∉ empty := List.not_mem_nil

@[simp] theorem mem_insert : j ∈ s.insert i ↔ j = i ∨ j ∈ s := Item.mem_insertInto

@[simp] theorem mem_ofList {l : List Item} : i ∈ ofList l ↔ i ∈ l := by
  induction l with
  | nil => simp [ofList]
  | cons j l ih => simpa [ofList] using or_congr_right ih

theorem eq_of_mem_iff {l m : List Item} (hl : l.Pairwise Item.Before) (hm : m.Pairwise Item.Before)
    (h : ∀ i, i ∈ l ↔ i ∈ m) : l = m := by
  induction l generalizing m with
  | nil =>
    cases m with
    | nil => rfl
    | cons j m => exact absurd ((h j).2 (by simp)) (by simp)
  | cons i l ih =>
    cases m with
    | nil => exact absurd ((h i).1 (by simp)) (by simp)
    | cons j m =>
      obtain ⟨hi, hl'⟩ := List.pairwise_cons.1 hl
      obtain ⟨hj, hm'⟩ := List.pairwise_cons.1 hm
      have hij : i = j := by
        rcases List.mem_cons.1 ((h i).1 (by simp)) with e | hi'
        · exact e
        · rcases List.mem_cons.1 ((h j).2 (by simp)) with e | hj'
          · exact e.symm
          · exact absurd ((hj i hi').trans (hi j hj')) (Item.not_before_self j)
      subst hij
      refine congrArg (i :: ·) (ih hl' hm' fun k => ?_)
      have hk := h k
      simp only [List.mem_cons] at hk
      constructor
      · intro hkl
        rcases hk.1 (.inr hkl) with rfl | hkm
        · exact absurd (hi k hkl) (Item.not_before_self k)
        · exact hkm
      · intro hkm
        rcases hk.2 (.inr hkm) with rfl | hkl
        · exact absurd (hj k hkm) (Item.not_before_self k)
        · exact hkl

/-- Sets with the same members are equal. -/
theorem ext (h : ∀ i, i ∈ s ↔ i ∈ t) : s = t := by
  obtain ⟨l, hl⟩ := s
  obtain ⟨m, hm⟩ := t
  congr 1
  exact eq_of_mem_iff hl hm h

theorem codes_inj : s.codes = t.codes ↔ s = t := by
  refine ⟨fun h => ?_, congrArg codes⟩
  obtain ⟨l, hl⟩ := s
  obtain ⟨m, hm⟩ := t
  congr 1
  exact List.map_inj_right (fun _ _ => Item.code_inj.1) |>.1 h

end ItemSet

end SimpleLR

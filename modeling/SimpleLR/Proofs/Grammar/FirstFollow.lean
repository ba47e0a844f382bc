import SimpleLR.Grammar.FirstFollow
import SimpleLR.Proofs.Grammar.Forms

/-!
# FIRST and FOLLOW sets hold everything that can come next

The rules are gone through for nullable nonterminals until nothing is added any more. So the tables
of a grammar are closed under its rules: a nonterminal is nullable as soon as one of its right sides
is (`left_mem_nullable`), and its FIRST set holds the FIRST sets of its right sides
(`mem_first_of_rule`).  Rewriting a form therefore adds nothing to its FIRST set
(`Rewrites.mem_firstOf`), and whatever begins the part of a sentential form after a nonterminal
belongs to the FOLLOW set of that nonterminal (`followedBy_of_derives`).
-/

namespace SimpleLR

/-! ## Sequences -/

namespace FirstTable

variable {f : FirstTable} {s : Symbol} {a b l : List Symbol} {t : Terminal} {n : Nonterminal}

/-- A sequence is nullable when all its symbols are. -/
theorem nullable_firstOf_cons :
    (f.firstOf (s :: l)).nullable = ((f.first s).nullable && (f.firstOf l).nullable) := by
  rw [firstOf]
  cases h : (f.first s).nullable <;> simp [h]

/-- FIRST of a sequence: that of its head, and that of its tail behind a nullable head. -/
theorem mem_firstOf_cons :
    t ∈ (f.firstOf (s :: l)).terminals ↔
      t ∈ (f.first s).terminals ∨ (f.first s).nullable = true ∧ t ∈ (f.firstOf l).terminals := by
  rw [firstOf]
  cases h : (f.first s).nullable <;> simp

@[simp] theorem nullable_firstOf_nil : (f.firstOf []).nullable = true := rfl

@[simp] theorem not_mem_firstOf_nil : t ∉ (f.firstOf []).terminals := IndexSet.not_mem_empty

@[simp] theorem mem_firstOf_terminal_cons {u : Terminal} :
    t ∈ (f.firstOf (.terminal u :: l)).terminals ↔ t = u := by
  simp [mem_firstOf_cons, first]

theorem nullable_firstOf_append :
    (f.firstOf (a ++ b)).nullable = ((f.firstOf a).nullable && (f.firstOf b).nullable) := by
  induction a with
  | nil => simp
  | cons s a ih => simp [nullable_firstOf_cons, ih, Bool.and_assoc]

theorem mem_firstOf_append :
    t ∈ (f.firstOf (a ++ b)).terminals ↔
      t ∈ (f.firstOf a).terminals ∨ (f.firstOf a).nullable = true ∧
        t ∈ (f.firstOf b).terminals := by
  induction a with
  | nil => simp
  | cons s a ih =>
    simp only [List.cons_append, mem_firstOf_cons, nullable_firstOf_cons, ih, Bool.and_eq_true]
    rw [and_or_left, or_assoc, and_assoc]

/-- A sequence is nullable in the sense of the table when it is in the sense of its first part. -/
theorem nullable_firstOf : (f.firstOf l).nullable = nullableIn f.nulls l := by
  induction l with
  | nil => rfl
  | cons s l ih =>
    rw [nullable_firstOf_cons, ih]
    cases s <;> simp [first, nullableIn]

theorem nullable_firstOf_singleton : (f.firstOf [s]).nullable = (f.first s).nullable := by
  simp [nullable_firstOf_cons]

theorem mem_firstOf_singleton :
    t ∈ (f.firstOf [s]).terminals ↔ t ∈ (f.first s).terminals := by
  simp [mem_firstOf_cons]

theorem nullable_first : (f.first s).nullable = f.isNullable s := by
  cases s <;> rfl

/-- What begins a sequence ends its nullable beginning or begins a nonterminal behind such a
beginning. -/
theorem mem_leading_of_mem_firstOf (h : t ∈ (f.firstOf l).terminals) :
    t ∈ leadingTerminals f.nulls l ∨
      ∃ n ∈ leadingNonterminals f.nulls l, t ∈ (f.first (.nonterminal n)).terminals := by
  induction l with
  | nil => exact absurd h not_mem_firstOf_nil
  | cons s l ih =>
    cases s with
    | terminal u =>
      rw [mem_firstOf_terminal_cons] at h
      exact .inl (IndexSet.mem_single.2 h)
    | nonterminal n =>
      simp only [leadingTerminals, leadingNonterminals]
      by_cases null : n ∈ f.nulls
      · rw [if_pos null, if_pos null]
        rcases mem_firstOf_cons.1 h with h | ⟨_, h⟩
        · exact .inr ⟨n, IndexSet.mem_insert.2 (.inr rfl), h⟩
        · rcases ih h with h | ⟨m, hm, h⟩
          · exact .inl h
          · exact .inr ⟨m, IndexSet.mem_insert.2 (.inl hm), h⟩
      · rw [if_neg null, if_neg null]
        rcases mem_firstOf_cons.1 h with h | ⟨h, _⟩
        · exact .inr ⟨n, IndexSet.mem_single.2 rfl, h⟩
        · exact absurd (by simpa [first] using h) null

end FirstTable

theorem mem_of_mem_leadingNonterminals {nulls : IndexSet Nonterminal} {l : List Symbol}
    {n : Nonterminal} (h : n ∈ leadingNonterminals nulls l) : .nonterminal n ∈ l := by
  induction l with
  | nil => exact absurd h IndexSet.not_mem_empty
  | cons s l ih =>
    cases s with
    | terminal => exact absurd h IndexSet.not_mem_empty
    | nonterminal m =>
      rw [leadingNonterminals] at h
      split at h
      · rcases IndexSet.mem_insert.1 h with h | rfl
        · exact List.mem_cons_of_mem _ (ih h)
        · exact List.mem_cons_self
      · rw [IndexSet.mem_single.1 h]
        exact List.mem_cons_self

theorem mem_of_mem_leadingTerminals {nulls : IndexSet Nonterminal} {l : List Symbol}
    {t : Terminal} (h : t ∈ leadingTerminals nulls l) : .terminal t ∈ l := by
  induction l with
  | nil => exact absurd h IndexSet.not_mem_empty
  | cons s l ih =>
    cases s with
    | terminal u =>
      rw [IndexSet.mem_single.1 h]
      exact List.mem_cons_self
    | nonterminal n =>
      rw [leadingTerminals] at h
      split at h
      · exact List.mem_cons_of_mem _ (ih h)
      · exact absurd h IndexSet.not_mem_empty

/-- The remainders after a symbol are what is right of its occurrences. -/
theorem mem_remaindersAfter {x : Symbol} {l rest : List Symbol} :
    rest ∈ remaindersAfter x l ↔ ∃ front, l = front ++ x :: rest := by
  induction l with
  | nil => simp [remaindersAfter]
  | cons s l ih =>
    rw [remaindersAfter]
    constructor
    · intro h
      have later : rest ∈ remaindersAfter x l → ∃ front, s :: l = front ++ x :: rest := by
        intro h
        obtain ⟨front, rfl⟩ := ih.1 h
        exact ⟨s :: front, rfl⟩
      split at h
      · next e =>
        rcases List.mem_cons.1 h with rfl | h
        · exact ⟨[], by rw [e]; rfl⟩
        · exact later h
      · exact later h
    · rintro ⟨front, e⟩
      cases front with
      | nil =>
        obtain ⟨rfl, rfl⟩ := List.cons.inj e
        simp
      | cons u front =>
        obtain ⟨rfl, rfl⟩ := List.cons.inj e
        have := ih.2 ⟨front, rfl⟩
        split
        · exact List.mem_cons_of_mem _ this
        · exact this

/-! ## Going through the rules -/

section Sweep

variable {nulls nulls' : IndexSet Nonterminal} {rules : List Rule} {r : Rule} {n : Nonterminal}

theorem nullableIn_mono (sub : ∀ n ∈ nulls, n ∈ nulls') {l : List Symbol}
    (h : nullableIn nulls l = true) : nullableIn nulls' l = true := by
  refine List.all_eq_true.2 fun s hs ↦ ?_
  have hs := List.all_eq_true.1 h s hs
  cases s with
  | terminal => exact hs
  | nonterminal n => exact decide_eq_true (sub n (of_decide_eq_true hs))

theorem mem_addNullable :
    n ∈ addNullable nulls r ↔ n ∈ nulls ∨ nullableIn nulls r.right.toList = true ∧ n = r.left := by
  rw [addNullable]
  split
  · next known => exact ⟨.inl, fun h ↦ h.elim id fun ⟨_, e⟩ ↦ e ▸ known⟩
  · split
    · next null => simp [null]
    · next other => simp [other]

theorem mem_foldl_addNullable_of_mem (h : n ∈ nulls) : n ∈ rules.foldl addNullable nulls := by
  induction rules generalizing nulls with
  | nil => exact h
  | cons r rules ih => exact ih (mem_addNullable.2 (.inl h))

/-- Going through the rules adds the left side of every rule whose right side is nullable at the
start. -/
theorem left_mem_foldl_addNullable (mem : r ∈ rules)
    (h : nullableIn nulls r.right.toList = true) : r.left ∈ rules.foldl addNullable nulls := by
  induction rules generalizing nulls with
  | nil => cases mem
  | cons r' rules ih =>
    rw [List.foldl_cons]
    rcases List.mem_cons.1 mem with rfl | mem
    · exact mem_foldl_addNullable_of_mem (mem_addNullable.2 (.inr ⟨h, rfl⟩))
    · exact ih mem (nullableIn_mono (fun _ hn ↦ mem_addNullable.2 (.inl hn)) h)

/-- What holds at the start and of the left side of a rule whose right side is nullable by then
holds after the rules. -/
theorem foldl_addNullable_induction {p : Nonterminal → Prop} (start : ∀ n ∈ nulls, p n)
    (rule : ∀ nulls : IndexSet Nonterminal, ∀ r ∈ rules, (∀ n ∈ nulls, p n) →
      nullableIn nulls r.right.toList = true → p r.left) :
    ∀ n ∈ rules.foldl addNullable nulls, p n := by
  induction rules generalizing nulls with
  | nil => exact start
  | cons r rules ih =>
    refine ih (fun n hn ↦ ?_) fun nulls r' mem ↦ rule nulls r' (List.mem_cons_of_mem r mem)
    rcases mem_addNullable.1 hn with hn | ⟨null, rfl⟩
    · exact start n hn
    · exact rule nulls r List.mem_cons_self start null

end Sweep

/-! ## The tables of a grammar -/

namespace Grammar

variable {g : Grammar} {r : Rule} {n m : Nonterminal} {t : Terminal} {a b : List Symbol}

theorem index_left_lt_of_mem (mem : r ∈ g.rules.toList) : r.left.index < g.nonterminals.size := by
  obtain ⟨id, _, rfl⟩ := mem_rules_iff.1 mem
  exact index_left_lt id

/-- A set got from the rules of a nonterminal holds what it gets from one of them. -/
theorem mem_unionOfRules {α : Type} [Indexed α] {f : Rule → IndexSet α} {x : α} :
    x ∈ g.unionOfRules n f ↔ ∃ r ∈ g.rules.toList, r.left = n ∧ x ∈ f r := by
  simp only [unionOfRules, IndexSet.mem_unions, List.mem_map]
  constructor
  · rintro ⟨_, ⟨id, hid, rfl⟩, hx⟩
    have hid := mem_rulesFor.1 hid
    exact ⟨g.rule id, mem_rules_iff.2 ⟨id, mem_ruleIds.2 hid.1, rfl⟩, hid.2, hx⟩
  · rintro ⟨r, hr, rfl, hx⟩
    obtain ⟨id, hid, rfl⟩ := mem_rules_iff.1 hr
    exact ⟨_, ⟨id, mem_rulesFor.2 ⟨mem_ruleIds.1 hid, rfl⟩, rfl⟩, hx⟩

theorem grows_nullableStep (g : Grammar) :
    IndexSet.Grows g.nonterminals.size g.nullableStep where
  le := mem_foldl_addNullable_of_mem
  lt {nulls a} := foldl_addNullable_induction (p := fun n ↦ n ∈ nulls ∨ n.index < _)
    (fun _ ↦ .inl) (fun _ _ mem _ _ ↦ .inr (index_left_lt_of_mem mem)) a

/-- A nonterminal is nullable when one of its right sides is. -/
theorem left_mem_nullable (mem : r ∈ g.rules.toList)
    (h : nullableIn g.nullable r.right.toList = true) : r.left ∈ g.nullable := by
  have fixed : g.nullableStep g.nullable = g.nullable :=
    IndexSet.step_saturate g.grows_nullableStep g.emptyLefts
  rw [← fixed]
  exact left_mem_foldl_addNullable mem h

theorem nullable_first_of_rule (mem : r ∈ g.rules.toList)
    (h : ((FirstTable.ofGrammar g).firstOf r.right.toList).nullable = true) :
    ((FirstTable.ofGrammar g).first (.nonterminal r.left)).nullable = true := by
  rw [FirstTable.nullable_firstOf] at h
  exact decide_eq_true (left_mem_nullable mem h)

/-- The nonterminals that begin the rules of a nonterminal, behind nullable ones. -/
def begunBy (g : Grammar) (n : Nonterminal) : IndexSet Nonterminal :=
  g.unionOfRules n fun r ↦ leadingNonterminals g.nullable r.right.toList

theorem index_lt_of_mem_begunBy (h : m ∈ g.begunBy n) : m.index < g.nonterminals.size := by
  obtain ⟨r, hr, rfl, hm⟩ := mem_unionOfRules.1 h
  obtain ⟨id, _, rfl⟩ := mem_rules_iff.1 hr
  exact index_lt_of_mem_right (mem_of_mem_leadingNonterminals hm)

/-- FIRST of a nonterminal: what its nullable beginnings lead to. -/
theorem mem_first_nonterminal (hn : n.index < g.nonterminals.size) :
    t ∈ ((FirstTable.ofGrammar g).first (.nonterminal n)).terminals ↔
      ∃ m, IndexSet.Path g.begunBy n m ∧
        t ∈ g.unionOfRules m fun r ↦ leadingTerminals g.nullable r.right.toList :=
  mem_leastFamily (fun _ _ h ↦ index_lt_of_mem_begunBy h) hn

/-- What begins a right side begins the left side. -/
theorem mem_first_of_rule (mem : r ∈ g.rules.toList)
    (h : t ∈ ((FirstTable.ofGrammar g).firstOf r.right.toList).terminals) :
    t ∈ ((FirstTable.ofGrammar g).first (.nonterminal r.left)).terminals := by
  rw [mem_first_nonterminal (index_left_lt_of_mem mem)]
  rcases FirstTable.mem_leading_of_mem_firstOf h with h | ⟨m, hm, h⟩
  · exact ⟨r.left, .refl _, mem_unionOfRules.2 ⟨r, mem, rfl, h⟩⟩
  · have link : m ∈ g.begunBy r.left := mem_unionOfRules.2 ⟨r, mem, rfl, hm⟩
    obtain ⟨k, path, h⟩ := (mem_first_nonterminal (index_lt_of_mem_begunBy link)).1 h
    exact ⟨k, (IndexSet.Path.tail (.refl _) link).trans path, h⟩

/-- Only declared terminals begin what declared symbols derive. -/
theorem declares_of_mem_firstOf (declared : ∀ s ∈ a, g.Declares s)
    (h : t ∈ ((FirstTable.ofGrammar g).firstOf a).terminals) : g.Declares (.terminal t) := by
  induction a with
  | nil => exact absurd h FirstTable.not_mem_firstOf_nil
  | cons s a ih =>
    rcases FirstTable.mem_firstOf_cons.1 h with h | ⟨_, h⟩
    · have hs := declared s List.mem_cons_self
      cases s with
      | terminal u => rwa [IndexSet.mem_single.1 h]
      | nonterminal n =>
        obtain ⟨m, _, h⟩ := (mem_first_nonterminal hs.2).1 h
        obtain ⟨r, hr, _, h⟩ := mem_unionOfRules.1 h
        obtain ⟨id, _, rfl⟩ := mem_rules_iff.1 hr
        exact declares_of_mem_right (mem_of_mem_leadingTerminals h)
    · exact ih (fun s hs ↦ declared s (List.mem_cons_of_mem _ hs)) h

/-- Rewriting makes no form nullable that was not. -/
theorem Rewrites.nullable_firstOf (h : g.Rewrites a b)
    (hb : ((FirstTable.ofGrammar g).firstOf b).nullable = true) :
    ((FirstTable.ofGrammar g).firstOf a).nullable = true := by
  obtain ⟨mem, before, after⟩ := h
  simp only [FirstTable.nullable_firstOf_append, FirstTable.nullable_firstOf_cons,
    Bool.and_eq_true] at hb ⊢
  exact ⟨hb.1, nullable_first_of_rule mem hb.2.1, hb.2.2⟩

/-- Rewriting adds nothing to the FIRST set of a form. -/
theorem Rewrites.mem_firstOf (h : g.Rewrites a b)
    (hb : t ∈ ((FirstTable.ofGrammar g).firstOf b).terminals) :
    t ∈ ((FirstTable.ofGrammar g).firstOf a).terminals := by
  obtain ⟨mem, before, after⟩ := h
  rw [FirstTable.mem_firstOf_append] at hb ⊢
  refine hb.imp_right fun ⟨null, hb⟩ ↦ ⟨null, ?_⟩
  rw [FirstTable.mem_firstOf_append] at hb
  rw [FirstTable.mem_firstOf_cons]
  rcases hb with hb | ⟨null, hb⟩
  · exact .inl (mem_first_of_rule mem hb)
  · exact .inr ⟨nullable_first_of_rule mem null, hb⟩

/-! ## FOLLOW -/

/-- The terminals that come next in some rule of a grammar after a nonterminal. -/
def nextInRules (g : Grammar) (n : Nonterminal) : TerminalSet :=
  (if n = .augmented then .single .endOfInput else ∅) ∪
    .unions (g.rules.toList.map ((FirstTable.ofGrammar g).followers n))

/-- The left sides of the rules that may end with a nonterminal. -/
def endedBy (g : Grammar) (n : Nonterminal) : IndexSet Nonterminal :=
  .ofList ((g.rules.toList.filter ((FirstTable.ofGrammar g).endsWith n)).map Rule.left)

theorem mem_endedBy :
    m ∈ g.endedBy n ↔ ∃ r ∈ g.rules.toList, r.left = m ∧ ∃ front rest,
      r.right.toList = front ++ .nonterminal n :: rest ∧
        ((FirstTable.ofGrammar g).firstOf rest).nullable = true := by
  simp only [endedBy, IndexSet.mem_ofList, List.mem_map, List.mem_filter, FirstTable.endsWith,
    List.any_eq_true, mem_remaindersAfter]
  constructor
  · rintro ⟨r, ⟨hr, rest, ⟨front, e⟩, null⟩, rfl⟩
    exact ⟨r, hr, rfl, front, rest, e, null⟩
  · rintro ⟨r, hr, rfl, front, rest, e, null⟩
    exact ⟨r, ⟨hr, rest, ⟨front, e⟩, null⟩, rfl⟩

theorem mem_nextInRules :
    t ∈ g.nextInRules n ↔ n = .augmented ∧ t = .endOfInput ∨
      ∃ r ∈ g.rules.toList, ∃ front rest, r.right.toList = front ++ .nonterminal n :: rest ∧
        t ∈ ((FirstTable.ofGrammar g).firstOf rest).terminals := by
  simp only [nextInRules, IndexSet.mem_union, IndexSet.mem_unions, List.mem_map,
    FirstTable.followers]
  refine or_congr ?_ ?_
  · by_cases h : n = .augmented <;> simp [h]
  · constructor
    · rintro ⟨_, ⟨r, hr, rfl⟩, ht⟩
      simp only [IndexSet.mem_unions, List.mem_map, mem_remaindersAfter] at ht
      obtain ⟨_, ⟨rest, ⟨front, e⟩, rfl⟩, ht⟩ := ht
      exact ⟨r, hr, front, rest, e, ht⟩
    · rintro ⟨r, hr, front, rest, e, ht⟩
      refine ⟨_, ⟨r, hr, rfl⟩, IndexSet.mem_unions.2 ⟨_, List.mem_map.2 ⟨rest, ?_, rfl⟩, ht⟩⟩
      exact mem_remaindersAfter.2 ⟨front, e⟩

/-- FOLLOW of a nonterminal: what comes next in rules after the nonterminals that it may end. -/
theorem mem_follow (hn : n.index < g.nonterminals.size) :
    t ∈ (FirstFollow.ofGrammar g).follow n ↔
      ∃ m, IndexSet.Path g.endedBy n m ∧ t ∈ g.nextInRules m := by
  refine mem_leastFamily (fun k m h ↦ ?_) hn
  obtain ⟨r, hr, rfl, _⟩ := mem_endedBy.1 h
  exact index_left_lt_of_mem hr

/-- The end of the input follows the augmented nonterminal. -/
theorem endOfInput_mem_follow_augmented :
    .endOfInput ∈ (FirstFollow.ofGrammar g).follow .augmented :=
  (mem_follow index_augmented_lt).2 ⟨_, .refl _, mem_nextInRules.2 (.inl ⟨rfl, rfl⟩)⟩

/-- Nothing but the end of the input follows the augmented nonterminal. -/
theorem eq_endOfInput_of_mem_follow_augmented
    (h : t ∈ (FirstFollow.ofGrammar g).follow .augmented) : t = .endOfInput := by
  have nowhere : ∀ {r : Rule} {front rest}, r ∈ g.rules.toList →
      r.right.toList ≠ front ++ .nonterminal .augmented :: rest := by
    intro r front rest mem e
    obtain ⟨id, _, rfl⟩ := mem_rules_iff.1 mem
    exact not_declares_augmented (declares_of_mem_right (by rw [e]; simp))
  have unmoved : ∀ m, IndexSet.Path g.endedBy .augmented m → m = .augmented := by
    intro m path
    induction path with
    | refl => rfl
    | tail _ link ih =>
      obtain ⟨r, hr, _, front, rest, e, _⟩ := mem_endedBy.1 (ih ▸ link)
      exact absurd e (nowhere hr)
  obtain ⟨m, path, h⟩ := (mem_follow index_augmented_lt).1 h
  obtain rfl := unmoved m path
  rcases mem_nextInRules.1 h with ⟨_, e⟩ | ⟨r, hr, front, rest, e, _⟩
  · exact e
  · exact absurd e (nowhere hr)

variable {front rest : List Symbol}

theorem index_lt_of_right_eq (mem : r ∈ g.rules.toList)
    (e : r.right.toList = front ++ .nonterminal n :: rest) : n.index < g.nonterminals.size := by
  obtain ⟨id, _, rfl⟩ := mem_rules_iff.1 mem
  exact index_lt_of_mem_right (by rw [e]; simp)

/-- What begins the rest of a right side after a nonterminal follows that nonterminal. -/
theorem mem_follow_of_rule (mem : r ∈ g.rules.toList)
    (e : r.right.toList = front ++ .nonterminal n :: rest)
    (h : t ∈ ((FirstTable.ofGrammar g).firstOf rest).terminals) :
    t ∈ (FirstFollow.ofGrammar g).follow n :=
  (mem_follow (index_lt_of_right_eq mem e)).2
    ⟨n, .refl _, mem_nextInRules.2 (.inr ⟨r, mem, front, rest, e, h⟩)⟩

/-- What follows a left side follows each nonterminal with only nullable symbols after it. -/
theorem mem_follow_of_nullable (mem : r ∈ g.rules.toList)
    (e : r.right.toList = front ++ .nonterminal n :: rest)
    (null : ((FirstTable.ofGrammar g).firstOf rest).nullable = true)
    (h : t ∈ (FirstFollow.ofGrammar g).follow r.left) :
    t ∈ (FirstFollow.ofGrammar g).follow n := by
  obtain ⟨m, path, h⟩ := (mem_follow (index_left_lt_of_mem mem)).1 h
  have link : r.left ∈ g.endedBy n := mem_endedBy.2 ⟨r, mem, rfl, front, rest, e, null⟩
  exact (mem_follow (index_lt_of_right_eq mem e)).2
    ⟨m, (IndexSet.Path.tail (.refl _) link).trans path, h⟩

/-- The FOLLOW set of a nonterminal knows what may come after it: the terminals that begin
`after`, and the end of the input if nothing must come there. -/
def FollowedBy (g : Grammar) (n : Nonterminal) (after : List Symbol) : Prop :=
  (∀ t ∈ ((FirstTable.ofGrammar g).firstOf after).terminals,
    t ∈ (FirstFollow.ofGrammar g).follow n) ∧
  (((FirstTable.ofGrammar g).firstOf after).nullable = true →
    .endOfInput ∈ (FirstFollow.ofGrammar g).follow n)

theorem FollowedBy.of_rewrites (h : g.FollowedBy n a) (rw : g.Rewrites a b) :
    g.FollowedBy n b :=
  ⟨fun _ ht ↦ h.1 _ (rw.mem_firstOf ht), fun null ↦ h.2 (rw.nullable_firstOf null)⟩

/-- A nonterminal on the right of a rule is followed by the rest of that side and what comes after
the left side. -/
theorem FollowedBy.of_rule (h : g.FollowedBy r.left a) (mem : r ∈ g.rules.toList)
    (e : r.right.toList = front ++ .nonterminal n :: rest) : g.FollowedBy n (rest ++ a) := by
  constructor
  · intro t ht
    rcases FirstTable.mem_firstOf_append.1 ht with ht | ⟨null, ht⟩
    · exact mem_follow_of_rule mem e ht
    · exact mem_follow_of_nullable mem e null (h.1 t ht)
  · intro null
    rw [FirstTable.nullable_firstOf_append, Bool.and_eq_true] at null
    exact mem_follow_of_nullable mem e null.1 (h.2 null.2)

/-- In what a nonterminal derives, each nonterminal is followed by the rest and by what comes after
the first one. -/
theorem FollowedBy.of_derives (known : g.FollowedBy m a) (h : g.Derives [.nonterminal m] b) :
    ∀ {n before after}, b = before ++ .nonterminal n :: after → g.FollowedBy n (after ++ a) := by
  induction h with
  | refl =>
    intro n before after e
    rcases List.singleton_eq_append_iff.1 e with ⟨_, single⟩ | ⟨_, none⟩
    · obtain ⟨same, rfl⟩ := List.cons.inj single
      obtain rfl := Symbol.nonterminal.inj same
      exact known
    · exact absurd none (by simp)
  | tail _ last ih =>
    intro n before after e
    cases last with
    | @rule r mem front back =>
      -- the nonterminal stands in front of the right side, in it, or behind it
      rcases append_eq_append_cons_iff.1 e with ⟨m, rfl, rfl⟩ | ⟨m, _, later⟩
      · have known : g.FollowedBy n (m ++ .nonterminal r.left :: back ++ a) :=
          @ih n before _ (by simp)
        exact known.of_rewrites ((Rewrites.rule mem m back).append_right a)
      · rcases append_eq_append_cons_iff.1 later with ⟨rest, inside, rfl⟩ | ⟨m', _, rfl⟩
        · rw [List.append_assoc]
          exact (ih rfl).of_rule mem inside
        · exact @ih n (front ++ .nonterminal r.left :: m') after (by simp)

/-- Nothing comes after the augmented nonterminal. -/
theorem followedBy_augmented : g.FollowedBy .augmented [] :=
  ⟨fun _ ht ↦ absurd ht FirstTable.not_mem_firstOf_nil, fun _ ↦ endOfInput_mem_follow_augmented⟩

/-- What comes after a nonterminal in a sentential form is known to its FOLLOW set. -/
theorem followedBy_of_derives (h : g.Derives [.nonterminal .augmented] b) :
    ∀ {n before after}, b = before ++ .nonterminal n :: after → g.FollowedBy n after := by
  intro n before after e
  rw [← List.append_nil after]
  exact followedBy_augmented.of_derives h e

end Grammar

end SimpleLR

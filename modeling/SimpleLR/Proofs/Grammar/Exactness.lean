import SimpleLR.Proofs.Grammar.FirstFollow

/-!
# FIRST and FOLLOW sets hold nothing else

What the tables of a grammar hold is derived: a nullable nonterminal derives the empty form, a FIRST
set holds terminals with which a derived form begins, and a FOLLOW set holds terminals that come
right after the nonterminal in a derived form. Together with the closure of the tables under the
rules this says exactly what the sets hold (`nullable_firstOf_iff`, `mem_firstOf_iff`,
`mem_follow_iff`). Going through the rules for nullable nonterminals ends of itself
(`nullable_settles`).
-/

namespace SimpleLR

namespace Grammar

variable {g : Grammar} {r : Rule} {n m : Nonterminal} {t : Terminal} {s : Symbol}
  {a b form : List Symbol} {nulls : IndexSet Nonterminal}

theorem derives_right (mem : r ∈ g.rules.toList) :
    g.Derives [.nonterminal r.left] r.right.toList := by
  simpa using (Rewrites.rule mem [] []).derives

/-! ## Nullable nonterminals -/

/-- A sequence derives the empty form if its nonterminals do and it has no terminals. -/
theorem derives_nil_of_nullableIn (sound : ∀ n ∈ nulls, g.Derives [.nonterminal n] [])
    (h : nullableIn nulls form = true) : g.Derives form [] := by
  induction form with
  | nil => exact .refl []
  | cons s form ih =>
    cases s with
    | terminal t => simp [nullableIn] at h
    | nonterminal n =>
      simp only [nullableIn, List.all_cons, Bool.and_eq_true, decide_eq_true_eq] at h
      exact ((sound n h.1).append_right form).trans (ih h.2)

theorem derives_nil_of_mem_emptyLefts : ∀ n ∈ g.emptyLefts, g.Derives [.nonterminal n] [] := by
  intro n hn
  obtain ⟨r, hr, rfl⟩ := List.mem_map.1 (IndexSet.mem_ofList.1 hn)
  obtain ⟨mem, empty⟩ := List.mem_filter.1 hr
  have right : r.right.toList = [] := by simpa using empty
  exact right ▸ derives_right mem

theorem derives_nil_of_mem_nullable : ∀ n ∈ g.nullable, g.Derives [.nonterminal n] [] := by
  refine IndexSet.saturate_induction (p := fun n ↦ g.Derives [.nonterminal n] [])
    derives_nil_of_mem_emptyLefts (fun _ sound ↦ ?_) _
  refine foldl_addNullable_induction sound fun nulls r mem sound null ↦ ?_
  exact (derives_right mem).trans (derives_nil_of_nullableIn sound null)

theorem Derives.nullable_firstOf (h : g.Derives a b)
    (hb : ((FirstTable.ofGrammar g).firstOf b).nullable = true) :
    ((FirstTable.ofGrammar g).firstOf a).nullable = true := by
  induction h with
  | refl => exact hb
  | tail _ last ih => exact ih (last.nullable_firstOf hb)

/-- A form is nullable when it derives the empty form. -/
theorem nullable_firstOf_iff :
    ((FirstTable.ofGrammar g).firstOf form).nullable = true ↔ g.Derives form [] := by
  refine ⟨fun null ↦ ?_, fun h ↦ h.nullable_firstOf FirstTable.nullable_firstOf_nil⟩
  rw [FirstTable.nullable_firstOf] at null
  exact derives_nil_of_nullableIn derives_nil_of_mem_nullable null

theorem isNullable_iff :
    (FirstTable.ofGrammar g).isNullable s = true ↔ g.Derives [s] [] := by
  rw [← FirstTable.nullable_first, ← FirstTable.nullable_firstOf_singleton, nullable_firstOf_iff]

/-- Going through the rules again and again ends when nothing is added any more, after no more
rounds than there are nonterminals, and what has been added then are the nonterminals that derive
the empty form. -/
theorem nullable_settles (g : Grammar) :
    (∃ rounds ≤ g.nonterminals.size,
      IndexSet.Settles g.nullableStep g.emptyLefts rounds g.nullable) ∧
    (∀ n, n ∈ g.nullable ↔ g.Derives [.nonterminal n] []) ∧
    ∀ s, (FirstFollow.ofGrammar g).isNullable s = true ↔ g.Derives [s] [] := by
  refine ⟨IndexSet.settles_saturate g.grows_nullableStep g.emptyLefts, fun n ↦ ?_,
    fun s ↦ isNullable_iff⟩
  have table : (FirstTable.ofGrammar g).isNullable (.nonterminal n) = decide (n ∈ g.nullable) := rfl
  rw [← isNullable_iff, table, decide_eq_true_iff]

/-! ## FIRST -/

/-- A form derives some form that begins with a symbol. -/
def Begins (g : Grammar) (form : List Symbol) (s : Symbol) : Prop :=
  ∃ rest, g.Derives form (s :: rest)

theorem Begins.of_derives (h : g.Derives a b) (hs : g.Begins b s) : g.Begins a s :=
  let ⟨rest, hb⟩ := hs
  ⟨rest, h.trans hb⟩

theorem begins_cons (s : Symbol) (form : List Symbol) : g.Begins (s :: form) s := ⟨form, .refl _⟩

/-- What begins what a symbol derives begins a form after that symbol. -/
theorem Begins.cons {s' : Symbol} (h : g.Begins [s'] s) (form : List Symbol) :
    g.Begins (s' :: form) s :=
  let ⟨rest, h⟩ := h
  ⟨rest ++ form, h.append_right form⟩

theorem Begins.trans {s' : Symbol} (h : g.Begins form s') (h' : g.Begins [s'] s) :
    g.Begins form s :=
  let ⟨_, derived⟩ := h
  .of_derives derived (h'.cons _)

/-- What begins a form begins it after something nullable, too. -/
theorem Begins.of_nullable (null : n ∈ g.nullable) (h : g.Begins form s) :
    g.Begins (.nonterminal n :: form) s :=
  h.of_derives ((derives_nil_of_mem_nullable n null).append_right form)

theorem begins_of_mem_leadingTerminals (h : t ∈ leadingTerminals g.nullable form) :
    g.Begins form (.terminal t) := by
  induction form with
  | nil => exact absurd h IndexSet.not_mem_empty
  | cons s form ih =>
    cases s with
    | terminal u =>
      rw [IndexSet.mem_single.1 h]
      exact begins_cons _ form
    | nonterminal n =>
      rw [leadingTerminals] at h
      split at h
      · next null => exact (ih h).of_nullable null
      · exact absurd h IndexSet.not_mem_empty

theorem begins_of_mem_leadingNonterminals (h : m ∈ leadingNonterminals g.nullable form) :
    g.Begins form (.nonterminal m) := by
  induction form with
  | nil => exact absurd h IndexSet.not_mem_empty
  | cons s form ih =>
    cases s with
    | terminal u => exact absurd h IndexSet.not_mem_empty
    | nonterminal n =>
      rw [leadingNonterminals] at h
      split at h
      · next null =>
        rcases IndexSet.mem_insert.1 h with h | rfl
        · exact (ih h).of_nullable null
        · exact begins_cons _ form
      · rw [IndexSet.mem_single.1 h]
        exact begins_cons _ form

/-- Something begins a nonterminal if it begins one of its right sides. -/
theorem begins_of_rule (mem : r ∈ g.rules.toList) (h : g.Begins r.right.toList s) :
    g.Begins [.nonterminal r.left] s := h.of_derives (derives_right mem)

theorem begins_of_path (path : IndexSet.Path g.begunBy n m) :
    g.Begins [.nonterminal n] (.nonterminal m) := by
  induction path with
  | refl => exact begins_cons _ []
  | tail _ link ih =>
    obtain ⟨r, mem, rfl, leading⟩ := mem_unionOfRules.1 link
    exact ih.trans (begins_of_rule mem (begins_of_mem_leadingNonterminals leading))

theorem begins_of_mem_first (h : t ∈ ((FirstTable.ofGrammar g).first s).terminals) :
    g.Begins [s] (.terminal t) := by
  cases s with
  | terminal u =>
    rw [IndexSet.mem_single.1 h]
    exact begins_cons _ []
  | nonterminal n =>
    -- beyond the table there is no set
    have hn : n.index < g.nonterminals.size := (mem_setAt_tabulate.1 h).1
    obtain ⟨m, path, h⟩ := (mem_first_nonterminal hn).1 h
    obtain ⟨r, mem, rfl, leading⟩ := mem_unionOfRules.1 h
    exact (begins_of_path path).trans
      (begins_of_rule mem (begins_of_mem_leadingTerminals leading))

theorem begins_of_mem_firstOf (h : t ∈ ((FirstTable.ofGrammar g).firstOf form).terminals) :
    g.Begins form (.terminal t) := by
  induction form with
  | nil => exact absurd h FirstTable.not_mem_firstOf_nil
  | cons s form ih =>
    rcases FirstTable.mem_firstOf_cons.1 h with first | ⟨null, later⟩
    · exact (begins_of_mem_first first).cons form
    · cases s with
      | terminal u => cases null
      | nonterminal n => exact (ih later).of_nullable (of_decide_eq_true null)

theorem Derives.mem_firstOf (h : g.Derives a b)
    (hb : t ∈ ((FirstTable.ofGrammar g).firstOf b).terminals) :
    t ∈ ((FirstTable.ofGrammar g).firstOf a).terminals := by
  induction h with
  | refl => exact hb
  | tail _ last ih => exact ih (last.mem_firstOf hb)

/-- FIRST of a form holds the terminals that begin what it derives. -/
theorem mem_firstOf_iff :
    t ∈ ((FirstTable.ofGrammar g).firstOf form).terminals ↔
      ∃ rest, g.Derives form (.terminal t :: rest) :=
  ⟨begins_of_mem_firstOf, fun ⟨_, h⟩ ↦
    h.mem_firstOf (FirstTable.mem_firstOf_terminal_cons.2 rfl)⟩

/-- FIRST of a form or of a single symbol says exactly which terminals begin what it derives, and
whether it derives the empty form. -/
theorem first_iff_derives (g : Grammar) :
    (∀ form : List Symbol,
      (∀ t, t ∈ ((FirstFollow.ofGrammar g).firstOf form).terminals ↔
        ∃ rest, g.Derives form (.terminal t :: rest)) ∧
      (((FirstFollow.ofGrammar g).firstOf form).nullable = true ↔ g.Derives form [])) ∧
    ∀ s : Symbol,
      (∀ t, t ∈ ((FirstFollow.ofGrammar g).first s).terminals ↔
        ∃ rest, g.Derives [s] (.terminal t :: rest)) ∧
      (((FirstFollow.ofGrammar g).first s).nullable = true ↔ g.Derives [s] []) := by
  refine ⟨fun form ↦ ⟨fun t ↦ mem_firstOf_iff, nullable_firstOf_iff⟩, fun s ↦ ⟨fun t ↦ ?_, ?_⟩⟩
  · rw [← FirstTable.mem_firstOf_singleton]
    exact mem_firstOf_iff
  · rw [← FirstTable.nullable_firstOf_singleton]
    exact nullable_firstOf_iff

/-! ## FOLLOW -/

/-- A nonterminal that may end another comes last in something that the other derives. -/
theorem exists_derives_of_path (path : IndexSet.Path g.endedBy n m) :
    ∃ before, g.Derives [.nonterminal m] (before ++ [.nonterminal n]) := by
  induction path with
  | refl => exact ⟨[], .refl _⟩
  | @tail m m' _ link ih =>
    obtain ⟨before, inner⟩ := ih
    obtain ⟨r, mem, rfl, front, rest, e, null⟩ := mem_endedBy.1 link
    refine ⟨front ++ before, (derives_right mem).trans ?_⟩
    have ended : g.Derives (.nonterminal m :: rest) (before ++ [.nonterminal n]) :=
      ((nullable_firstOf_iff.1 null).append_left [.nonterminal m]).trans inner
    rw [e, List.append_assoc]
    exact ended.append_left front

/-- A nonterminal that is not declared has no rule. -/
theorem eq_of_derives_of_size_le (hn : g.nonterminals.size ≤ n.index)
    (h : g.Derives [.nonterminal n] b) : b = [.nonterminal n] := by
  induction h with
  | refl => rfl
  | tail _ last ih =>
    subst ih
    generalize e : [Symbol.nonterminal n] = form at last
    obtain ⟨mem, before, after⟩ := last
    rcases List.singleton_eq_append_iff.1 e with ⟨_, single⟩ | ⟨_, none⟩
    · obtain rfl := Symbol.nonterminal.inj (List.cons.inj single).1
      exact absurd (index_left_lt_of_mem mem) (Nat.not_lt.2 hn)
    · cases none

/-- A symbol that derives nothing may come after any nonterminal. -/
theorem followedBy_undeclared (hn : g.nonterminals.size ≤ n.index) :
    g.FollowedBy m [.nonterminal n] := by
  constructor
  · intro t ht
    obtain ⟨rest, h⟩ := mem_firstOf_iff.1 ht
    cases eq_of_derives_of_size_le hn h
  · intro null
    cases eq_of_derives_of_size_le hn (nullable_firstOf_iff.1 null)

/-- FOLLOW of a nonterminal holds the terminals that come right after it in what any nonterminal
derives, and the end of the input if it comes last in what the augmented one derives. -/
theorem mem_follow_iff (hn : n.index < g.nonterminals.size) :
    t ∈ (FirstFollow.ofGrammar g).follow n ↔
      (t = .endOfInput ∧ ∃ before, g.Derives [.nonterminal .augmented]
        (before ++ [.nonterminal n])) ∨
      ∃ m before after, g.Derives [.nonterminal m]
        (before ++ .nonterminal n :: .terminal t :: after) := by
  constructor
  · intro h
    obtain ⟨m, path, h⟩ := (mem_follow hn).1 h
    obtain ⟨before, inner⟩ := exists_derives_of_path path
    rcases mem_nextInRules.1 h with ⟨rfl, rfl⟩ | ⟨r, mem, front, rest, e, h⟩
    · exact .inl ⟨rfl, before, inner⟩
    · obtain ⟨after, begun⟩ := begins_of_mem_firstOf h
      refine .inr ⟨r.left, front ++ before, after, (derives_right mem).trans ?_⟩
      have next : g.Derives (.nonterminal m :: rest)
          (before ++ .nonterminal n :: .terminal t :: after) := by
        simpa using (begun.append_left [.nonterminal m]).trans (inner.append_right _)
      rw [e, List.append_assoc]
      exact next.append_left front
  · rintro (⟨rfl, before, h⟩ | ⟨m, before, after, h⟩)
    · exact (followedBy_of_derives h rfl).2 FirstTable.nullable_firstOf_nil
    · -- nothing is known of what comes after `m`, so a symbol that derives nothing stands there
      have barren : g.FollowedBy m [.nonterminal ⟨g.nonterminals.size⟩] :=
        followedBy_undeclared (Nat.le_refl _)
      exact (barren.of_derives h rfl).1 t (FirstTable.mem_firstOf_terminal_cons.2 rfl)

end Grammar

end SimpleLR

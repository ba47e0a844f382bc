import Mathlib.Order.Bounds.Basic
import SimpleLR.Proofs.Grammar.Exactness

/-!
# FOLLOW sets as the least closed family

What stands right after a nonterminal can be said in two ways. A terminal may come right after it in
what some nonterminal derives, and the end of the input does if it comes last in what the augmented
one derives. Or a family of sets is closed under the rules (`Grammar.FollowClosed`): what begins the
rest of a right side after a nonterminal belongs to the set of that nonterminal, and so does the set
of the left side if that rest derives the empty form. The FOLLOW sets are both at once
(`Grammar.follow_isLeast`).
-/

namespace SimpleLR

namespace Grammar

variable {g : Grammar} {n m : Nonterminal} {t : Terminal} {before after : List Symbol}
  {family : Nonterminal → Set Terminal}

/-- A family of sets of terminals that takes up what the rules say on adjacent symbols, and lets the
input end after the augmented nonterminal. -/
structure FollowClosed (g : Grammar) (family : Nonterminal → Set Terminal) : Prop where
  ended : .endOfInput ∈ family .augmented
  begins : ∀ r ∈ g.rules.toList, ∀ front n rest,
    r.right.toList = front ++ .nonterminal n :: rest →
      {t | g.Begins rest (.terminal t)} ⊆ family n
  trails : ∀ r ∈ g.rules.toList, ∀ front n rest,
    r.right.toList = front ++ .nonterminal n :: rest → g.Derives rest [] →
      family r.left ⊆ family n

/-- The FOLLOW sets of a grammar, as sets. -/
def followFamily (g : Grammar) (n : Nonterminal) : Set Terminal :=
  {t | t ∈ (FirstFollow.ofGrammar g).follow n}

theorem followClosed_followFamily (g : Grammar) : g.FollowClosed g.followFamily where
  ended := endOfInput_mem_follow_augmented
  begins _ mem _ _ _ e _ begun := mem_follow_of_rule mem e (mem_firstOf_iff.2 begun)
  trails _ mem _ _ _ e null _ ht := mem_follow_of_nullable mem e (nullable_firstOf_iff.2 null) ht

/-- A closed family hands on what belongs to a nonterminal to those that may end it. -/
theorem FollowClosed.subset_of_path (closed : g.FollowClosed family)
    (path : IndexSet.Path g.endedBy n m) : family m ⊆ family n := by
  induction path with
  | refl => exact subset_rfl
  | tail _ link ih =>
    obtain ⟨r, mem, rfl, front, rest, e, null⟩ := mem_endedBy.1 link
    exact (closed.trails r mem front _ rest e (nullable_firstOf_iff.1 null)).trans ih

theorem FollowClosed.mem_of_mem_nextInRules (closed : g.FollowClosed family)
    (h : t ∈ g.nextInRules n) : t ∈ family n := by
  rcases mem_nextInRules.1 h with ⟨rfl, rfl⟩ | ⟨r, mem, front, rest, e, begun⟩
  · exact closed.ended
  · exact closed.begins r mem front n rest e (begins_of_mem_firstOf begun)

/-- Nothing follows a nonterminal that is not declared. -/
theorem index_lt_of_mem_follow (h : t ∈ (FirstFollow.ofGrammar g).follow n) :
    n.index < g.nonterminals.size := (mem_setAt_tabulate.1 h).1

theorem isLeast_followFamily (g : Grammar) : IsLeast {family | g.FollowClosed family}
    g.followFamily := by
  refine ⟨followClosed_followFamily g, fun family closed n t ht ↦ ?_⟩
  obtain ⟨m, path, next⟩ := (mem_follow (index_lt_of_mem_follow ht)).1 ht
  exact closed.subset_of_path path (closed.mem_of_mem_nextInRules next)

/-! ## Adjacency in derived forms -/

theorem index_lt_of_derives (declared : m.index < g.nonterminals.size)
    (h : g.Derives [.nonterminal m] (before ++ .nonterminal n :: after)) :
    n.index < g.nonterminals.size := by
  rcases eq_or_declares_of_derives h (.nonterminal n) (by simp) with e | known
  · obtain rfl := Symbol.nonterminal.inj e
    exact declared
  · exact known.2

theorem ne_endOfInput_of_derives
    (h : g.Derives [.nonterminal m] (before ++ .nonterminal n :: .terminal t :: after)) :
    t ≠ .endOfInput := by
  rintro rfl
  rcases eq_or_declares_of_derives h (.terminal .endOfInput) (by simp) with e | known
  · cases e
  · exact not_declares_endOfInput known

theorem index_lt_of_derives_adjacent
    (h : g.Derives [.nonterminal m] (before ++ .nonterminal n :: .terminal t :: after)) :
    m.index < g.nonterminals.size := by
  refine Nat.lt_of_not_le fun le ↦ ?_
  have same := congrArg List.length (eq_of_derives_of_size_le le h)
  rw [List.length_append, List.length_cons, List.length_cons, List.length_singleton] at same
  omega

/-- The FOLLOW sets say exactly what comes right after a nonterminal: a terminal if it does so in
what some nonterminal of the grammar derives, whether that one can be reached or not, and the end of
the input if the nonterminal comes last in what the augmented one derives. They are the least family
that is closed under the rules. -/
theorem follow_isLeast (g : Grammar) :
    (∀ n t, t ∈ (FirstFollow.ofGrammar g).follow n ↔
      (t ≠ .endOfInput ∧ ∃ m, m.index < g.nonterminals.size ∧ ∃ before after,
        g.Derives [.nonterminal m] (before ++ .nonterminal n :: .terminal t :: after)) ∨
      (t = .endOfInput ∧ ∃ before,
        g.Derives [.nonterminal .augmented] (before ++ [.nonterminal n]))) ∧
    (FirstFollow.ofGrammar g).follow .augmented = .single .endOfInput ∧
    IsLeast {family | g.FollowClosed family} g.followFamily := by
  refine ⟨fun n t ↦ ⟨fun h ↦ ?_, ?_⟩, IndexSet.ext fun t ↦ ⟨fun h ↦ ?_, fun h ↦ ?_⟩,
    isLeast_followFamily g⟩
  · rcases (mem_follow_iff (index_lt_of_mem_follow h)).1 h with ended | ⟨m, before, after, derived⟩
    · exact .inr ended
    · exact .inl ⟨ne_endOfInput_of_derives derived, m, index_lt_of_derives_adjacent derived,
        before, after, derived⟩
  · rintro (⟨_, m, declared, before, after, derived⟩ | ⟨rfl, before, derived⟩)
    · have known := index_lt_of_derives declared derived
      exact (mem_follow_iff known).2 (.inr ⟨m, before, after, derived⟩)
    · have known := index_lt_of_derives index_augmented_lt derived
      exact (mem_follow_iff known).2 (.inl ⟨rfl, before, derived⟩)
  · exact IndexSet.mem_single.2 (eq_endOfInput_of_mem_follow_augmented h)
  · rw [IndexSet.mem_single.1 h]
    exact endOfInput_mem_follow_augmented

end Grammar

end SimpleLR

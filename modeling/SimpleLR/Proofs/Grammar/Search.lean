import SimpleLR.Grammar.Search
import SimpleLR.Proofs.Grammar.Adjacency
import SimpleLR.Proofs.Search

/-!
# The searches for FIRST and FOLLOW sets

Going through the rules for nullable nonterminals ends (`Grammar.exists_nullableRound_ends`), and so
do the searches for the FIRST and the FOLLOW set of any nonterminal. They end with the sets that the
tables of the grammar hold (`Grammar.exists_firstSearch_completes`,
`Grammar.exists_followSearch_completes`).
-/

namespace SimpleLR

/-! ## Nullable nonterminals -/

/-- Going through rules adds what it adds without the mark, and marks whether that is anything. -/
theorem foldl_scanNullable (rules : List Rule) (nulls : IndexSet Nonterminal) (mark : Bool) :
    rules.foldl scanNullable (nulls, mark) =
      (rules.foldl addNullable nulls, mark || decide (rules.foldl addNullable nulls ≠ nulls)) := by
  induction rules generalizing nulls mark with
  | nil => simp
  | cons r rules ih =>
    rw [List.foldl_cons, List.foldl_cons, scanNullable, addNullable]
    split
    · exact ih nulls mark
    · next fresh =>
      split
      · rw [ih]
        have added : r.left ∈ rules.foldl addNullable (nulls.insert r.left) :=
          mem_foldl_addNullable_of_mem (IndexSet.mem_insert.2 (.inr rfl))
        have ne : rules.foldl addNullable (nulls.insert r.left) ≠ nulls :=
          fun e ↦ fresh (e ▸ added)
        simp [ne]
      · exact ih nulls mark

namespace Grammar

variable {g : Grammar} {n m : Nonterminal} {r : RuleId} {t : Terminal} {l : List Symbol}
  {nulls nulls' : IndexSet Nonterminal}

theorem nullableRound_true :
    g.nullableRound (nulls, true) =
      some (nulls, g.nullableStep nulls, decide (g.nullableStep nulls ≠ nulls)) := by
  rw [nullableRound, foldl_scanNullable]
  rfl

/-- The rounds are those in which something is added, and one more. -/
theorem ends_of_settles {rounds : Nat} (h : IndexSet.Settles g.nullableStep nulls rounds nulls') :
    ∃ taken, Ends g.nullableRound (nulls, true) taken (nulls', false) ∧
      taken.length = rounds + 1 := by
  induction h with
  | @still nulls fixed =>
    have last : g.nullableRound (nulls, true) = some (nulls, nulls, false) := by
      rw [nullableRound_true, fixed]
      simp
    exact ⟨[nulls], .next last ⟨.none _, rfl⟩, rfl⟩
  | @change nulls _ _ ne _ ih =>
    obtain ⟨taken, ends, length⟩ := ih
    refine ⟨nulls :: taken, ends.next ?_, congrArg (· + 1) length⟩
    rw [nullableRound_true, decide_eq_true ne]

/-- Going through the rules for nullable nonterminals ends. -/
theorem exists_nullableRound_ends (g : Grammar) :
    ∃ taken, Ends g.nullableRound (g.emptyLefts, true) taken (g.nullable, false) ∧
      taken.length ≤ g.nonterminals.size + 1 := by
  obtain ⟨rounds, le, settles⟩ := IndexSet.settles_saturate g.grows_nullableStep g.emptyLefts
  obtain ⟨taken, ends, length⟩ := ends_of_settles settles
  exact ⟨taken, ends, by omega⟩

/-! ## FIRST -/

theorem mem_rulesAhead :
    r ∈ g.rulesAhead nulls l ↔ ∃ n ∈ leadingNonterminals nulls l, r ∈ g.rulesFor n := by
  induction l with
  | nil => simp [rulesAhead, leadingNonterminals]
  | cons s l ih =>
    cases s with
    | terminal => simp [rulesAhead, leadingNonterminals]
    | nonterminal n =>
      rw [rulesAhead, leadingNonterminals, List.mem_append]
      split
      · simp only [ih, IndexSet.mem_insert, or_and_right, exists_or, exists_eq_left]
        exact or_comm
      · simp

/-- The search for a FIRST set comes to the rules of the nonterminals that begin the nonterminal. -/
theorem reaches_firstSearch_iff :
    (∃ r' ∈ g.rulesFor n, (g.firstSearch g.nullable).Reaches r' r) ↔
      ∃ m, IndexSet.Path g.begunBy n m ∧ r ∈ g.rulesFor m := by
  constructor
  · rintro ⟨r', hr', path⟩
    induction path with
    | refl => exact ⟨n, .refl n, hr'⟩
    | @tail r₁ r₂ _ last ih =>
      obtain ⟨m, path, hr₁⟩ := ih
      obtain ⟨k, hk, hr₂⟩ := mem_rulesAhead.1 last
      obtain ⟨known, left⟩ := mem_rulesFor.1 hr₁
      have link : k ∈ g.begunBy m := mem_unionOfRules.2
        ⟨g.rule r₁, mem_rules_iff.2 ⟨r₁, mem_ruleIds.2 known, rfl⟩, left, hk⟩
      exact ⟨k, path.tail link, hr₂⟩
  · rintro ⟨m, path, hr⟩
    induction path generalizing r with
    | refl => exact ⟨r, hr, .refl⟩
    | tail _ link ih =>
      obtain ⟨x, mem, left, hk⟩ := mem_unionOfRules.1 link
      obtain ⟨r₁, hr₁, rfl⟩ := mem_rules_iff.1 mem
      obtain ⟨r', hr', path⟩ := ih (mem_rulesFor.2 ⟨mem_ruleIds.1 hr₁, left⟩)
      exact ⟨r', hr', path.tail (mem_rulesAhead.2 ⟨_, hk, hr⟩)⟩

theorem mem_lookAll_firstSearch {rules : List RuleId} {terminals : TerminalSet} :
    t ∈ (g.firstSearch nulls).lookAll rules terminals ↔
      t ∈ terminals ∨ ∃ r ∈ rules, t ∈ leadingTerminals nulls (g.rule r).right.toList :=
  Search.lookAll_iff (p := fun terminals ↦ t ∈ terminals) fun _ _ ↦ IndexSet.mem_union

/-- The FIRST set of a nonterminal holds what ends the nullable beginnings of the rules to which the
search comes. -/
theorem mem_first_iff_reaches :
    t ∈ ((FirstFollow.ofGrammar g).first (.nonterminal n)).terminals ↔
      ∃ r, (∃ r' ∈ g.rulesFor n, (g.firstSearch g.nullable).Reaches r' r) ∧
        t ∈ leadingTerminals g.nullable (g.rule r).right.toList := by
  simp only [reaches_firstSearch_iff]
  constructor
  · intro h
    have hn : n.index < g.nonterminals.size := (mem_setAt_tabulate.1 h).1
    obtain ⟨m, path, h⟩ := (mem_first_nonterminal hn).1 h
    simp only [unionOfRules, IndexSet.mem_unions, List.mem_map] at h
    obtain ⟨_, ⟨r, hr, rfl⟩, ht⟩ := h
    exact ⟨r, ⟨m, path, hr⟩, ht⟩
  · rintro ⟨r, ⟨m, path, hr⟩, ht⟩
    have hn : n.index < g.nonterminals.size := by
      obtain ⟨r', hr', _⟩ := reaches_firstSearch_iff.2 ⟨m, path, hr⟩
      rw [← (mem_rulesFor.1 hr').2]
      exact index_left_lt r'
    refine (mem_first_nonterminal hn).2 ⟨m, path, ?_⟩
    simp only [unionOfRules, IndexSet.mem_unions, List.mem_map]
    exact ⟨_, ⟨r, hr, rfl⟩, ht⟩

/-- The search for the FIRST set of a nonterminal ends with the set that the table holds. -/
theorem exists_firstSearch_completes (g : Grammar) (n : Nonterminal) :
    ∃ taken, (g.firstSearch g.nullable).Completes (g.rulesFor n) ∅ taken
        ((FirstFollow.ofGrammar g).first (.nonterminal n)).terminals ∧ taken.Nodup := by
  have within : ∀ r, (∃ r' ∈ g.rulesFor n, (g.firstSearch g.nullable).Reaches r' r) →
      r ∈ g.ruleIds := fun r h ↦ by
    obtain ⟨_, _, hr⟩ := reaches_firstSearch_iff.1 h
    exact mem_ruleIds.2 (mem_rulesFor.1 hr).1
  obtain ⟨taken, completes, nodup, mem⟩ := Search.exists_completes (g.rulesFor n) ∅ within
  refine ⟨taken, ?_, nodup⟩
  convert completes
  refine IndexSet.ext fun t ↦ ?_
  simp [mem_first_iff_reaches, mem_lookAll_firstSearch, mem]

/-! ## FOLLOW -/

/-- The augmented nonterminal stands on no right side. -/
theorem ne_augmented_of_right_eq {x : Rule} {front rest : List Symbol} (mem : x ∈ g.rules.toList)
    (e : x.right.toList = front ++ .nonterminal n :: rest) : n ≠ .augmented := by
  rintro rfl
  obtain ⟨r, _, rfl⟩ := mem_rules_iff.1 mem
  exact not_declares_augmented (declares_of_mem_right (by rw [e]; simp))

theorem mem_leads_followSearch :
    m ∈ (g.followSearch (.ofGrammar g)).leads n ↔ m ∈ g.endedBy n := by
  rw [mem_endedBy]
  simp only [followSearch]
  split
  · next augmented =>
    refine ⟨fun h ↦ absurd h List.not_mem_nil, ?_⟩
    rintro ⟨x, mem, _, front, rest, e, _⟩
    exact absurd augmented (ne_augmented_of_right_eq mem e)
  · simp only [List.mem_flatMap, List.mem_map, List.mem_filter, mem_remaindersAfter]
    constructor
    · rintro ⟨x, hx, rest, ⟨⟨front, e⟩, null⟩, rfl⟩
      exact ⟨x, hx, rfl, front, rest, e, null⟩
    · rintro ⟨x, hx, rfl, front, rest, e, null⟩
      exact ⟨x, hx, rest, ⟨⟨front, e⟩, null⟩, rfl⟩

/-- The search for a FOLLOW set comes to the nonterminals that the nonterminal may end. -/
theorem reaches_followSearch_iff :
    (g.followSearch (.ofGrammar g)).Reaches n m ↔ IndexSet.Path g.endedBy n m := by
  constructor
  · intro path
    induction path with
    | refl => exact .refl n
    | tail _ last ih => exact ih.tail (mem_leads_followSearch.1 last)
  · intro path
    induction path with
    | refl => exact .refl
    | tail _ last ih => exact ih.tail (mem_leads_followSearch.2 last)

theorem mem_look_followSearch {terminals : TerminalSet} :
    t ∈ (g.followSearch (.ofGrammar g)).look n terminals ↔
      t ∈ terminals ∨ t ∈ g.nextInRules n := by
  simp only [followSearch]
  split
  · next augmented =>
    rw [IndexSet.mem_insert, mem_nextInRules]
    refine or_congr_right ⟨fun e ↦ .inl ⟨augmented, e⟩, ?_⟩
    rintro (⟨_, e⟩ | ⟨x, mem, front, rest, e, _⟩)
    · exact e
    · exact absurd augmented (ne_augmented_of_right_eq mem e)
  · next other => simp [nextInRules, other]

theorem mem_lookAll_followSearch {nonterminals : List Nonterminal} {terminals : TerminalSet} :
    t ∈ (g.followSearch (.ofGrammar g)).lookAll nonterminals terminals ↔
      t ∈ terminals ∨ ∃ n ∈ nonterminals, t ∈ g.nextInRules n :=
  Search.lookAll_iff (p := fun terminals ↦ t ∈ terminals) fun _ _ ↦ mem_look_followSearch

/-- A nonterminal that ends another one stands on a right side. -/
theorem eq_or_index_lt_of_path (path : IndexSet.Path g.endedBy n m) :
    m = n ∨ n.index < g.nonterminals.size := by
  induction path with
  | refl => exact .inl rfl
  | tail _ link ih =>
    rcases ih with rfl | declared
    · obtain ⟨x, mem, _, _, _, e, _⟩ := mem_endedBy.1 link
      exact .inr (index_lt_of_right_eq mem e)
    · exact .inr declared

/-- The FOLLOW set of a nonterminal holds what comes next in rules after the nonterminals to which
the search comes. -/
theorem mem_follow_iff_reaches :
    t ∈ (FirstFollow.ofGrammar g).follow n ↔
      ∃ m, (g.followSearch (.ofGrammar g)).Reaches n m ∧ t ∈ g.nextInRules m := by
  simp only [reaches_followSearch_iff]
  refine ⟨fun h ↦ (mem_follow (index_lt_of_mem_follow h)).1 h, ?_⟩
  rintro ⟨m, path, h⟩
  have hn : n.index < g.nonterminals.size := by
    rcases eq_or_index_lt_of_path path with rfl | declared
    · rcases mem_nextInRules.1 h with ⟨rfl, _⟩ | ⟨x, mem, _, _, e, _⟩
      · exact index_augmented_lt
      · exact index_lt_of_right_eq mem e
    · exact declared
  exact (mem_follow hn).2 ⟨m, path, h⟩

/-- The search for the FOLLOW set of a nonterminal ends with the set that the table holds. -/
theorem exists_followSearch_completes (g : Grammar) (n : Nonterminal) :
    ∃ taken, (g.followSearch (.ofGrammar g)).Completes [n] ∅ taken
        ((FirstFollow.ofGrammar g).follow n) ∧ taken.Nodup := by
  have within : ∀ m, (∃ n' ∈ [n], (g.followSearch (.ofGrammar g)).Reaches n' m) →
      m ∈ n :: g.nonterminalList := fun m h ↦ by
    obtain ⟨_, hn', path⟩ := h
    rw [List.mem_singleton.1 hn', reaches_followSearch_iff] at path
    cases path with
    | refl => exact List.mem_cons_self
    | tail _ link =>
      obtain ⟨x, mem, rfl, _⟩ := mem_endedBy.1 link
      refine List.mem_cons_of_mem _ (List.mem_map.2 ⟨x.left.index, ?_, rfl⟩)
      exact List.mem_range.2 (index_left_lt_of_mem mem)
  obtain ⟨taken, completes, nodup, mem⟩ := Search.exists_completes [n] ∅ within
  refine ⟨taken, ?_, nodup⟩
  convert completes
  refine IndexSet.ext fun t ↦ ?_
  simp [mem_follow_iff_reaches, mem_lookAll_followSearch, mem]

end Grammar

end SimpleLR

import SimpleLR.Proofs.Grammar.FirstFollow
import SimpleLR.Proofs.Grammar.Rightmost
import SimpleLR.Proofs.Item.ViablePrefix

/-!
# Parsing from below

A form and the tokens after it are parsed by shifting tokens to the end of the form and by
replacing right sides of rules there by their left sides, until the start symbol is left. Any of
these steps may be taken (`Grammar.Parses`), so there are as many parses as rightmost derivations.
Every reduction of a parse is one that the items along the form and the FOLLOW sets allow
(`Grammar.Reduction`), if the rules fit.
-/

namespace SimpleLR

namespace Grammar

/-- Some item is met along the form. -/
def Viable (g : Grammar) (form : List Symbol) : Prop := ∃ i, i ∈ ItemSet.along g form

/-- A right side at the end of a form is replaced by the left side of its rule, for its item is
complete there and the terminal may follow. -/
inductive Reduction (g : Grammar) (t : Terminal) (r : RuleId) : List Symbol → List Symbol → Prop
  | intro {front : List Symbol} {i : Item}
    (hi : i ∈ ItemSet.along g (front ++ (g.rule r).right.toList))
    (complete : i.isComplete g = true) (rule : i.rule = r) (ne : r ≠ .accept)
    (follow : t ∈ (FirstFollow.ofGrammar g).follow (g.rule r).left) :
    Reduction g t r (front ++ (g.rule r).right.toList) (front ++ [.nonterminal (g.rule r).left])

/-- A form and the tokens after it are parsed, with the rules that are reduced. -/
inductive Parses (g : Grammar) : List Symbol → List Terminal → List RuleId → Prop
  | start : Parses g [.nonterminal g.start] [] []
  | shift {form : List Symbol} {t : Terminal} {w : List Terminal} {rules : List RuleId}
    (rest : Parses g (form ++ [.terminal t]) w rules) : Parses g form (t :: w) rules
  | reduce {front : List Symbol} {w : List Terminal} {rules : List RuleId} {r : RuleId}
    (rest : Parses g (front ++ [.nonterminal (g.rule r).left]) w rules) :
    Parses g (front ++ (g.rule r).right.toList) w (r :: rules)

variable {g : Grammar} {form form' front : List Symbol} {w v : List Terminal} {rules : List RuleId}
  {r : RuleId} {n : Nonterminal} {t : Terminal}

/-- A form is viable with one more symbol when the symbol can be read along it. -/
theorem viable_concat_iff {x : Symbol} :
    g.Viable (form ++ [x]) ↔ (ItemSet.along g form).kernel g x ≠ [] := by
  constructor
  · rintro ⟨i, hi⟩
    rw [ItemSet.along_concat] at hi
    obtain ⟨j, hj, next⟩ := ItemSet.exists_next_of_mem_goto hi
    exact List.ne_nil_of_mem (ItemSet.mem_kernel.2 ⟨j, hj, next, rfl⟩)
  · intro ne
    obtain ⟨k, hk⟩ := List.exists_mem_of_ne_nil _ ne
    obtain ⟨j, hj, next, _⟩ := ItemSet.mem_kernel.1 hk
    exact ⟨j.moved, ItemSet.moved_mem_along hj next⟩

/-- A form that can be read further is viable. -/
theorem viable_of_concat {x : Symbol} (h : g.Viable (form ++ [x])) : g.Viable form := by
  obtain ⟨k, hk⟩ := List.exists_mem_of_ne_nil _ (viable_concat_iff.1 h)
  obtain ⟨j, hj, _⟩ := ItemSet.mem_kernel.1 hk
  exact ⟨j, hj⟩

/-- The left side of a rule can be read in place of its right side. -/
theorem Reduction.viable (h : g.Reduction t r form form') : g.Viable form ∧ g.Viable form' := by
  obtain ⟨hi, complete, rfl, ne⟩ := h
  refine ⟨⟨_, hi⟩, ?_⟩
  obtain ⟨front', e, entered⟩ := ItemSet.exists_front_of_isComplete hi complete
  obtain rfl := List.append_cancel_right e
  obtain ⟨j, hj, next⟩ := ItemSet.exists_next_of_initial_mem_along entered ne
    (Item.size_le_of_isComplete complete)
  exact ⟨j.moved, ItemSet.moved_mem_along hj next⟩

/-- An empty right side may be replaced wherever its rule has been entered. -/
theorem reduction_of_empty (hi : .initial r ∈ ItemSet.along g form)
    (empty : (g.rule r).right = #[]) (ne : r ≠ .accept)
    (follow : t ∈ (FirstFollow.ofGrammar g).follow (g.rule r).left) :
    g.Reduction t r form (form ++ [.nonterminal (g.rule r).left]) := by
  have nothing : form ++ (g.rule r).right.toList = form := by simp [empty]
  have complete : (Item.initial r).isComplete g = true := by
    simp [Item.isComplete, Item.initial, empty]
  have step : g.Reduction t r (form ++ (g.rule r).right.toList) _ :=
    .intro (by rwa [nothing]) complete rfl ne follow
  rwa [nothing] at step

/-- The rule decides what a reduction leads to. -/
theorem Reduction.unique {t' : Terminal} {form'' : List Symbol} (h : g.Reduction t r form form')
    (h' : g.Reduction t' r form form'') : form' = form'' := by
  cases h with
  | @intro front =>
    generalize e : front ++ (g.rule r).right.toList = form at h'
    obtain ⟨⟩ := h'
    rw [List.append_cancel_right e]

/-- A reduction undoes a rewriting of the last nonterminal. -/
theorem Reduction.rewriteLast (h : g.Reduction t r form form') :
    (g.rule r).rewriteLast form' = some form := by
  cases h with
  | @intro front => simpa using Rule.rewriteLast_of_eq (r := g.rule r) rfl front []

/-! ## Parses and derivations -/

/-- The rules of a parse, backwards, expand the start symbol. -/
theorem Parses.expand (h : g.Parses form w rules) :
    g.expand rules.reverse [.nonterminal g.start] = some (form ++ w.map .terminal) := by
  induction h with
  | start => rfl
  | shift _ ih => simpa using ih
  | @reduce front w rules r _ ih =>
    rw [List.append_assoc] at ih
    rw [List.reverse_cons]
    refine expand_concat_eq_some_iff.2 ⟨_, ih, ?_⟩
    rw [List.append_assoc]
    exact Rule.rewriteLast_of_eq rfl front w

/-- Tokens can be shifted one after another. -/
theorem Parses.shifts (h : g.Parses (form ++ v.map .terminal) w rules) :
    g.Parses form (v ++ w) rules := by
  induction v generalizing form with
  | nil => simpa using h
  | cons t v ih =>
    refine .shift (ih ?_)
    simpa using h

/-- Before the rules of a form are parsed, the tokens that it yields are. -/
theorem Parses.of_yields (y : g.Yields form v) (h : g.Parses (front ++ form) w rules) :
    ∃ rules', g.Parses front (v ++ w) rules' := by
  induction y generalizing front w rules with
  | nil => exact ⟨rules, by simpa using h⟩
  | @terminal t form v _ ih =>
    rw [List.append_cons] at h
    obtain ⟨rules', h⟩ := ih h
    exact ⟨rules', .shift h⟩
  | @nonterminal x mem form v v' _ _ ihRight ihRest =>
    obtain ⟨id, _, rfl⟩ := mem_rules_iff.1 mem
    rw [List.append_cons] at h
    obtain ⟨rules₁, h⟩ := ihRest h
    obtain ⟨rules₂, h⟩ := ihRight (.reduce h)
    exact ⟨rules₂, by simpa using h⟩

/-- A form that does not end with a terminal has not been read beyond the end of a right side, if
only terminals come after that. -/
theorem exists_shifted {handle : List Symbol} {u : List Terminal}
    (e : form ++ w.map .terminal = handle ++ u.map .terminal)
    (last : form = [] ∨ ∃ front n, form = front ++ [.nonterminal n]) :
    ∃ v : List Terminal, w = v ++ u ∧ form ++ v.map .terminal = handle := by
  rcases List.append_eq_append_iff.1 e with ⟨m, rfl, shifted⟩ | ⟨m, rfl, read⟩
  · obtain ⟨v, u', rfl, rfl, same⟩ := List.map_eq_append_iff.1 shifted
    obtain rfl := (List.map_inj_right fun _ _ ↦ Symbol.terminal.inj).1 same
    exact ⟨v, rfl, rfl⟩
  · obtain ⟨v, w', rfl, rfl, same⟩ := List.map_eq_append_iff.1 read
    obtain rfl := (List.map_inj_right fun _ _ ↦ Symbol.terminal.inj).1 same
    -- what the form has beyond the right side are terminals, so there is nothing
    rcases List.eq_nil_or_concat' v with rfl | ⟨v, t, rfl⟩
    · exact ⟨[], rfl, by simp⟩
    · rw [List.map_append, ← List.append_assoc] at last
      rcases last with last | ⟨front, n, last⟩
      · simp at last
      · have ends := congrArg List.getLast? last
        simp at ends

/-- The rules of a derivation are those of a parse; a form that ends with a nonterminal has not
been read beyond the next reduction. -/
theorem Parses.of_expand
    (h : g.expand rules [.nonterminal g.start] = some (form ++ w.map .terminal))
    (last : form = [] ∨ ∃ front n, form = front ++ [.nonterminal n]) :
    g.Parses form w rules.reverse := by
  induction rules using List.reverseRecOn generalizing form w with
  | nil =>
    have e : form ++ w.map .terminal = [.nonterminal g.start] := (Option.some.inj h).symm
    rcases List.append_eq_singleton_iff.1 e with ⟨rfl, symbol⟩ | ⟨rfl, none⟩
    · obtain ⟨t, _, symbol⟩ := List.map_eq_singleton_iff.1 symbol
      cases symbol
    · rw [List.map_eq_nil_iff.1 none]
      exact .start
  | append_singleton rules r ih =>
    obtain ⟨b, hb, step⟩ := expand_concat_eq_some_iff.1 h
    obtain ⟨front, u, rfl, e⟩ := Rule.rewriteLast_eq_some_iff.1 step
    rw [← List.append_assoc] at e
    obtain ⟨v, rfl, handle⟩ := exists_shifted e last
    refine .shifts ?_
    rw [handle, List.reverse_append]
    refine .reduce (ih ?_ (.inr ⟨front, _, rfl⟩))
    rw [hb]
    simp

/-! ## Parses and viable forms -/

/-- What stands before a nonterminal of a form of a rightmost derivation is a left context. -/
theorem leftContext_of_expand {rest : List Symbol}
    (h : g.expand rules [.nonterminal g.start] = some (front ++ .nonterminal n :: rest)) :
    g.LeftContext n front := by
  induction rules using List.reverseRecOn generalizing front n rest with
  | nil =>
    have e : front ++ .nonterminal n :: rest = [.nonterminal g.start] := (Option.some.inj h).symm
    rcases List.append_eq_singleton_iff.1 e with ⟨rfl, e⟩ | ⟨_, e⟩
    · cases e
      exact .start
    · cases e
  | append_singleton rules r ih =>
    obtain ⟨b, hb, step⟩ := expand_concat_eq_some_iff.1 h
    obtain ⟨before, u, rfl, e⟩ := Rule.rewriteLast_eq_some_iff.1 step
    rcases append_eq_append_cons_iff.1 e.symm with ⟨m, rfl, rfl⟩ | ⟨m, rfl, later⟩
    · -- the nonterminal stood there before
      rw [List.append_assoc] at hb
      exact ih hb
    · rcases append_eq_append_cons_iff.1 later with ⟨m', right, rfl⟩ | ⟨m', rfl, read⟩
      · exact .enter (rule_mem_rules r) (ih hb) right
      · have terminal : .nonterminal n ∈ u.map Symbol.terminal := by
          rw [read]
          simp
        simp at terminal

/-- The forms of derivations hold declared symbols only. -/
theorem declares_of_derives {b : List Symbol} (h : g.Derives [.nonterminal g.start] b) :
    ∀ s ∈ b, g.Declares s := by
  intro s hs
  rcases eq_or_declares_of_derives h s hs with rfl | declared
  · exact g.start_declared
  · exact declared

/-- The left side of a rule that a parse reduces is not the augmented one. -/
theorem Parses.left_ne_augmented
    (h : g.Parses (front ++ [.nonterminal (g.rule r).left]) w rules) :
    (g.rule r).left ≠ .augmented := by
  intro e
  have declared := declares_of_derives (derives_of_expand h.expand) (.nonterminal .augmented)
    (by simp [e])
  exact not_declares_augmented declared

/-- The item of a rule that a parse reduces is complete. -/
theorem Parses.exists_complete (fits : g.DotsFit)
    (h : g.Parses (front ++ [.nonterminal (g.rule r).left]) w rules) :
    ∃ i ∈ ItemSet.along g (front ++ (g.rule r).right.toList),
      i.isComplete g = true ∧ i.rule = r := by
  have context : g.LeftContext (g.rule r).left front := by
    have expanded := h.expand
    rw [List.append_assoc] at expanded
    exact leftContext_of_expand expanded
  have mem := mem_ruleIds_of_left h.left_ne_augmented
  have entered := ItemSet.mem_along_of_leftContext fits context
    (mem_rulesFor.2 ⟨mem_ruleIds.1 mem, rfl⟩)
  obtain ⟨i, hi, rule, dot⟩ := ItemSet.mem_along_of_initial_mem entered
    (fits.size_le mem context.occurs) (Nat.le_refl _)
  refine ⟨i, ?_, ?_, rule⟩
  · rwa [List.take_of_length_le (by simp)] at hi
  · simp [Item.isComplete, rule, dot]

/-- The token after a reduction may follow. -/
theorem Parses.follow (h : g.Parses (front ++ [.nonterminal n]) w rules) :
    w.headD .endOfInput ∈ (FirstFollow.ofGrammar g).follow n := by
  have d : g.Derives [.nonterminal .augmented] (front ++ .nonterminal n :: w.map .terminal) := by
    have expanded := derives_of_expand h.expand
    rw [List.append_assoc] at expanded
    exact (derives_start g).trans expanded
  have followed := followedBy_of_derives d rfl
  cases w with
  | nil => exact followed.2 rfl
  | cons t w => exact followed.1 t (by simp)

/-- Every reduction of a parse is allowed. -/
theorem Parses.reduction (fits : g.DotsFit)
    (h : g.Parses (front ++ [.nonterminal (g.rule r).left]) w rules) :
    g.Reduction (w.headD .endOfInput) r (front ++ (g.rule r).right.toList)
      (front ++ [.nonterminal (g.rule r).left]) := by
  obtain ⟨i, hi, complete, rule⟩ := h.exists_complete fits
  exact .intro hi complete rule (ne_accept_of_left h.left_ne_augmented) h.follow

/-- An item for the start symbol. -/
theorem exists_accept_mem (g : Grammar) :
    ∃ i ∈ ItemSet.along g [.nonterminal g.start], i.isComplete g = true ∧ i.rule = .accept := by
  obtain ⟨i, hi, rule, dot⟩ := ItemSet.mem_along_of_initial_mem
    (ItemSet.initial_accept_mem_along_nil (g := g)) (k := 1)
    (by simp [Rule.augmenting]) (by simp [Rule.augmenting])
  refine ⟨i, ?_, ?_, rule⟩
  · simpa [Rule.augmenting] using hi
  · simp [Item.isComplete, rule, dot, Rule.augmenting]

/-- What is parsed is viable. -/
theorem Parses.viable (fits : g.DotsFit) (h : g.Parses form w rules) : g.Viable form := by
  induction h with
  | start =>
    obtain ⟨i, hi, _⟩ := exists_accept_mem g
    exact ⟨i, hi⟩
  | shift _ ih => exact viable_of_concat ih
  | reduce rest => exact (rest.reduction fits).viable.1

end Grammar

end SimpleLR

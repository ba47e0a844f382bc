import Mathlib.Data.List.Basic
import Mathlib.Data.List.Induction
import SimpleLR.Proofs.Grammar.Forms
import SimpleLR.Proofs.Item.Closure

/-!
# The items along a form

`ItemSet.along` follows a form from the initial set, symbol by symbol.  An item with its dot at
position `k` that is met there tells what the form ends with: the first `k` symbols of its rule
(`exists_front_of_mem_along`).  If all rules that matter fit the 16 bits of a dot, the items along a
form are exactly those of rules whose left side can be read after the rest of the form
(`leftContext_of_mem_along`, `mem_along_of_leftContext`).
-/

namespace SimpleLR

namespace ItemSet

/-- The set reached from the initial one over the symbols of a form. -/
def along (g : Grammar) (form : List Symbol) : ItemSet := form.foldl (goto g) (initial g)

variable {g : Grammar} {form : List Symbol} {i j : Item} {r : RuleId} {n : Nonterminal}
  {x : Symbol}

@[simp] theorem along_nil : along g [] = initial g := rfl

@[simp] theorem along_concat (form : List Symbol) (x : Symbol) :
    along g (form ++ [x]) = goto g (along g form) x := by
  rw [along, List.foldl_append]
  rfl

theorem initial_accept_mem_along_nil : .initial .accept ∈ along g [] :=
  mem_closure_of_mem (List.mem_singleton.2 rfl)

/-- The dot moves over a symbol of the form. -/
theorem moved_mem_along (hi : i ∈ along g form) (next : i.next? g = some x) :
    i.moved ∈ along g (form ++ [x]) := by
  rw [along_concat]
  exact mem_goto_of_next hi next

/-- The sets along a form are closures. -/
theorem exists_along_eq_closure (form : List Symbol) :
    ∃ core, along g form = closure g core := by
  rcases List.eq_nil_or_concat' form with rfl | ⟨form, x, rfl⟩
  · exact ⟨_, rfl⟩
  · exact ⟨_, along_concat form x⟩

/-- The sets along a form are closed. -/
theorem initial_mem_along (hi : i ∈ along g form) (next : i.next? g = some (.nonterminal n))
    (hr : r ∈ g.rulesFor n) : .initial r ∈ along g form := by
  obtain ⟨core, e⟩ := exists_along_eq_closure (g := g) form
  rw [e] at hi ⊢
  exact initial_mem_closure hi next hr

/-- What holds of the first item and is kept when a dot moves and when a rule is entered holds of
all items along all forms. -/
theorem along_induction {p : List Symbol → Item → Prop} (start : p [] (.initial .accept))
    (move : ∀ form i x, i ∈ along g form → p form i → i.next? g = some x →
      p (form ++ [x]) i.moved)
    (enter : ∀ form i n r, i ∈ along g form → p form i → i.next? g = some (.nonterminal n) →
      r ∈ g.rulesFor n → p form (.initial r)) :
    ∀ {form i}, i ∈ along g form → p form i := by
  intro form
  induction form using List.reverseRecOn with
  | nil =>
    intro i hi
    refine closure_induction (p := p []) (fun j hj ↦ ?_) (fun j n r ↦ enter [] j n r) i hi
    rw [List.mem_singleton.1 hj]
    exact start
  | append_singleton form x ih =>
    intro i hi
    rw [along_concat] at hi
    refine closure_induction (p := p (form ++ [x])) (fun j hj ↦ ?_) (fun j n r hj ↦ ?_) i hi
    · obtain ⟨k, hk, next, rfl⟩ := mem_kernel.1 hj
      exact move form k x hk (ih hk) next
    · exact enter (form ++ [x]) j n r (by rwa [along_concat])

/-- An item met along a form: the form ends with what stands before its dot, and its rule was
entered before that. -/
theorem exists_front_of_mem_along (hi : i ∈ along g form)
    (fits : (g.rule i.rule).right.size ≤ 65535) :
    i.dot.toNat ≤ (g.rule i.rule).right.size ∧ ∃ front,
      form = front ++ (g.rule i.rule).right.toList.take i.dot.toNat ∧
        .initial i.rule ∈ along g front := by
  revert fits
  refine along_induction (p := fun form i ↦ (g.rule i.rule).right.size ≤ 65535 →
    i.dot.toNat ≤ (g.rule i.rule).right.size ∧ ∃ front,
      form = front ++ (g.rule i.rule).right.toList.take i.dot.toNat ∧
        .initial i.rule ∈ along g front) ?_ ?_ ?_ hi
  · exact fun _ ↦ ⟨Nat.zero_le _, [], by simp [Item.initial], initial_accept_mem_along_nil⟩
  · intro form i x hi ih next fits
    obtain ⟨_, front, e, mem⟩ := ih fits
    have lt := Item.dot_lt_of_next next
    rw [Item.moved_rule, Item.moved_dot next fits]
    refine ⟨lt, front, ?_, mem⟩
    rw [Item.take_succ_of_next next, ← List.append_assoc, ← e]
  · intro form i n r hi _ next hr _
    exact ⟨Nat.zero_le _, form, by simp [Item.initial], initial_mem_along hi next hr⟩

/-- A rule other than the augmenting one is entered from an item with its left side after the
dot. -/
theorem exists_next_of_initial_mem_along (h : .initial r ∈ along g form) (ne : r ≠ .accept)
    (fits : (g.rule r).right.size ≤ 65535) :
    ∃ j ∈ along g form, j.next? g = some (.nonterminal (g.rule r).left) := by
  have enters : ∀ core, along g form = closure g core → .initial r ∉ core →
      ∃ j ∈ along g form, j.next? g = some (.nonterminal (g.rule r).left) := by
    intro core e new
    rw [e] at h ⊢
    rcases mem_closure_cases h with old | ⟨r', e', entered⟩
    · exact absurd old new
    · obtain rfl : r = r' := congrArg Item.rule e'
      exact entered
  rcases List.eq_nil_or_concat' form with rfl | ⟨form, x, rfl⟩
  · refine enters _ rfl fun old ↦ ne ?_
    exact congrArg Item.rule (List.mem_singleton.1 old)
  · apply enters _ (along_concat form x)
    intro old
    obtain ⟨k, _, next, e⟩ := mem_kernel.1 old
    obtain rfl : k.rule = r := congrArg Item.rule e
    -- a dot that has moved is not in front
    have moved := Item.moved_dot next fits
    rw [e] at moved
    exact absurd moved (by simp [Item.initial])

/-- No symbol leads to a set in which the augmenting rule is entered. -/
theorem initial_accept_not_mem_goto (s : ItemSet) (x : Symbol) : .initial .accept ∉ goto g s x := by
  intro h
  rcases mem_closure_cases h with h | ⟨r, e, j, _, next⟩
  · obtain ⟨k, _, next, e⟩ := mem_kernel.1 h
    have rule : k.rule = .accept := congrArg Item.rule e
    have moved := Item.moved_dot next (by simp [rule, Rule.augmenting])
    rw [e] at moved
    exact absurd moved (by simp [Item.initial])
  · obtain rfl : .accept = r := congrArg Item.rule e
    rw [Grammar.left_accept] at next
    have declared := Grammar.declares_of_mem_right (Item.mem_right_of_next next)
    exact absurd declared Grammar.not_declares_augmented

/-- The augmenting rule is entered at the beginning only. -/
theorem eq_nil_of_initial_accept_mem (h : .initial .accept ∈ along g form) : form = [] := by
  rcases List.eq_nil_or_concat' form with rfl | ⟨form, x, rfl⟩
  · rfl
  · rw [along_concat] at h
    exact absurd h (initial_accept_not_mem_goto _ x)

/-- A complete item met along a form: the form ends with the right side of its rule. -/
theorem exists_front_of_isComplete (hi : i ∈ along g form) (complete : i.isComplete g = true) :
    ∃ front, form = front ++ (g.rule i.rule).right.toList ∧ .initial i.rule ∈ along g front := by
  have size : (g.rule i.rule).right.size ≤ i.dot.toNat := of_decide_eq_true complete
  obtain ⟨_, front, e, mem⟩ := exists_front_of_mem_along hi (Item.size_le_of_isComplete complete)
  rw [List.take_of_length_le (by simpa using size)] at e
  exact ⟨front, e, mem⟩

/-- The augmenting rule is complete along the start symbol only. -/
theorem eq_start_of_isComplete (hi : i ∈ along g form) (complete : i.isComplete g = true)
    (e : i.rule = .accept) : form = [.nonterminal g.start] := by
  obtain ⟨front, rfl, mem⟩ := exists_front_of_isComplete hi complete
  rw [e] at mem ⊢
  rw [eq_nil_of_initial_accept_mem mem, Grammar.rule_accept]
  rfl

/-- The left side of a complete rule can be read in place of its right side. -/
theorem kernel_left_ne_nil {front : List Symbol} (h : .initial r ∈ along g front)
    (ne : r ≠ .accept) (fits : (g.rule r).right.size ≤ 65535) :
    (along g front).kernel g (.nonterminal (g.rule r).left) ≠ [] := by
  obtain ⟨j, hj, next⟩ := exists_next_of_initial_mem_along h ne fits
  exact List.ne_nil_of_mem (mem_kernel.2 ⟨j, hj, next, rfl⟩)

/-- A set with an item is reached only from an item with the symbol after its dot. -/
theorem exists_next_of_mem_goto {s : ItemSet} (h : i ∈ goto g s x) :
    ∃ j ∈ s, j.next? g = some x := by
  have kernel : ∃ k, k ∈ s.kernel g x :=
    closure_induction (p := fun _ ↦ ∃ k, k ∈ s.kernel g x)
      (fun k hk ↦ ⟨k, hk⟩) (fun _ _ _ _ ih _ _ ↦ ih) i h
  obtain ⟨k, hk⟩ := kernel
  obtain ⟨j, hj, next, _⟩ := mem_kernel.1 hk
  exact ⟨j, hj, next⟩

/-- The items of a rule that was entered are met along its right side. -/
theorem mem_along_of_initial_mem {front : List Symbol} (h : .initial r ∈ along g front)
    (fits : (g.rule r).right.size ≤ 65535) {k : Nat} (hk : k ≤ (g.rule r).right.size) :
    ∃ i ∈ along g (front ++ (g.rule r).right.toList.take k), i.rule = r ∧ i.dot.toNat = k := by
  induction k with
  | zero => exact ⟨.initial r, by simpa using h, rfl, rfl⟩
  | succ k ih =>
    obtain ⟨i, hi, rfl, rfl⟩ := ih (Nat.le_of_succ_le hk)
    have lt : i.dot.toNat < (g.rule i.rule).right.size := hk
    have next : i.next? g = some (g.rule i.rule).right[i.dot.toNat] :=
      Array.getElem?_eq_getElem lt
    refine ⟨i.moved, ?_, rfl, Item.moved_dot next fits⟩
    rw [Item.take_succ_of_next next, ← List.append_assoc]
    exact moved_mem_along hi next

end ItemSet

namespace Grammar

variable {g : Grammar} {form : List Symbol} {i : Item} {r : RuleId} {n : Nonterminal}

/-- The right sides of all rules that derivations use fit the positions of a dot. -/
def DotsFit (g : Grammar) : Prop :=
  ∀ r ∈ g.rules.toList, g.Occurs r.left → r.right.size ≤ 65535

/-- What stands before a nonterminal when the rules above it have been entered one in another. -/
inductive LeftContext (g : Grammar) : Nonterminal → List Symbol → Prop
  | augmented : LeftContext g .augmented []
  | enter {r : Rule} (mem : r ∈ g.rules.toList) {context before after : List Symbol}
    {n : Nonterminal} (above : LeftContext g r.left context)
    (e : r.right.toList = before ++ .nonterminal n :: after) : LeftContext g n (context ++ before)

/-- Nothing stands before the start symbol. -/
theorem LeftContext.start : g.LeftContext g.start [] :=
  @LeftContext.enter g _ (augmenting_mem_rules g) [] [] [] g.start .augmented rfl

/-- A nonterminal on the right of a rule occurs when its left side does or is augmented. -/
theorem occurs_of_mem_right {x : Rule} (mem : x ∈ g.rules.toList)
    (left : x.left = .augmented ∨ g.Occurs x.left) (hn : .nonterminal n ∈ x.right.toList) :
    g.Occurs n := by
  rcases left with left | left
  · obtain ⟨id, _, rfl⟩ := mem_rules_iff.1 mem
    rw [left_eq_augmented_iff.1 left] at hn
    obtain rfl : n = g.start := by simpa [Rule.augmenting] using hn
    exact occurs_start g
  · exact left.of_rule mem hn

theorem LeftContext.occurs (h : g.LeftContext n form) : n = .augmented ∨ g.Occurs n := by
  induction h with
  | augmented => exact .inl rfl
  | enter mem _ e ih => exact .inr (occurs_of_mem_right mem ih (by rw [e]; simp))

/-- A rule that can be entered fits. -/
theorem DotsFit.size_le (fits : g.DotsFit) (mem : r ∈ g.ruleIds)
    (h : (g.rule r).left = .augmented ∨ g.Occurs (g.rule r).left) :
    (g.rule r).right.size ≤ 65535 := by
  rcases h with h | h
  · rw [left_eq_augmented_iff.1 h]
    simp [Rule.augmenting]
  · exact fits _ (mem_rules_iff.2 ⟨r, mem, rfl⟩) h

end Grammar

namespace ItemSet

variable {g : Grammar} {form : List Symbol} {i : Item} {r : RuleId} {n : Nonterminal}

/-- An item met along a form: what stands before its dot ends the form, and the rest of the form
is a left context of its rule. -/
theorem leftContext_of_mem_along (fits : g.DotsFit) (hi : i ∈ along g form) :
    i.rule ∈ g.ruleIds ∧ ∃ front,
      form = front ++ (g.rule i.rule).right.toList.take i.dot.toNat ∧
        g.LeftContext (g.rule i.rule).left front := by
  refine along_induction (p := fun form i ↦ i.rule ∈ g.ruleIds ∧ ∃ front,
    form = front ++ (g.rule i.rule).right.toList.take i.dot.toNat ∧
      g.LeftContext (g.rule i.rule).left front) ?_ ?_ ?_ hi
  · refine ⟨Grammar.accept_mem_ruleIds, [], by simp [Item.initial], ?_⟩
    rw [Item.initial, Grammar.left_accept]
    exact .augmented
  · intro form i x _ ih next
    obtain ⟨mem, front, e, context⟩ := ih
    refine ⟨mem, front, ?_, context⟩
    rw [Item.moved_rule, Item.moved_dot next (fits.size_le mem context.occurs),
      Item.take_succ_of_next next, ← List.append_assoc, ← e]
  · intro form i n r _ ih next hr
    obtain ⟨mem, front, e, context⟩ := ih
    obtain ⟨lt, left⟩ := Grammar.mem_rulesFor.1 hr
    refine ⟨Grammar.mem_ruleIds.2 lt, form, by simp [Item.initial], ?_⟩
    rw [Item.initial, left, e]
    exact .enter (Grammar.mem_rules_iff.2 ⟨i.rule, mem, rfl⟩) context
      (Item.right_eq_of_next next)

/-- The rules of a nonterminal are entered along its left contexts. -/
theorem mem_along_of_leftContext (fits : g.DotsFit) (h : g.LeftContext n form)
    (hr : r ∈ g.rulesFor n) : .initial r ∈ along g form := by
  induction h generalizing r with
  | augmented =>
    obtain ⟨lt, left⟩ := Grammar.mem_rulesFor.1 hr
    rw [Grammar.eq_accept_of_left left (Grammar.mem_ruleIds.2 lt)]
    exact initial_accept_mem_along_nil
  | @enter x mem context before after n above e ih =>
    obtain ⟨id, hid, rfl⟩ := Grammar.mem_rules_iff.1 mem
    have entered := ih (Grammar.mem_rulesFor.2 ⟨Grammar.mem_ruleIds.1 hid, rfl⟩)
    have size := congrArg List.length e
    simp only [Array.length_toList, List.length_append, List.length_cons] at size
    obtain ⟨i, hi, rfl, dot⟩ := mem_along_of_initial_mem entered
      (fits.size_le hid above.occurs) (k := before.length) (by omega)
    rw [e, List.take_left] at hi
    refine initial_mem_along hi ?_ hr
    rw [Item.next?, dot, ← Array.getElem?_toList, e]
    simp

end ItemSet

end SimpleLR

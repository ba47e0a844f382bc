import SimpleLR.Grammar.Builder
import SimpleLR.Proofs.Grammar.Declarations
import SimpleLR.Proofs.Item.Closure

/-!
# Advancing a dot to the end

Advancing moves a dot on by one position until it stands behind the last symbol. Positions have 16
bits, and nothing limits the length of a right side. So the dot gets behind right sides of at most
65535 symbols, in as many steps as there are symbols, and behind no others: there it comes back to
the front after 65536 steps, again and again (`Item.walksToEnd_iff`). With a check for overflow the
walk of these stops at position 65535, one symbol or more before the end, and does not get there
either.
-/

namespace SimpleLR

namespace Item

/-- The item that so many advances lead to, none if one of them is refused. -/
def advanced? (g : Grammar) (i : Item) : Nat → Option Item
  | 0 => some i
  | k + 1 => (advanced? g i k).bind (·.advance? g)

/-- From the front of a rule, each advance moves the dot on by one position. After as many advances
as there are symbols the item is complete, and it is advanced no more. -/
structure WalksToEnd (g : Grammar) (r : RuleId) : Prop where
  positions : ∀ k ≤ (g.rule r).right.size, ∃ i, advanced? g (.initial r) k = some i ∧
    i.rule = r ∧ i.dot.toNat = k
  complete : ∃ i, advanced? g (.initial r) (g.rule r).right.size = some i ∧
    i.isComplete g = true ∧ i.advance? g = none

/-- From the front of a rule, advancing comes back to the front after 65536 steps and never ends, and
no item of the rule is complete. -/
structure WalksRound (g : Grammar) (r : RuleId) : Prop where
  positions : ∀ k, ∃ i, advanced? g (.initial r) k = some i ∧ i.rule = r ∧ i.dot.toNat = k % 65536
  incomplete : ∀ i : Item, i.rule = r → i.isComplete g = false

variable {g : Grammar} {r : RuleId} {i : Item} {k : Nat}

theorem isComplete_eq_false_iff :
    i.isComplete g = false ↔ i.dot.toNat < (g.rule i.rule).right.size := by
  rw [isComplete, decide_eq_false_iff_not, Nat.not_le]

theorem advance?_of_lt (h : i.dot.toNat < (g.rule i.rule).right.size) :
    i.advance? g = some i.moved := by
  rw [advance?, isComplete_eq_false_iff.2 h]
  rfl

theorem advance?_of_isComplete (h : i.isComplete g = true) : i.advance? g = none := by
  rw [advance?, if_pos h]

/-- The dot counts the advances, as far as 16 bits can, while symbols are left. -/
theorem advanced?_initial (left : ∀ j < k, j % 65536 < (g.rule r).right.size) :
    advanced? g (.initial r) k = some ⟨r, .ofNat k⟩ := by
  induction k with
  | zero => rfl
  | succ k ih =>
    have here : (UInt16.ofNat k).toNat < (g.rule r).right.size := by
      rw [UInt16.toNat_ofNat']
      exact left k (Nat.lt_succ_self k)
    rw [advanced?, ih fun j lt ↦ left j (Nat.lt_succ_of_lt lt), Option.bind_some,
      advance?_of_lt here, moved, UInt16.ofNat_add]
    rfl

theorem walksToEnd_of_size_le (fits : (g.rule r).right.size ≤ 65535) : WalksToEnd g r := by
  have walked : ∀ k ≤ (g.rule r).right.size, advanced? g (.initial r) k = some ⟨r, .ofNat k⟩ :=
    fun k le ↦ advanced?_initial fun j lt ↦ by omega
  have position : ∀ k ≤ (g.rule r).right.size, (UInt16.ofNat k).toNat = k :=
    fun k le ↦ UInt16.toNat_ofNat_of_lt' (by rw [UInt16.size]; omega)
  have complete : isComplete g ⟨r, .ofNat (g.rule r).right.size⟩ = true :=
    decide_eq_true (Nat.le_of_eq (position _ (Nat.le_refl _)).symm)
  exact ⟨fun k le ↦ ⟨_, walked k le, rfl, position k le⟩,
    _, walked _ (Nat.le_refl _), complete, advance?_of_isComplete complete⟩

theorem walksRound_of_size_lt (long : 65535 < (g.rule r).right.size) : WalksRound g r where
  positions k := by
    refine ⟨_, advanced?_initial fun j _ ↦ ?_, rfl, UInt16.toNat_ofNat'⟩
    exact Nat.lt_of_lt_of_le (Nat.mod_lt j (Nat.zero_lt_succ _)) long
  incomplete i e := by
    subst e
    exact isComplete_eq_false_iff.2 (Nat.lt_of_lt_of_le i.dot.toNat_lt long)

theorem WalksToEnd.not_walksRound (walks : WalksToEnd g r) : ¬ WalksRound g r := by
  intro round
  obtain ⟨i, walked, complete, _⟩ := walks.complete
  obtain ⟨j, walked', rule, _⟩ := walks.positions _ (Nat.le_refl _)
  obtain rfl := Option.some.inj (walked'.symm.trans walked)
  rw [round.incomplete j rule] at complete
  cases complete

end Item

namespace Grammar

/-- Declares the rule of `S` with so many symbols `a` on its right. -/
def repeating (k : Nat) : Build Unit := do
  let a ← Builder.terminal "a"
  let s ← Builder.nonterminal "S"
  discard (Builder.rule s (.replicate k (.terminal a)))

/-- No right side is too long to be declared. -/
theorem define_repeating (k : Nat) :
    ∃ g, define (repeating k) = .ok g ∧ (g.rule ⟨1⟩).right.size = k := by
  obtain ⟨b₁, b₂, named₁, named₂, a, s, rules, start⟩ : ∃ b₁ b₂,
      Builder.terminal "a" .empty = .ok (⟨1⟩, b₁) ∧ Builder.nonterminal "S" b₁ = .ok (⟨1⟩, b₂) ∧
        b₂.Declares (.terminal ⟨1⟩) ∧ b₂.Declares (.nonterminal ⟨1⟩) ∧
        b₂.rules = #[] ∧ b₂.start = none :=
    ⟨_, _, rfl, rfl, by decide, by decide, rfl, rfl⟩
  have declared : b₂.DeclaresRule ⟨⟨1⟩, .replicate k (.terminal ⟨1⟩)⟩ := by
    refine ⟨s, fun x mem ↦ ?_⟩
    rw [Array.toList_replicate] at mem
    rwa [List.eq_of_mem_replicate mem]
  have fresh : (⟨⟨1⟩, .replicate k (.terminal ⟨1⟩)⟩ : Rule) ∉ b₂.rules.toList := by
    rw [rules]
    exact List.not_mem_nil
  have room : b₂.rules.size + 1 < numberLimit := by
    rw [rules]
    decide
  have ruled := Builder.rule_eq_ok_iff.2 ⟨room, declared, fresh, rfl, rfl⟩
  have starts : (b₂.addRule _ declared fresh).start.getD ⟨1⟩ = ⟨1⟩ := by
    change b₂.start.getD ⟨1⟩ = ⟨1⟩
    rw [start, Option.getD_none]
  have finished := Builder.finish_of_declares (b := b₂.addRule _ declared fresh) (by rwa [starts])
  have made : repeating k .empty = .ok ((), b₂.addRule _ declared fresh) :=
    StateT.bind_eq_ok_iff.2 ⟨_, _, named₁, StateT.bind_eq_ok_iff.2 ⟨_, _, named₂,
      StateT.map_eq_ok_iff.2 ⟨_, ruled, rfl⟩⟩⟩
  refine ⟨_, Except.bind_eq_ok_iff.2 ⟨_, made, finished⟩, ?_⟩
  rw [rule_of_getElem? (x := ⟨⟨1⟩, .replicate k (.terminal ⟨1⟩)⟩) ?_, Array.size_replicate]
  rw [← Array.getElem?_toList, Builder.rules_augment]
  change (b₂.rules.push _).toList[0]? = _
  rw [rules]
  rfl

end Grammar

end SimpleLR

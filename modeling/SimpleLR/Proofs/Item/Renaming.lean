import SimpleLR.Proofs.Grammar.Renaming
import SimpleLR.Proofs.Item.Closure

/-!
# Item sets under a renaming

An item is renamed by its rule, and the dot stays where it is. Renaming an item set commutes with
closures and with transitions (`Renaming.items_closure`, `Renaming.items_goto`), though the items of
a renamed set may stand in another order.
-/

namespace SimpleLR

namespace Renaming

variable {g g' : Grammar} (R : Renaming g g') {i j : Item} {s : ItemSet} {x : Symbol}
  {core core' : List Item}

/-- The item of the renamed rule. -/
def item (i : Item) : Item := ⟨R.rule i.rule, i.dot⟩

@[simp] theorem item_initial (r : RuleId) : R.item (.initial r) = .initial (R.rule r) := rfl

@[simp] theorem symm_item (i : Item) : R.symm.item (R.item i) = i := by
  simp [item, symm]

theorem item_inj : R.item i = R.item j ↔ i = j :=
  ⟨fun e ↦ by rw [← R.symm_item i, e, R.symm_item], congrArg R.item⟩

@[simp] theorem next?_item (i : Item) : (R.item i).next? g' = (i.next? g).map R.symbol := by
  simp [item, Item.next?, R.right_eq]

theorem next?_item_eq_some : (R.item i).next? g' = some (R.symbol x) ↔ i.next? g = some x := by
  rw [next?_item, Option.map_eq_some_iff]
  simp [R.symbol_inj]

@[simp] theorem isComplete_item (i : Item) : (R.item i).isComplete g' = i.isComplete g := by
  simp [item, Item.isComplete, R.right_eq]

/-! ## Sets -/

/-- The set of the renamed items. -/
def items (s : ItemSet) : ItemSet := .ofList (s.items.map R.item)

theorem mem_items : j ∈ R.items s ↔ ∃ i ∈ s, R.item i = j := by
  rw [items, ItemSet.mem_ofList, List.mem_map]
  rfl

@[simp] theorem item_mem_items : R.item i ∈ R.items s ↔ i ∈ s := by
  simp [mem_items, R.item_inj]

@[simp] theorem symm_items (s : ItemSet) : R.symm.items (R.items s) = s := by
  refine ItemSet.ext fun i ↦ ?_
  conv_lhs => rw [← R.symm_item i]
  rw [item_mem_items, item_mem_items]

theorem items_injective : Function.Injective R.items := fun s s' e ↦ by
  rw [← R.symm_items s, e, R.symm_items]

/-- Renamed items have the renamed closure. -/
theorem item_mem_closure (h : ∀ i ∈ core, R.item i ∈ core') (hi : i ∈ ItemSet.closure g core) :
    R.item i ∈ ItemSet.closure g' core' := by
  refine ItemSet.closure_induction (p := fun i ↦ R.item i ∈ ItemSet.closure g' core')
    (fun i hi ↦ ItemSet.mem_closure_of_mem (h i hi)) (fun i n r _ hi next hr ↦ ?_) i hi
  obtain ⟨lt, rfl⟩ := Grammar.mem_rulesFor.1 hr
  have mem := (R.rule_mem_iff r).2 (Grammar.mem_ruleIds.2 lt)
  exact ItemSet.initial_mem_closure hi ((R.next?_item_eq_some).2 next)
    (Grammar.mem_rulesFor.2 ⟨Grammar.mem_ruleIds.1 mem, R.left_rule r⟩)

theorem items_closure (h : ∀ j, j ∈ core' ↔ ∃ i ∈ core, R.item i = j) :
    R.items (.closure g core) = .closure g' core' := by
  refine ItemSet.ext fun j ↦ ⟨fun hj ↦ ?_, fun hj ↦ ?_⟩
  · obtain ⟨i, hi, rfl⟩ := R.mem_items.1 hj
    exact R.item_mem_closure (fun i hi ↦ (h _).2 ⟨i, hi, rfl⟩) hi
  · have back : R.symm.item j ∈ ItemSet.closure g core := by
      refine R.symm.item_mem_closure (fun j hj ↦ ?_) hj
      obtain ⟨i, hi, rfl⟩ := (h j).1 hj
      rwa [symm_item]
    exact R.mem_items.2 ⟨_, back, R.symm.symm_item j⟩

theorem items_initial : R.items (.initial g) = .initial g' :=
  R.items_closure fun j ↦ by simp [R.rule_accept, eq_comm]

/-- The kernel over a renamed symbol has the renamed items. -/
theorem mem_kernel :
    j ∈ (R.items s).kernel g' (R.symbol x) ↔ ∃ i ∈ s.kernel g x, R.item i = j := by
  simp only [ItemSet.mem_kernel]
  constructor
  · rintro ⟨_, mem, next, rfl⟩
    obtain ⟨i, hi, rfl⟩ := R.mem_items.1 mem
    exact ⟨_, ⟨i, hi, R.next?_item_eq_some.1 next, rfl⟩, rfl⟩
  · rintro ⟨_, ⟨i, hi, next, rfl⟩, rfl⟩
    exact ⟨_, R.item_mem_items.2 hi, R.next?_item_eq_some.2 next, rfl⟩

theorem kernel_eq_nil_iff : (R.items s).kernel g' (R.symbol x) = [] ↔ s.kernel g x = [] := by
  simp only [List.eq_nil_iff_forall_not_mem, R.mem_kernel]
  exact ⟨fun none i hi ↦ none _ ⟨i, hi, rfl⟩, fun none j ⟨i, hi, _⟩ ↦ none i hi⟩

theorem items_goto (s : ItemSet) (x : Symbol) :
    R.items (s.goto g x) = (R.items s).goto g' (R.symbol x) :=
  R.items_closure fun _ ↦ R.mem_kernel

end Renaming

end SimpleLR

import Mathlib.Data.List.Nodup
import SimpleLR.Grammar.Alphabet

/-!
# Looking up names

No name is given twice, so a symbol is found again by its name, and only by it
(`Alphabet.symbol?_eq_some_iff`).
-/

namespace SimpleLR

/-- Where a list holds no element twice, the place that is found is the place of the element. -/
theorem findIdx?_eq_some_iff_of_nodup {α : Type} [DecidableEq α] {l : List α} (h : l.Nodup) {a : α}
    {i : Nat} : l.findIdx? (· == a) = some i ↔ l[i]? = some a := by
  rw [List.findIdx?_eq_some_iff_getElem, List.getElem?_eq_some_iff]
  constructor
  · rintro ⟨lt, found, _⟩
    exact ⟨lt, eq_of_beq found⟩
  · rintro ⟨lt, rfl⟩
    refine ⟨lt, beq_self_eq_true _, fun j before found ↦ ?_⟩
    exact Nat.ne_of_lt before (h.getElem_inj_iff.1 (eq_of_beq found))

namespace Alphabet

variable {a : Alphabet} {name : String} {t : Terminal} {n : Nonterminal} {s : Symbol}

theorem terminal?_eq_some_iff : a.terminal? name = some t ↔ a.terminals[t.index]? = some name := by
  obtain ⟨i⟩ := t
  rw [terminal?, ← Array.getElem?_toList,
    ← findIdx?_eq_some_iff_of_nodup (List.nodup_append.1 a.names_nodup).1]
  simp

theorem nonterminal?_eq_some_iff :
    a.nonterminal? name = some n ↔ a.nonterminals[n.index]? = some name := by
  obtain ⟨i⟩ := n
  rw [nonterminal?, ← Array.getElem?_toList,
    ← findIdx?_eq_some_iff_of_nodup (List.nodup_append.1 a.names_nodup).2.1]
  simp

/-- The name of a symbol, if it has one. -/
def name? (a : Alphabet) : Symbol → Option String
  | .terminal t => a.terminals[t.index]?
  | .nonterminal n => a.nonterminals[n.index]?

theorem name?_eq_some_iff : a.name? s = some name ↔ a.hasName s = true ∧ a.symbolName s = name := by
  have entry (names : Array String) (i : Nat) :
      names[i]? = some name ↔ i < names.size ∧ names[i]?.getD "" = name := by
    by_cases lt : i < names.size <;> simp [lt]
  cases s with
  | terminal t =>
    exact (entry a.terminals t.index).trans (by rw [hasName, decide_eq_true_iff]; rfl)
  | nonterminal n =>
    exact (entry a.nonterminals n.index).trans (by rw [hasName, decide_eq_true_iff]; rfl)

/-- The names are those of symbols. -/
theorem mem_names_iff : name ∈ a.names ↔ ∃ s, a.name? s = some name := by
  rw [names, List.mem_append, Array.mem_toList_iff, Array.mem_toList_iff, Array.mem_iff_getElem?,
    Array.mem_iff_getElem?]
  constructor
  · rintro (⟨i, h⟩ | ⟨i, h⟩)
    · exact ⟨.terminal ⟨i⟩, h⟩
    · exact ⟨.nonterminal ⟨i⟩, h⟩
  · rintro ⟨t | n, h⟩
    · exact .inl ⟨t.index, h⟩
    · exact .inr ⟨n.index, h⟩

/-- A name is looked up to the symbol that it names. -/
theorem symbol?_eq_some_iff :
    a.symbol? name = some s ↔ a.hasName s = true ∧ a.symbolName s = name := by
  have apart {t n : Nat} (ht : a.terminals[t]? = some name) : a.nonterminals[n]? ≠ some name := by
    intro hn
    exact (List.nodup_append.1 a.names_nodup).2.2 name
      (Array.mem_toList_iff.2 (Array.mem_of_getElem? ht)) name
      (Array.mem_toList_iff.2 (Array.mem_of_getElem? hn)) rfl
  rw [symbol?, ← name?_eq_some_iff]
  cases s with
  | terminal t =>
    rw [name?, ← terminal?_eq_some_iff]
    cases a.terminal? name <;> cases a.nonterminal? name <;> simp
  | nonterminal n =>
    rw [name?, ← nonterminal?_eq_some_iff]
    cases found : a.terminal? name with
    | none => cases a.nonterminal? name <;> simp
    | some t =>
      have none_found : ∀ n, a.nonterminal? name ≠ some n := fun n h ↦
        apart (terminal?_eq_some_iff.1 found) (nonterminal?_eq_some_iff.1 h)
      simp [none_found]

theorem symbol?_eq_some_iff_name? : a.symbol? name = some s ↔ a.name? s = some name :=
  symbol?_eq_some_iff.trans name?_eq_some_iff.symm

theorem symbol?_eq_none_iff : a.symbol? name = none ↔ name ∉ a.names := by
  rw [mem_names_iff, Option.eq_none_iff_forall_ne_some, not_exists]
  exact forall_congr' fun s ↦ not_congr symbol?_eq_some_iff_name?

theorem symbol?_symbolName (h : a.hasName s = true) : a.symbol? (a.symbolName s) = some s :=
  symbol?_eq_some_iff.2 ⟨h, rfl⟩

/-- The symbols are those that have a name. -/
theorem mem_symbols_iff : s ∈ a.symbols ↔ a.hasName s = true := by
  cases s with
  | terminal t =>
    obtain ⟨i⟩ := t
    simp [symbols, terminalList, nonterminalList, hasName]
  | nonterminal n =>
    obtain ⟨i⟩ := n
    simp [symbols, terminalList, nonterminalList, hasName]

end Alphabet

end SimpleLR

import SimpleLR.Grammar.Derives
import SimpleLR.Proofs.Grammar.Rules

/-!
# What a form yields

`Yields` reads a derivation as a tree: a form yields a terminal sequence symbol by symbol, each
nonterminal through one of its rules.  A form yields whatever terminal sequence it derives
(`Derives.yields`), so a form whose nonterminals are all productive yields something
(`exists_yields`).
-/

namespace SimpleLR

/-- A symbol in two joined lists stands in the first or in the second. -/
theorem append_eq_append_cons_iff {α : Type} {a b before after : List α} {x : α} :
    a ++ b = before ++ x :: after ↔
      (∃ m, a = before ++ x :: m ∧ after = m ++ b) ∨
        ∃ m, before = a ++ m ∧ b = m ++ x :: after := by
  rw [List.append_eq_append_iff]
  constructor
  · rintro (h | ⟨m, rfl, e⟩)
    · exact .inr h
    · rcases List.cons_eq_append_iff.1 e with ⟨rfl, rfl⟩ | ⟨m, rfl, rfl⟩
      · exact .inr ⟨[], by simp, rfl⟩
      · exact .inl ⟨m, rfl, rfl⟩
  · rintro (⟨m, rfl, rfl⟩ | h)
    · exact .inr ⟨x :: m, rfl, rfl⟩
    · exact .inl h

namespace Grammar

/-- A form yields a terminal sequence when its terminals stand for themselves and each of its
nonterminals for something that one of its right sides yields. -/
inductive Yields (g : Grammar) : List Symbol → List Terminal → Prop
  | nil : Yields g [] []
  | terminal (t : Terminal) {form : List Symbol} {w : List Terminal} (rest : Yields g form w) :
    Yields g (.terminal t :: form) (t :: w)
  | nonterminal {r : Rule} (mem : r ∈ g.rules.toList) {form : List Symbol}
    {v w : List Terminal} (right : Yields g r.right.toList v) (rest : Yields g form w) :
    Yields g (.nonterminal r.left :: form) (v ++ w)

variable {g : Grammar} {a b form : List Symbol} {v w : List Terminal} {n : Nonterminal}

/-- Terminals yield themselves. -/
theorem Yields.map_terminal (g : Grammar) (w : List Terminal) : g.Yields (w.map .terminal) w := by
  induction w with
  | nil => exact .nil
  | cons t w ih => exact .terminal t ih

theorem Yields.append (ha : g.Yields a v) (hb : g.Yields b w) : g.Yields (a ++ b) (v ++ w) := by
  induction ha with
  | nil => exact hb
  | terminal t _ ih => exact .terminal t ih
  | nonterminal mem right _ _ ih =>
    rw [List.append_assoc]
    exact .nonterminal mem right ih

/-- What joined forms yield is joined from what they yield. -/
theorem Yields.of_append (h : g.Yields (a ++ b) w) :
    ∃ u v, w = u ++ v ∧ g.Yields a u ∧ g.Yields b v := by
  induction a generalizing w with
  | nil => exact ⟨[], w, rfl, .nil, h⟩
  | cons s a ih =>
    cases h with
    | terminal t rest =>
      obtain ⟨u, v, rfl, ha, hb⟩ := ih rest
      exact ⟨t :: u, v, rfl, .terminal t ha, hb⟩
    | nonterminal mem right rest =>
      obtain ⟨u, v, rfl, ha, hb⟩ := ih rest
      exact ⟨_, v, (List.append_assoc _ u v).symm, .nonterminal mem right ha, hb⟩

theorem Yields.of_rewrites (rw : g.Rewrites a b) (h : g.Yields b w) : g.Yields a w := by
  obtain ⟨mem, before, after⟩ := rw
  obtain ⟨u, _, rfl, hb, h⟩ := h.of_append
  obtain ⟨v, v', rfl, hr, ha⟩ := h.of_append
  exact hb.append (.nonterminal mem hr ha)

theorem Yields.of_derives (d : g.Derives a b) (h : g.Yields b w) : g.Yields a w := by
  induction d with
  | refl => exact h
  | tail _ last ih => exact ih (h.of_rewrites last)

/-- A form yields the terminal sequences that it derives. -/
theorem Derives.yields (d : g.Derives a (w.map .terminal)) : g.Yields a w :=
  (Yields.map_terminal g w).of_derives d

/-- The symbols of what a nonterminal derives are declared, but for the nonterminal itself. -/
theorem eq_or_declares_of_derives (h : g.Derives [.nonterminal n] b) :
    ∀ s ∈ b, s = .nonterminal n ∨ g.Declares s := by
  induction h with
  | refl =>
    intro s hs
    exact .inl (List.mem_singleton.1 hs)
  | tail _ last ih =>
    obtain ⟨mem, before, after⟩ := last
    obtain ⟨id, _, rfl⟩ := mem_rules_iff.1 mem
    intro s hs
    simp only [List.mem_append, List.mem_cons] at hs ih
    rcases hs with hs | hs | hs
    · exact ih s (.inl hs)
    · exact .inr (declares_of_mem_right hs)
    · exact ih s (.inr (.inr hs))

/-! ## Nonterminals that occur, nonterminals that are productive -/

/-- A nonterminal occurs in some form that the start symbol derives. -/
def Occurs (g : Grammar) (n : Nonterminal) : Prop :=
  ∃ before after, g.Derives [.nonterminal g.start] (before ++ .nonterminal n :: after)

/-- A nonterminal derives some terminal sequence. -/
def Productive (g : Grammar) (n : Nonterminal) : Prop :=
  ∃ w : List Terminal, g.Derives [.nonterminal n] (w.map .terminal)

theorem augmenting_mem_rules (g : Grammar) : .augmenting g.start ∈ g.rules.toList := by
  rw [← rule_accept (g := g)]
  exact rule_mem_rules .accept

/-- The augmented nonterminal derives the start symbol. -/
theorem derives_start (g : Grammar) :
    g.Derives [.nonterminal .augmented] [.nonterminal g.start] :=
  (Rewrites.rule (augmenting_mem_rules g) [] []).derives

theorem occurs_start (g : Grammar) : g.Occurs g.start := ⟨[], [], .refl _⟩

/-- The nonterminals on the right of a rule occur when its left side does. -/
theorem Occurs.of_rule {r : Rule} (h : g.Occurs r.left) (mem : r ∈ g.rules.toList)
    (hn : .nonterminal n ∈ r.right.toList) : g.Occurs n := by
  obtain ⟨before, after, d⟩ := h
  obtain ⟨front, rest, e⟩ := List.append_of_mem hn
  refine ⟨before ++ front, rest ++ after, ?_⟩
  have last := Rewrites.rule mem before after
  rw [e] at last
  simpa using d.tail last

/-- A form whose nonterminals are productive yields something. -/
theorem exists_yields (h : ∀ n, .nonterminal n ∈ form → g.Productive n) :
    ∃ w, g.Yields form w := by
  induction form with
  | nil => exact ⟨[], .nil⟩
  | cons s form ih =>
    obtain ⟨w, rest⟩ := ih fun n hn ↦ h n (List.mem_cons_of_mem _ hn)
    cases s with
    | terminal t => exact ⟨t :: w, .terminal t rest⟩
    | nonterminal n =>
      obtain ⟨v, d⟩ := h n List.mem_cons_self
      exact ⟨v ++ w, d.yields.append rest⟩

end Grammar

end SimpleLR

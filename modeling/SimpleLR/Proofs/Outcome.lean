import Mathlib.Data.List.Forall2

/-!
# Computations that may fail

When a computation that may fail, with or without a state, comes to a result: each of its parts
does.
-/

namespace SimpleLR

theorem Except.bind_eq_ok_iff {ε α β : Type} {x : Except ε α} {f : α → Except ε β} {b : β} :
    x.bind f = .ok b ↔ ∃ a, x = .ok a ∧ f a = .ok b := by
  cases x with
  | error e => simp [Except.bind]
  | ok a => simp [Except.bind]

theorem Except.bind_eq_error_iff {ε α β : Type} {x : Except ε α} {f : α → Except ε β} {e : ε} :
    x.bind f = .error e ↔ x = .error e ∨ ∃ a, x = .ok a ∧ f a = .error e := by
  cases x with
  | error e' => simp [Except.bind]
  | ok a => simp [Except.bind]

variable {ε α β σ : Type} {s s' : σ}

/-- What the errors are makes no difference. -/
theorem Except.mapError_eq_ok_iff {ε' : Type} {x : Except ε α} {g : ε → ε'} {a : α} :
    x.mapError g = .ok a ↔ x = .ok a := by
  cases x with
  | error e => exact ⟨nofun, nofun⟩
  | ok b => exact ⟨fun h ↦ congrArg _ (Except.ok.inj h), fun h ↦ congrArg _ (Except.ok.inj h)⟩

/-- A list is mapped with success when each of its members is. -/
theorem Except.mapM_eq_ok_iff {f : α → Except ε β} {l : List α} {l' : List β} :
    l.mapM f = .ok l' ↔ List.Forall₂ (fun a b ↦ f a = .ok b) l l' := by
  induction l generalizing l' with
  | nil =>
    rw [List.mapM_nil, List.forall₂_nil_left_iff]
    exact ⟨fun h ↦ (Except.ok.inj h).symm, fun h ↦ h ▸ rfl⟩
  | cons a l ih =>
    rw [List.mapM_cons, List.forall₂_cons_left_iff]
    refine Except.bind_eq_ok_iff.trans ⟨?_, ?_⟩
    · rintro ⟨b, hb, h⟩
      obtain ⟨bs, hbs, h⟩ := Except.bind_eq_ok_iff.1 h
      exact ⟨b, bs, hb, ih.1 hbs, (Except.ok.inj h).symm⟩
    · rintro ⟨b, bs, hb, hbs, rfl⟩
      exact ⟨b, hb, Except.bind_eq_ok_iff.2 ⟨bs, ih.2 hbs, rfl⟩⟩

/-- When mapping a list fails, it fails at a member. -/
theorem Except.exists_of_mapM_eq_error {f : α → Except ε β} {l : List α} {e : ε}
    (h : l.mapM f = .error e) : ∃ a ∈ l, f a = .error e := by
  induction l with
  | nil => cases h
  | cons a l ih =>
    rw [List.mapM_cons] at h
    rcases Except.bind_eq_error_iff.1 h with h | ⟨b, _, h⟩
    · exact ⟨a, List.mem_cons_self, h⟩
    · rcases Except.bind_eq_error_iff.1 h with h | ⟨bs, _, h⟩
      · obtain ⟨a', mem, h⟩ := ih h
        exact ⟨a', List.mem_cons_of_mem a mem, h⟩
      · cases h

theorem StateT.bind_eq_ok_iff {x : StateT σ (Except ε) α} {f : α → StateT σ (Except ε) β}
    {r : β × σ} : (x >>= f) s = .ok r ↔ ∃ a s', x s = .ok (a, s') ∧ f a s' = .ok r :=
  Except.bind_eq_ok_iff.trans Prod.exists

/-- What may fail without a state leaves the state as it is. -/
theorem StateT.liftM_eq_ok_iff {x : Except ε α} {a : α} :
    (liftM x : StateT σ (Except ε) α) s = .ok (a, s') ↔ x = .ok a ∧ s' = s := by
  change x.bind (fun a ↦ .ok (a, s)) = .ok (a, s') ↔ _
  rw [Except.bind_eq_ok_iff]
  constructor
  · rintro ⟨b, h, ⟨⟩⟩
    exact ⟨h, rfl⟩
  · rintro ⟨h, rfl⟩
    exact ⟨a, h, rfl⟩

theorem StateT.run'_eq_ok_iff {x : StateT σ (Except ε) α} {a : α} :
    x.run' s = .ok a ↔ ∃ s', x s = .ok (a, s') := by
  change (x s).map (·.1) = .ok a ↔ _
  rcases x s with e | ⟨b, s₁⟩
  · exact ⟨nofun, nofun⟩
  · constructor
    · rintro ⟨⟩
      exact ⟨s₁, rfl⟩
    · rintro ⟨_, ⟨⟩⟩
      rfl

theorem StateT.run'_eq_error_iff {x : StateT σ (Except ε) α} {e : ε} :
    x.run' s = .error e ↔ x s = .error e := by
  change (x s).map (·.1) = .error e ↔ _
  cases x s with
  | error e' => exact ⟨fun h ↦ by cases h; rfl, fun h ↦ by cases h; rfl⟩
  | ok r => exact ⟨nofun, nofun⟩

theorem StateT.map_eq_ok_iff {x : StateT σ (Except ε) α} {f : α → β} {b : β} :
    (f <$> x) s = .ok (b, s') ↔ ∃ a, x s = .ok (a, s') ∧ f a = b := by
  change (x s).bind (fun p ↦ .ok (f p.1, p.2)) = .ok (b, s') ↔ _
  rw [Except.bind_eq_ok_iff]
  constructor
  · rintro ⟨⟨a, s₁⟩, h, ⟨⟩⟩
    exact ⟨a, h, rfl⟩
  · rintro ⟨a, h, rfl⟩
    exact ⟨(a, s'), h, rfl⟩

/-! ## When a computation comes to a result, and to which -/

/-- From a state, a computation comes to a result exactly under a condition; what the result and the
new state are then like. -/
structure Yields (x : StateT σ (Except ε) α) (s : σ) (condition : Prop) (post : α → σ → Prop) :
    Prop where
  total : condition → ∃ a s', x s = .ok (a, s')
  sound : ∀ {a s'}, x s = .ok (a, s') → condition ∧ post a s'

namespace Yields

variable {x : StateT σ (Except ε) α} {f : α → StateT σ (Except ε) β} {p p' : Prop}
  {post : α → σ → Prop} {post' : β → σ → Prop}

theorem of_eq_ok {a : α} (h : x s = .ok (a, s')) (holds : p) (after : post a s') :
    Yields x s p post where
  total _ := ⟨a, s', h⟩
  sound e := by
    cases h.symm.trans e
    exact ⟨holds, after⟩

theorem of_eq_error {e : ε} (h : x s = .error e) (fails : ¬ p) : Yields x s p post where
  total holds := absurd holds fails
  sound e' := nomatch h.symm.trans e'

theorem congr (h : Yields x s p post) (same : p ↔ p') : Yields x s p' post where
  total holds := h.total (same.2 holds)
  sound e := (h.sound e).imp same.1 id

theorem of_iff {y : StateT σ (Except ε) α} (h : Yields x s p post)
    (same : ∀ r, y s = .ok r ↔ x s = .ok r) : Yields y s p post where
  total holds := by
    obtain ⟨a, s', e⟩ := h.total holds
    exact ⟨a, s', (same (a, s')).2 e⟩
  sound e := h.sound ((same _).1 e)

theorem imp {post' : α → σ → Prop} (h : Yields x s p post)
    (weaker : ∀ a s', post a s' → post' a s') : Yields x s p post' where
  total := h.total
  sound e := (h.sound e).imp id (weaker _ _)

/-- Where there is a result, the condition has held. -/
theorem and_condition (h : Yields x s p post) : Yields x s p fun a s' ↦ p ∧ post a s' where
  total := h.total
  sound e := ⟨(h.sound e).1, h.sound e⟩

/-- One computation after the other. -/
theorem bind (hx : Yields x s p post) (hf : ∀ a s', post a s' → Yields (f a) s' p' post') :
    Yields (x >>= f) s (p ∧ p') post' where
  total := fun ⟨holds, holds'⟩ ↦ by
    obtain ⟨a, s₁, h⟩ := hx.total holds
    obtain ⟨b, s₂, h'⟩ := (hf a s₁ (hx.sound h).2).total holds'
    exact ⟨b, s₂, StateT.bind_eq_ok_iff.2 ⟨a, s₁, h, h'⟩⟩
  sound e := by
    obtain ⟨a, s₁, h, h'⟩ := StateT.bind_eq_ok_iff.1 e
    obtain ⟨holds, after⟩ := hx.sound h
    obtain ⟨holds', after'⟩ := (hf a s₁ after).sound h'
    exact ⟨⟨holds, holds'⟩, after'⟩

theorem pure {a : α} (after : post a s) :
    Yields (Pure.pure a : StateT σ (Except ε) α) s True post :=
  of_eq_ok rfl trivial after

theorem map {g : α → β} (h : Yields x s p post) (after : ∀ a s', post a s' → post' (g a) s') :
    Yields (g <$> x) s p post' where
  total holds := by
    obtain ⟨a, s', e⟩ := h.total holds
    exact ⟨g a, s', StateT.map_eq_ok_iff.2 ⟨a, e, rfl⟩⟩
  sound e := by
    obtain ⟨a, e', rfl⟩ := StateT.map_eq_ok_iff.1 e
    exact (h.sound e').imp id (after _ _)

theorem mapError {ε' : Type} {g : ε → ε'} (h : Yields x s p post) :
    Yields (fun s ↦ (x s).mapError g : StateT σ (Except ε') α) s p post where
  total holds := by
    obtain ⟨a, s', e⟩ := h.total holds
    exact ⟨a, s', Except.mapError_eq_ok_iff.2 e⟩
  sound e := h.sound (Except.mapError_eq_ok_iff.1 e)

section

variable (condition : List α → Prop) {l : List α}

/-- After some members of a list, the steps for the others. -/
theorem mapM_after {f : α → StateT σ (Except ε) β} (inv : List α → List β → σ → Prop)
    (prefixes : ∀ done rest, condition (done ++ rest) → condition done)
    (holds : ∀ {done out s}, inv done out s → condition done)
    (step : ∀ {done out s}, ∀ a ∈ l, inv done out s → Yields (f a) s (condition (done ++ [a]))
      fun b s' ↦ inv (done ++ [a]) (out ++ [b]) s')
    {done : List α} {out : List β} (h : inv done out s) :
    Yields (l.mapM f) s (condition (done ++ l)) fun bs s' ↦ inv (done ++ l) (out ++ bs) s' := by
  induction l generalizing done out s with
  | nil =>
    rw [List.mapM_nil, List.append_nil]
    exact (Yields.pure (by rwa [List.append_nil])).congr (iff_of_true trivial (holds h))
  | cons a l ih =>
    have first := step a List.mem_cons_self h
    rw [List.mapM_cons, List.append_cons done a l]
    refine (first.bind fun b s₁ h₁ ↦
      (ih (fun a' mem ↦ step a' (List.mem_cons_of_mem a mem)) h₁).bind
        fun bs s₂ h₂ ↦ Yields.pure ?_).congr ?_
    · rwa [List.append_cons out b bs]
    · rw [and_true, and_iff_right_iff_imp]
      exact prefixes (done ++ [a]) l

/-- Steps for the members of a list, each of which keeps an invariant of the members that are done
and of what they gave. -/
theorem mapM {f : α → StateT σ (Except ε) β} (inv : List α → List β → σ → Prop)
    (prefixes : ∀ done rest, condition (done ++ rest) → condition done)
    (holds : ∀ {done out s}, inv done out s → condition done)
    (step : ∀ {done out s}, ∀ a ∈ l, inv done out s → Yields (f a) s (condition (done ++ [a]))
      fun b s' ↦ inv (done ++ [a]) (out ++ [b]) s') (h : inv [] [] s) :
    Yields (l.mapM f) s (condition l) (inv l) :=
  mapM_after condition inv prefixes holds step h

/-- After some members of a list, the steps for the others. -/
theorem forM_after {f : α → StateT σ (Except ε) Unit} (inv : List α → σ → Prop)
    (prefixes : ∀ done rest, condition (done ++ rest) → condition done)
    (holds : ∀ {done s}, inv done s → condition done)
    (step : ∀ {done s}, ∀ a ∈ l, inv done s → Yields (f a) s (condition (done ++ [a]))
      fun _ s' ↦ inv (done ++ [a]) s')
    {done : List α} (h : inv done s) :
    Yields (l.forM f) s (condition (done ++ l)) fun _ s' ↦ inv (done ++ l) s' := by
  induction l generalizing done s with
  | nil =>
    rw [List.append_nil]
    exact (Yields.pure (a := ()) h).congr (iff_of_true trivial (holds h))
  | cons a l ih =>
    have first := step a List.mem_cons_self h
    rw [List.append_cons done a l]
    refine (first.bind fun _ s₁ h₁ ↦
      ih (fun a' mem ↦ step a' (List.mem_cons_of_mem a mem)) h₁).congr ?_
    rw [and_iff_right_iff_imp]
    exact prefixes (done ++ [a]) l

/-- Steps for the members of a list that keep an invariant of the members that are done. -/
theorem forM {f : α → StateT σ (Except ε) Unit} (inv : List α → σ → Prop)
    (prefixes : ∀ done rest, condition (done ++ rest) → condition done)
    (holds : ∀ {done s}, inv done s → condition done)
    (step : ∀ {done s}, ∀ a ∈ l, inv done s → Yields (f a) s (condition (done ++ [a]))
      fun _ s' ↦ inv (done ++ [a]) s') (h : inv [] s) :
    Yields (l.forM f) s (condition l) fun _ s' ↦ inv l s' :=
  forM_after condition inv prefixes holds step h

end

end Yields

end SimpleLR

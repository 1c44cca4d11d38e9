import Mathlib.Data.List.Forall2

/-! # Computations that may throw

Taking a successful computation apart, and what a loop over a list keeps,
indexed by the part of the list it has been through. Lists of optional values
are the same without a reason. -/

namespace Ez4.Library.Except

variable {ε α β : Type}

theorem bind_ok {x : Except ε α} {f : α → Except ε β} {b : β} :
    (x >>= f) = .ok b ↔ ∃ a, x = .ok a ∧ f a = .ok b := by
  cases x with
  | error e => simp [bind, Except.bind]
  | ok a => simp [bind, Except.bind]

theorem mapError_ok {δ : Type} {x : Except ε α} {f : ε → δ} {a : α} :
    x.mapError f = .ok a ↔ x = .ok a := by
  cases x <;> simp [Except.mapError]

/-- Every computation returns or throws. -/
theorem error_of_not_ok {x : Except ε α} (h : ∀ a, x ≠ .ok a) : ∃ e, x = .error e := by
  cases x with
  | error e => exact ⟨e, rfl⟩
  | ok a => exact absurd rfl (h a)

/-- A loop that ends keeps what each of its steps keeps. -/
theorem foldlM_invariant {f : β → α → Except ε β} {I : List α → β → Prop} {l : List α}
    (hstep : ∀ p a b b', a ∈ l → I p b → f b a = .ok b' → I (p ++ [a]) b')
    {p : List α} {b b' : β} (hb : I p b) (h : l.foldlM f b = .ok b') :
    I (p ++ l) b' := by
  induction l generalizing p b with
  | nil =>
    simp only [List.foldlM_nil, pure, Except.pure, Except.ok.injEq] at h
    rw [List.append_nil]
    exact h ▸ hb
  | cons a rest ih =>
    rw [List.foldlM_cons] at h
    obtain ⟨c, hc, h⟩ := bind_ok.mp h
    have := ih (fun p x b b' hx => hstep p x b b' (List.mem_cons_of_mem _ hx))
      (hstep p a b c List.mem_cons_self hb hc) h
    simpa using this

/-- A loop whose steps never throw ends, and keeps what they keep. -/
theorem foldlM_total {f : β → α → Except ε β} {I : List α → β → Prop} {l : List α}
    (hstep : ∀ p a b, a ∈ l → I p b → ∃ b', f b a = .ok b' ∧ I (p ++ [a]) b')
    {p : List α} {b : β} (hb : I p b) :
    ∃ b', l.foldlM f b = .ok b' ∧ I (p ++ l) b' := by
  induction l generalizing p b with
  | nil => exact ⟨b, rfl, by simpa using hb⟩
  | cons a rest ih =>
    obtain ⟨c, hc, hI⟩ := hstep p a b List.mem_cons_self hb
    obtain ⟨b', hb', hI'⟩ := ih
      (fun p x b hx => hstep p x b (List.mem_cons_of_mem _ hx)) hI
    refine ⟨b', ?_, by simpa using hI'⟩
    rw [List.foldlM_cons]
    exact bind_ok.mpr ⟨c, hc, hb'⟩

/-- Steps that all return give a loop that returns what they return. -/
theorem mapM_pure {m : Type → Type} [Monad m] [LawfulMonad m] {l : List α} {f : α → m β}
    {g : α → β} (h : ∀ a ∈ l, f a = pure (g a)) : l.mapM f = pure (l.map g) := by
  induction l with
  | nil => rfl
  | cons a rest ih =>
    have hrest := ih fun b hb => h b (List.mem_cons_of_mem _ hb)
    rw [List.mapM_cons, h a List.mem_cons_self, hrest]
    simp

/-- A loop that ends has one result for each of its steps. -/
theorem mapM_ok {l : List α} {f : α → Except ε β} {r : List β} :
    l.mapM f = .ok r ↔ List.Forall₂ (fun a b => f a = .ok b) l r := by
  induction l generalizing r with
  | nil =>
    rw [List.mapM_nil, List.forall₂_nil_left_iff]
    exact ⟨fun h => (Except.ok.inj h).symm, fun h => h ▸ rfl⟩
  | cons a rest ih =>
    rw [List.mapM_cons, bind_ok]
    constructor
    · intro ⟨b, hb, h⟩
      obtain ⟨bs, hbs, h⟩ := bind_ok.mp h
      obtain rfl := Except.ok.inj h
      exact .cons hb (ih.mp hbs)
    · intro h
      cases h with
      | cons hb hbs => exact ⟨_, hb, bind_ok.mpr ⟨_, ih.mpr hbs, rfl⟩⟩

/-- A loop ends when each of its steps does. -/
theorem mapM_returns {l : List α} {f : α → Except ε β} :
    (∃ r, l.mapM f = .ok r) ↔ ∀ a ∈ l, ∃ b, f a = .ok b := by
  induction l with
  | nil => exact ⟨fun _ a ha => (List.not_mem_nil ha).elim, fun _ => ⟨[], rfl⟩⟩
  | cons a rest ih =>
    rw [List.forall_mem_cons, ← ih]
    constructor
    · intro ⟨r, h⟩
      cases mapM_ok.mp h with
      | cons hb hbs => exact ⟨⟨_, hb⟩, _, mapM_ok.mpr hbs⟩
    · intro ⟨⟨b, hb⟩, r, hr⟩
      exact ⟨b :: r, mapM_ok.mpr (.cons hb (mapM_ok.mp hr))⟩

/-! ## Lists of optional values -/

section Option

variable {f : α → Option β} {l : List α} {r : List β}

theorem mapM_eq_some : l.mapM f = some r ↔ l.map f = r.map some := by
  induction l generalizing r with
  | nil => cases r <;> simp
  | cons a rest ih =>
    cases r with
    | nil => simp [Option.bind_eq_some_iff]
    | cons b bs =>
      simp only [List.mapM_cons, Option.pure_def, Option.bind_eq_bind, Option.bind_eq_some_iff,
        List.map_cons, List.cons.injEq, Option.some.injEq]
      constructor
      · rintro ⟨b', hb, bs', hbs, rfl, rfl⟩
        exact ⟨hb, ih.mp hbs⟩
      · rintro ⟨hb, hbs⟩
        exact ⟨b, hb, bs, ih.mpr hbs, rfl, rfl⟩

theorem length_of_mapM (h : l.mapM f = some r) : r.length = l.length := by
  simpa using (congrArg List.length (mapM_eq_some.mp h)).symm

theorem eq_some_of_mem_zip (h : l.mapM f = some r) {a : α} {b : β} (hm : (a, b) ∈ l.zip r) :
    f a = some b := by
  rw [mapM_eq_some] at h
  induction l generalizing r with
  | nil => simp at hm
  | cons c rest ih =>
    cases r with
    | nil => simp at h
    | cons d ds =>
      simp only [List.map_cons, List.cons.injEq] at h
      rcases List.mem_cons.mp (List.zip_cons_cons ▸ hm) with heq | hm
      · obtain ⟨rfl, rfl⟩ := Prod.mk.inj heq
        exact h.1
      · exact ih h.2 hm

theorem mapM_bind {γ : Type} {g : β → Option γ} {t : List γ} (h : l.mapM f = some r)
    (hg : r.mapM g = some t) : (l.mapM fun a => (f a).bind g) = some t := by
  rw [mapM_eq_some] at h hg ⊢
  have hmap : l.map (fun a => (f a).bind g) = (l.map f).map (·.bind g) := by simp
  rw [hmap, h, List.map_map, ← hg]
  rfl

end Option

end Ez4.Library.Except

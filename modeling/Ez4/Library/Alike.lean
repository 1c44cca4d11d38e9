import Mathlib.Data.List.Basic

/-! # Two calls side by side

Rules for programs over a state that may throw: what every result of one call
satisfies, and two calls that throw the same or end in the same state with
related results. -/
namespace Ez4.Library

variable {σ ε α β γ δ : Type}

/-! ## One call -/

/-- What every result satisfies. -/
def Yields (m : StateT σ (Except ε) α) (P : α → Prop) : Prop :=
  ∀ s a s', m s = .ok (a, s') → P a

namespace Yields

variable {m : StateT σ (Except ε) α} {k : α → StateT σ (Except ε) β} {P P' : α → Prop}
  {Q : β → Prop}

theorem pure {a : α} (h : P a) : Yields (pure a : StateT σ (Except ε) α) P := by
  intro s b s' hrun
  cases hrun
  exact h

theorem throw (e : ε) : Yields (throw e : StateT σ (Except ε) α) P := by
  intro s a s' hrun
  cases hrun

theorem any (m : StateT σ (Except ε) α) : Yields m fun _ => True := fun _ _ _ _ => trivial

theorem bind (hm : Yields m P) (hk : ∀ a, P a → Yields (k a) Q) : Yields (m >>= k) Q := by
  intro s b s'' hrun
  change ((m s).bind fun p => k p.1 p.2) = _ at hrun
  cases hmrun : m s with
  | error e => rw [hmrun] at hrun; cases hrun
  | ok p =>
    rw [hmrun] at hrun
    exact hk p.1 (hm s p.1 p.2 hmrun) p.2 b s'' hrun

/-- What comes before does not matter. -/
theorem after (hk : ∀ a, Yields (k a) Q) : Yields (m >>= k) Q :=
  (any m).bind fun a _ => hk a

theorem map {f : α → β} (hm : Yields m P) (h : ∀ a, P a → Q (f a)) : Yields (f <$> m) Q :=
  hm.bind fun a ha => pure (h a ha)

theorem and (h : Yields m P) (h' : Yields m P') : Yields m fun a => P a ∧ P' a :=
  fun s a s' hrun => ⟨h s a s' hrun, h' s a s' hrun⟩

theorem mapM_length {l : List α} {f : α → StateT σ (Except ε) β} :
    Yields (l.mapM f) fun bs => bs.length = l.length := by
  induction l with
  | nil => exact pure rfl
  | cons a rest ih =>
    rw [List.mapM_cons]
    refine after fun b => ih.bind fun bs hbs => pure ?_
    rw [List.length_cons, List.length_cons, hbs]

/-- Each result of a loop satisfies what the calls yield. -/
theorem mapM {l : List α} {f : α → StateT σ (Except ε) β} (h : ∀ a ∈ l, Yields (f a) Q) :
    Yields (l.mapM f) fun bs => ∀ b ∈ bs, Q b := by
  induction l with
  | nil => exact pure (by simp)
  | cons a rest ih =>
    rw [List.mapM_cons]
    refine (h a List.mem_cons_self).bind fun b hb => ?_
    refine (ih fun c hc => h c (List.mem_cons_of_mem _ hc)).bind fun bs hbs => ?_
    exact pure (List.forall_mem_cons.mpr ⟨hb, hbs⟩)

/-- Calls that go on in the same way. -/
theorem bind_congr (hm : Yields m P) {l : α → StateT σ (Except ε) β} (h : ∀ a, P a → k a = l a) :
    m >>= k = m >>= l := by
  funext s
  change ((m s).bind fun p => k p.1 p.2) = (m s).bind fun p => l p.1 p.2
  cases hrun : m s with
  | error e => rfl
  | ok p => exact congrFun (h p.1 (hm s p.1 p.2 hrun)) p.2

end Yields

/-! ## Two calls -/

/-- What two calls came to: the same error, or related results and one state. -/
inductive Alike (R : α → β → Prop) : Except ε (α × σ) → Except ε (β × σ) → Prop
  | ok {a : α} {b : β} {s : σ} (h : R a b) : Alike R (.ok (a, s)) (.ok (b, s))
  | error (e : ε) : Alike R (.error e) (.error e)

/-- From every state the two calls come to the same. -/
def Relates (m : StateT σ (Except ε) α) (n : StateT σ (Except ε) β) (R : α → β → Prop) : Prop :=
  ∀ s, Alike R (m s) (n s)

namespace Relates

variable {m : StateT σ (Except ε) α} {n : StateT σ (Except ε) β} {R R' : α → β → Prop}
  {k : α → StateT σ (Except ε) γ} {l : β → StateT σ (Except ε) δ} {S : γ → δ → Prop}

theorem pure {a : α} {b : β} (h : R a b) :
    Relates (pure a : StateT σ (Except ε) α) (pure b : StateT σ (Except ε) β) R :=
  fun _ => .ok h

theorem throw (e : ε) :
    Relates (throw e : StateT σ (Except ε) α) (throw e : StateT σ (Except ε) β) R :=
  fun _ => .error e

theorem bind (hm : Relates m n R) (hk : ∀ a b, R a b → Relates (k a) (l b) S) :
    Relates (m >>= k) (n >>= l) S := by
  intro s
  have hs := hm s
  change Alike S ((m s).bind fun p => k p.1 p.2) ((n s).bind fun p => l p.1 p.2)
  generalize m s = x at hs ⊢
  generalize n s = y at hs ⊢
  cases hs with
  | ok h => exact hk _ _ h _
  | error e => exact .error e

theorem map {f : α → γ} {g : β → δ} (hm : Relates m n R) (h : ∀ a b, R a b → S (f a) (g b)) :
    Relates (f <$> m) (g <$> n) S :=
  hm.bind fun a b hab => pure (h a b hab)

theorem and_yields {P : α → Prop} (hm : Relates m n R) (h : Yields m P) :
    Relates m n fun a b => R a b ∧ P a := by
  intro s
  have hs := hm s
  have ha := h s
  generalize m s = x at hs ha ⊢
  generalize n s = y at hs ⊢
  cases hs with
  | ok hab => exact .ok ⟨hab, ha _ _ rfl⟩
  | error e => exact .error e

/-- What is made of the first result alone. -/
theorem map_left {f : α → γ} {S : γ → β → Prop} (hm : Relates m n R)
    (h : ∀ a b, R a b → S (f a) b) : Relates (m >>= fun a => Pure.pure (f a)) n S := by
  have hmap := hm.bind (k := fun a => Pure.pure (f a)) (l := Pure.pure) (S := S)
    fun a b hab => pure (h a b hab)
  rwa [bind_pure] at hmap

theorem refl {m : StateT σ (Except ε) α} {R : α → α → Prop} (h : ∀ a, R a a) : Relates m m R := by
  intro s
  cases m s with
  | error e => exact .error e
  | ok p => exact .ok (h p.1)

/-- A call beside itself. -/
theorem of_yields {m : StateT σ (Except ε) α} {P : α → Prop} (h : Yields m P) :
    Relates m m fun a b => a = b ∧ P a := by
  intro s
  cases hrun : m s with
  | error e => exact .error e
  | ok p => exact .ok ⟨rfl, h s p.1 p.2 hrun⟩

/-- A call beside what is made of its result. -/
theorem map_right {m : StateT σ (Except ε) α} {P : α → Prop} {f : α → δ} {S : α → δ → Prop}
    (h : Yields m P) (hS : ∀ a, P a → S a (f a)) : Relates m (f <$> m) S := by
  have hmap := (of_yields h).bind (k := Pure.pure) (l := fun a => Pure.pure (f a)) (S := S)
    fun a b hab => pure (by
      obtain ⟨rfl, ha⟩ := hab
      exact hS a ha)
  rw [bind_pure] at hmap
  exact hmap

end Relates

end Ez4.Library

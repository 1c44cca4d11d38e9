import Mathlib.Logic.Basic

/-! # Calls that return and keep a condition of their state

Rules for programs over a state that may fail: from one condition of the state
to another, with what holds of the result. -/
namespace Ez4.Library

variable {σ ε α β : Type} {I J K : σ → Prop}

/-- The call returns, and what holds of its result and of the state then. -/
def Returns (I J : σ → Prop) (m : StateT σ (Except ε) α) (P : α → Prop) : Prop :=
  ∀ s, I s → ∃ a s', m.run s = .ok (a, s') ∧ J s' ∧ P a

namespace Returns

variable {m : StateT σ (Except ε) α} {k : α → StateT σ (Except ε) β} {P P' : α → Prop}
  {Q : β → Prop}

theorem pure {a : α} (h : P a) : Returns I I (pure a : StateT σ (Except ε) α) P :=
  fun s hs => ⟨a, s, rfl, hs, h⟩

theorem bind (hm : Returns I J m P) (hk : ∀ a, P a → Returns J K (k a) Q) :
    Returns I K (m >>= k) Q := by
  intro s hs
  obtain ⟨a, s', hrun, hs', ha⟩ := hm s hs
  obtain ⟨b, s'', hrun', hs'', hb⟩ := hk a ha s' hs'
  refine ⟨b, s'', ?_, hs'', hb⟩
  rw [StateT.run_bind, hrun]
  exact hrun'

theorem modify {f : σ → σ} (h : ∀ s, I s → J (f s)) :
    Returns I J (modify f : StateT σ (Except ε) PUnit) fun _ => True :=
  fun s hs => ⟨⟨⟩, f s, rfl, h s hs, trivial⟩

/-- A call that starts with the state it finds. -/
theorem get_bind {k : σ → StateT σ (Except ε) β} (h : ∀ s, I s → Returns I K (k s) Q) :
    Returns I K (get >>= k) Q :=
  fun s hs => h s hs s hs

theorem weaken (h : Returns I J m P) (hP : ∀ a, P a → P' a) : Returns I J m P' := by
  intro s hs
  obtain ⟨a, s', hrun, hs', ha⟩ := h s hs
  exact ⟨a, s', hrun, hs', hP a ha⟩

theorem weaken_state (h : Returns I J m P) (hK : ∀ s, J s → K s) : Returns I K m P := by
  intro s hs
  obtain ⟨a, s', hrun, hs', ha⟩ := h s hs
  exact ⟨a, s', hrun, hK s' hs', ha⟩

end Returns

end Ez4.Library

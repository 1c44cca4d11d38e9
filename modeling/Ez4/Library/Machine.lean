import Mathlib.Algebra.GroupWithZero.Nat
import Mathlib.Data.List.Basic

/-! # Deterministic machines driven by events

A machine takes one step for each event, or refuses it. What the surroundings
do (which task ends first, what a callback answers) is the choice of events,
so a statement about every event list is one about every schedule. -/

namespace Ez4.Library

/-- A start state and a step that refuses the events that cannot happen. -/
structure Machine (σ ε : Type) where
  init : σ
  step : σ → ε → Option σ

namespace Machine

variable {σ ε : Type} (M : Machine σ ε)

/-- The state after a list of events, unless one of them is refused. -/
def run : List ε → σ → Option σ
  | [], s => some s
  | e :: rest, s => (M.step s e).bind (run rest)

/-- No event can happen. -/
def Final (s : σ) : Prop := ∀ e, M.step s e = none

def Reachable (s : σ) : Prop := ∃ events, M.run events M.init = some s

variable {M}

theorem run_cons {e : ε} {rest : List ε} {s t : σ} :
    M.run (e :: rest) s = some t ↔ ∃ u, M.step s e = some u ∧ M.run rest u = some t := by
  simp [run, Option.bind_eq_some_iff]

theorem run_append {events more : List ε} {s t : σ} :
    M.run (events ++ more) s = some t ↔
      ∃ u, M.run events s = some u ∧ M.run more u = some t := by
  induction events generalizing s with
  | nil => simp [run]
  | cons e rest ih =>
    rw [List.cons_append, run_cons]
    constructor
    · rintro ⟨u, hu, h⟩
      obtain ⟨v, hv, h⟩ := ih.mp h
      exact ⟨v, run_cons.mpr ⟨u, hu, hv⟩, h⟩
    · rintro ⟨v, hv, h⟩
      obtain ⟨u, hu, hv⟩ := run_cons.mp hv
      exact ⟨u, hu, ih.mpr ⟨v, hv, h⟩⟩

/-- What holds of a state and every step keeps holds after a run from it. -/
theorem run_invariant {I : σ → Prop} (hstep : ∀ s e t, I s → M.step s e = some t → I t)
    {events : List ε} {s t : σ} (hs : I s) (h : M.run events s = some t) : I t := by
  induction events generalizing s with
  | nil => simp only [run, Option.some.injEq] at h; exact h ▸ hs
  | cons e rest ih =>
    obtain ⟨u, hu, h⟩ := run_cons.mp h
    exact ih (hstep s e u hs hu) h

/-- Every step of a run meets a condition on the state before it and its event. -/
def Meets (M : Machine σ ε) (ok : σ → ε → Prop) : List ε → σ → Prop
  | [], _ => True
  | e :: rest, s => ok s e ∧ match M.step s e with
    | some t => Meets M ok rest t
    | none => True

instance decidableMeets (M : Machine σ ε) (ok : σ → ε → Prop) [∀ s e, Decidable (ok s e)] :
    ∀ (events : List ε) (s : σ), Decidable (M.Meets ok events s)
  | [], _ => .isTrue trivial
  | e :: rest, s =>
    have : Decidable (match M.step s e with
        | some t => M.Meets ok rest t
        | none => True) :=
      match M.step s e with
      | some t => decidableMeets M ok rest t
      | none => .isTrue trivial
    inferInstanceAs (Decidable (_ ∧ _))

/-- What the steps that meet a condition keep holds after a run of such steps. -/
theorem run_invariant_of_meets {ok : σ → ε → Prop} {I : σ → Prop}
    (hstep : ∀ s e t, I s → ok s e → M.step s e = some t → I t)
    {events : List ε} {s t : σ} (hs : I s) (hok : M.Meets ok events s)
    (h : M.run events s = some t) : I t := by
  induction events generalizing s with
  | nil => simp only [run, Option.some.injEq] at h; exact h ▸ hs
  | cons e rest ih =>
    obtain ⟨u, hu, h⟩ := run_cons.mp h
    obtain ⟨hok, hrest⟩ := hok
    rw [hu] at hrest
    exact ih (hstep s e u hs hok hu) hrest h

/-- Conditions that agree along an invariant are met by the same runs. -/
theorem meets_congr {ok ok' : σ → ε → Prop} {I : σ → Prop}
    (hinv : ∀ s e t, I s → M.step s e = some t → I t)
    (hok : ∀ s e, I s → (ok s e ↔ ok' s e)) {events : List ε} {s : σ} (hs : I s) :
    M.Meets ok events s ↔ M.Meets ok' events s := by
  induction events generalizing s with
  | nil => exact Iff.rfl
  | cons e rest ih =>
    refine and_congr (hok s e hs) ?_
    cases ht : M.step s e with
    | none => exact Iff.rfl
    | some t => exact ih (hinv s e t hs ht)

/-- A condition that an invariant gives is met by every run. -/
theorem meets_of_invariant {ok : σ → ε → Prop} {I : σ → Prop}
    (hinv : ∀ s e t, I s → M.step s e = some t → I t) (hok : ∀ s e, I s → ok s e)
    {events : List ε} {s : σ} (hs : I s) : M.Meets ok events s := by
  induction events generalizing s with
  | nil => trivial
  | cons e rest ih =>
    refine ⟨hok s e hs, ?_⟩
    cases ht : M.step s e with
    | none => trivial
    | some t => exact ih (hinv s e t hs ht)

/-- A condition that another one gives, along an invariant that it keeps. -/
theorem Meets.mono {ok ok' : σ → ε → Prop} {I : σ → Prop}
    (hinv : ∀ s e t, I s → ok s e → M.step s e = some t → I t)
    (himp : ∀ s e, I s → ok s e → ok' s e) {events : List ε} {s : σ} (hs : I s)
    (h : M.Meets ok events s) : M.Meets ok' events s := by
  induction events generalizing s with
  | nil => trivial
  | cons e rest ih =>
    obtain ⟨hok, hrest⟩ := h
    refine ⟨himp s e hs hok, ?_⟩
    cases ht : M.step s e with
    | none => trivial
    | some t =>
      rw [ht] at hrest
      exact ih (hinv s e t hs hok ht) hrest

/-- A property that a step keeps exactly when it meets a condition holds after
a run if and only if it held before and every step met the condition. -/
theorem run_iff_meets {ok : σ → ε → Prop} {I P : σ → Prop}
    (hinv : ∀ s e t, I s → M.step s e = some t → I t)
    (hstep : ∀ s e t, I s → M.step s e = some t → (P t ↔ P s ∧ ok s e))
    {events : List ε} {s t : σ} (hs : I s) (h : M.run events s = some t) :
    P t ↔ P s ∧ M.Meets ok events s := by
  induction events generalizing s with
  | nil =>
    simp only [run, Option.some.injEq] at h
    rw [← h]
    exact (and_iff_left trivial).symm
  | cons e rest ih =>
    obtain ⟨u, hu, h⟩ := run_cons.mp h
    have hmeets : M.Meets ok (e :: rest) s ↔ ok s e ∧ M.Meets ok rest u := by
      rw [Meets, hu]
    rw [ih (hinv s e u hs hu) h, hstep s e u hs hu, hmeets, and_assoc]

/-- The step after some events of a run meets the condition. -/
theorem Meets.of_run {ok : σ → ε → Prop} {past rest : List ε} {e : ε} {s t : σ}
    (h : M.Meets ok (past ++ e :: rest) s) (hrun : M.run past s = some t) : ok t e := by
  induction past generalizing s with
  | nil =>
    simp only [run, Option.some.injEq] at hrun
    exact hrun ▸ h.1
  | cons e' past ih =>
    obtain ⟨u, hu, hrun⟩ := run_cons.mp hrun
    have hmore := h.2
    rw [hu] at hmore
    exact ih hmore hrun

theorem Reachable.invariant {I : σ → Prop} (hinit : I M.init)
    (hstep : ∀ s e t, I s → M.step s e = some t → I t) {s : σ} (h : M.Reachable s) : I s := by
  obtain ⟨events, h⟩ := h
  exact run_invariant hstep hinit h

/-- A potential that every event lowers, save for what the event itself
brings, bounds the length of a run. -/
theorem length_le_of_potential {φ : σ → Nat} {brings : ε → Nat} {I : σ → Prop}
    (hinv : ∀ s e t, I s → M.step s e = some t → I t)
    (hstep : ∀ s e t, I s → M.step s e = some t → φ t + 1 ≤ φ s + brings e)
    {events : List ε} {s t : σ} (hs : I s) (h : M.run events s = some t) :
    events.length + φ t ≤ φ s + (events.map brings).sum := by
  induction events generalizing s with
  | nil => simp only [run, Option.some.injEq] at h; simp [h]
  | cons e rest ih =>
    obtain ⟨u, hu, h⟩ := run_cons.mp h
    have h1 := hstep s e u hs hu
    have h2 := ih (hinv s e u hs hu) h
    simp only [List.length_cons, List.map_cons, List.sum_cons]
    omega

/-- No more events of a kind happen than a potential allows that each of them
lowers and that no other event raises. -/
theorem countP_le_of_potential {φ : σ → Nat} {own : ε → Bool} {I : σ → Prop}
    (hinv : ∀ s e t, I s → M.step s e = some t → I t)
    (hstep : ∀ s e t, I s → M.step s e = some t → φ t + (if own e then 1 else 0) ≤ φ s)
    {events : List ε} {s t : σ} (hs : I s) (h : M.run events s = some t) :
    events.countP own + φ t ≤ φ s := by
  induction events generalizing s with
  | nil => simp only [run, Option.some.injEq] at h; simp [h]
  | cons e rest ih =>
    obtain ⟨u, hu, h⟩ := run_cons.mp h
    have h1 := hstep s e u hs hu
    have h2 := ih (hinv s e u hs hu) h
    rw [List.countP_cons]
    omega

end Machine

end Ez4.Library

/-! ## Simulation with silent steps

A machine follows another one when it answers each of its events with one of
its own, or with none. What both show of their steps is the same then. -/

namespace Ez4.Library.Machine

variable {σ τ ε δ α : Type}

/-- What is read off the steps of a run, in their order. -/
def trace (M : Machine σ ε) (reads : σ → ε → Option α) : List ε → σ → List α
  | [], _ => []
  | e :: rest, s => (reads s e).toList ++ match M.step s e with
    | some t => trace M reads rest t
    | none => []

variable {M : Machine σ ε} {N : Machine τ δ}

theorem trace_cons {reads : σ → ε → Option α} {e : ε} {rest : List ε} {s t : σ}
    (h : M.step s e = some t) :
    M.trace reads (e :: rest) s = (reads s e).toList ++ M.trace reads rest t := by
  rw [trace, h]

/-- The second machine follows a step of the first one, on the event that is
read off the step: their states stay related, and both show the same. -/
def Follows (N : Machine τ δ) (R : σ → τ → Prop) (shown : Option α) (shows : τ → δ → Option α)
    (t : σ) (u : τ) : Option δ → Prop
  | none => shown = none ∧ R t u
  | some d => ∃ v, N.step u d = some v ∧ shows u d = shown ∧ R t v

/-- **A machine that follows every step follows the run**, on the events that
are read off it. -/
theorem run_follows {R : σ → τ → Prop} {ok : σ → ε → Prop} {reads : σ → ε → Option δ}
    {shows : σ → ε → Option α} {shows' : τ → δ → Option α}
    (hstep : ∀ s e t u, R s u → ok s e → M.step s e = some t →
      N.Follows R (shows s e) shows' t u (reads s e))
    {events : List ε} {s t : σ} {u : τ} (h : R s u) (hok : M.Meets ok events s)
    (hrun : M.run events s = some t) :
    ∃ v, N.run (M.trace reads events s) u = some v ∧ R t v ∧
      N.trace shows' (M.trace reads events s) u = M.trace shows events s := by
  induction events generalizing s u with
  | nil =>
    simp only [run, Option.some.injEq] at hrun
    exact ⟨u, rfl, hrun ▸ h, rfl⟩
  | cons e rest ih =>
    obtain ⟨w, hw, hrun⟩ := run_cons.mp hrun
    obtain ⟨hok, hrest⟩ := hok
    rw [hw] at hrest
    have hfollows := hstep s e w u h hok hw
    rw [trace_cons hw, trace_cons hw]
    cases hreads : reads s e with
    | none =>
      rw [hreads] at hfollows
      obtain ⟨hshown, hR⟩ := hfollows
      rw [hshown]
      exact ih hR hrest hrun
    | some d =>
      rw [hreads] at hfollows
      obtain ⟨v, hv, hshown, hR⟩ := hfollows
      obtain ⟨v', hv', hR', htrace⟩ := ih hR hrest hrun
      refine ⟨v', run_cons.mpr ⟨v, hv, hv'⟩, hR', ?_⟩
      rw [Option.toList_some, List.singleton_append, trace_cons hv, htrace, hshown]

end Ez4.Library.Machine

import Ez4.Scheduler.Events

/-! # What one action does to the events

Every action of the scheduler is one of the effects below, whatever the
identifiers and the inputs of the calls are. -/
namespace Ez4.Scheduler.Events
open Ez4.Library Ez4.Utils

variable {T : Type}

namespace State

/-- The timeout in the slot of an identifier is cleared. -/
def unset (s : State T) (identifier : String) : State T :=
  match s.timers identifier with
  | some handle => s.clear handle
  | none => s

/-- The event takes the place of the one before, and its timeout is set. -/
def write (s : State T) (identifier : String) (input : ScheduledEvent T) : State T :=
  ((s.unset identifier).setTimer ⟨identifier, input⟩ 0 none (input.date - s.now)).file
    identifier input

def delete (s : State T) (identifier : String) : State T := (s.unset identifier).forget identifier

/-- One more object is made. -/
def fresh (s : State T) : State T := { s with next := s.next + 1 }

/-- The next chunk of a timeout is set. -/
def rearm (s : State T) (t : Timeout T) : State T :=
  { s with pending := s.pending.map fun t' =>
      if t'.handle = t.handle then
        { t with
          due := s.now + min t.rest maxTimeoutDelay
          rest := t.rest - min t.rest maxTimeoutDelay }
      else t' }

/-- The handler of a run has answered. -/
def ended (s : State T) (r : Running T) (success : Bool) : State T :=
  { s with
    running := s.running.filter fun r' => r'.activation ≠ r.activation
    log := (if success then .succeeded r.run s.now else .failed r.run s.now) :: s.log }

end State

/-! ## The calls -/

section Run

variable {α β : Type}

theorem run_bind (x : Program T α) (f : α → Program T β) (s : State T) :
    (x >>= f).run s = match x.run s with
      | (.ok a, t) => (f a).run t
      | (.error e, t) => (.error e, t) := by
  have hbind : ∀ g : Except Error α → StateM (State T) (Except Error β),
      (x.run >>= g) s = g (x.run s).1 (x.run s).2 := fun _ => rfl
  rw [ExceptT.run_bind, hbind]
  rcases x.run s with ⟨e | a, t⟩ <;> rfl

theorem run_get (s : State T) : (get : Program T (State T)).run s = (.ok s, s) := rfl

theorem run_modify (f : State T → State T) (s : State T) :
    (modify f : Program T PUnit).run s = (.ok (), f s) := rfl

theorem run_throw (e : Error) (s : State T) : (throw e : Program T α).run s = (.error e, s) := rfl

theorem run_pure (a : α) (s : State T) : (pure a : Program T α).run s = (.ok a, s) := rfl

theorem run_newObject (s : State T) : (newObject : Program T Nat).run s = (.ok s.next, s.fresh) :=
  rfl

end Run

theorem cancelTimer_run (identifier : String) (s : State T) :
    (cancelTimer identifier).run s = (.ok (), s.unset identifier) ∨
      (cancelTimer identifier).run s = (.error .type, s) := by
  unfold cancelTimer property State.unset
  rw [run_bind, run_get]
  cases h : s.timers identifier with
  | some handle =>
    left
    simp only [h, run_modify]
  | none =>
    by_cases hname : objectPrototypeNames.contains identifier = true
    · right
      simp only [h, if_pos hname, run_throw]
    · left
      simp only [h, if_neg hname, run_pure]

theorem scheduleEvent_run (identifier : String) (input : ScheduledEvent T) (s : State T) :
    (s.now ≤ input.date ∧
      (scheduleEvent identifier input).run s = (.ok (), s.write identifier input)) ∨
    ∃ e, (scheduleEvent identifier input).run s = (.error e, s) := by
  unfold scheduleEvent
  rw [run_bind, run_get]
  by_cases hold : input.date - s.now < 0
  · right
    exact ⟨.tooOld, by simp only [if_pos hold, run_bind, run_throw]⟩
  · simp only [if_neg hold]
    rcases cancelTimer_run identifier s with hc | hc
    · left
      refine ⟨by omega, ?_⟩
      simp only [run_bind, hc, run_modify]
      rfl
    · right
      exact ⟨.type, by simp only [run_bind, hc]⟩

/-- A call throws and changes nothing (it may have made an object), finds
nothing to delete, writes one event, or deletes one. -/
inductive Performed (s : State T) : Except Error (Option (ScheduledEvent T)) × State T → Prop
  | thrown (e : Error) {next : Nat} : s.next ≤ next → Performed s (.error e, { s with next })
  | nothing : Performed s (.ok none, s)
  /-- An inherited property is no event, and has no timer (`Kept.slot_event`). -/
  | inherited {identifier : String} :
    s.events identifier = none → Performed s (.ok none, s.unset identifier)
  | written {identifier : String} {input : ScheduledEvent T} :
    input.object = s.next → s.now ≤ input.date →
      Performed s (.ok none, s.fresh.write identifier input)
  | deleted {identifier : String} {event : ScheduledEvent T} :
    s.events identifier = some event → Performed s (.ok (some event), s.delete identifier)

/-- The event of a fresh object is scheduled, or the call throws. -/
theorem performed_schedule (s : State T) {identifier : String} {input : ScheduledEvent T}
    (h : input.object = s.next) :
    Performed s (((scheduleEvent identifier input >>= fun _ => pure none :
      Program T (Option (ScheduledEvent T)))).run s.fresh) := by
  rw [run_bind]
  rcases scheduleEvent_run identifier input s.fresh with ⟨hdate, hr⟩ | ⟨e, hr⟩
  · rw [hr]
    exact .written h hdate
  · rw [hr]
    exact .thrown e (Nat.le_succ _)

theorem perform_performed (p : Parameters T) (call : Call T) (s : State T) :
    Performed s ((perform p call).run s) := by
  cases call with
  | setEvent identifier input =>
    unfold perform setEvent
    simp only [bind_assoc, run_bind newObject, run_newObject]
    exact performed_schedule s rfl
  | createEvent identifier input =>
    unfold perform createEvent
    simp only [bind_assoc, run_bind newObject, run_newObject, run_bind get, run_get]
    cases property s.fresh.events identifier with
    | absent => exact performed_schedule s rfl
    | own event => exact .thrown .conflict (Nat.le_succ _)
    | inherited => exact .thrown .conflict (Nat.le_succ _)
  | updateEvent identifier input =>
    unfold perform updateEvent
    simp only [bind_assoc, run_bind get, run_get]
    cases property s.events identifier with
    | absent => exact .thrown .notFound (Nat.le_refl _)
    | own previous =>
      simp only [bind_assoc, run_bind newObject, run_newObject]
      exact performed_schedule s rfl
    | inherited =>
      cases input.date with
      | none => exact .thrown .type (Nat.le_refl _)
      | some date =>
        simp only [bind_assoc, run_bind newObject, run_newObject]
        exact performed_schedule s rfl
  | deleteEvent identifier =>
    unfold perform deleteEvent
    simp only [run_bind get, run_get]
    unfold property
    cases h : s.events identifier with
    | some event =>
      simp only [run_bind]
      rcases cancelTimer_run identifier s with hc | hc
      · rw [hc]
        exact .deleted h
      · rw [hc]
        exact .thrown .type (Nat.le_refl _)
    | none =>
      by_cases hname : objectPrototypeNames.contains identifier = true
      · simp only [if_pos hname, run_bind]
        rcases cancelTimer_run identifier s with hc | hc
        · rw [hc]
          exact .inherited h
        · rw [hc]
          exact .thrown .type (Nat.le_refl _)
      · simp only [if_neg hname]
        exact .nothing

/-! ## All actions -/

inductive Effect (p : Parameters T) (s : State T) : State T → Prop
  /-- A call that throws or finds nothing, or the clock. -/
  | idle {now : Int} {next : Nat} : s.now ≤ now → s.next ≤ next →
    Effect p s { s with now, next }
  | inherited {identifier : String} : s.events identifier = none →
    Effect p s (s.unset identifier)
  | written {identifier : String} {input : ScheduledEvent T} :
    input.object = s.next → s.now ≤ input.date → Effect p s (s.fresh.write identifier input)
  | deleted {identifier : String} {event : ScheduledEvent T} :
    s.events identifier = some event → Effect p s (s.delete identifier)
  | chunk {t : Timeout T} : t ∈ s.pending → t.due ≤ s.now → 0 < t.rest → Effect p s (s.rearm t)
  | started {t : Timeout T} : t ∈ s.pending → t.due ≤ s.now → t.rest ≤ 0 →
    Effect p s (runHandler (s.clear t.handle) t.run t.attempt (t.firstTime.getD s.now))
  /-- The event was replaced or removed meanwhile. -/
  | stale {r : Running T} {success : Bool} : r ∈ s.running → r.run.isActive s = false →
    Effect p s (s.ended r success)
  /-- The handler succeeded, or the retries are exhausted. -/
  | done {r : Running T} {success : Bool} : r ∈ s.running → r.run.isActive s = true →
    (success = false → retries p s.now r = false) →
      Effect p s ((s.ended r success).forget r.run.timerId)
  | retried {r : Running T} : r ∈ s.running → r.run.isActive s = true →
    retries p s.now r = true →
      Effect p s ((s.ended r false).setTimer r.run (r.attempt + 1) (some r.firstTime)
        (retryDelay r.attempt))

theorem onComplete_ended (s : State T) (r : Running T) (success : Bool) :
    onComplete (s.ended r success) r.run =
      if r.run.isActive s then (s.ended r success).forget r.run.timerId
      else s.ended r success := rfl

theorem handlerEnds_eq (p : Parameters T) (s : State T) (r : Running T) (success : Bool) :
    handlerEnds p s r success =
      if success then onComplete (s.ended r success) r.run
      else if !r.run.isActive s then s.ended r success
      else if retries p s.now r then
        (s.ended r success).setTimer r.run (r.attempt + 1) (some r.firstTime)
          (retryDelay r.attempt)
      else onComplete (s.ended r success) r.run := rfl

theorem effect_handlerEnds (p : Parameters T) (s : State T) {r : Running T} (success : Bool)
    (h : r ∈ s.running) : Effect p s (handlerEnds p s r success) := by
  have hcomplete : (success = false → retries p s.now r = false) →
      Effect p s (onComplete (s.ended r success) r.run) := by
    intro hdone
    rw [onComplete_ended]
    cases hactive : r.run.isActive s with
    | true => exact .done h hactive hdone
    | false => exact .stale h hactive
  rw [handlerEnds_eq]
  cases success with
  | true => exact hcomplete (fun h => absurd h (by simp))
  | false =>
    cases hactive : r.run.isActive s with
    | false => exact .stale h hactive
    | true =>
      cases hretries : retries p s.now r with
      | true => exact .retried h hactive hretries
      | false => exact hcomplete fun _ => hretries

/-- **What one action can do.** -/
theorem step_effect {p : Parameters T} {s t : State T} {action : Action T}
    (h : step p s action = some t) : Effect p s t := by
  cases action with
  | call call =>
    have hp := perform_performed p call s
    obtain rfl := Option.some.inj h
    generalize (perform p call).run s = result at hp
    cases hp with
    | thrown e hnext => exact .idle (le_refl _) hnext
    | nothing => exact .idle (le_refl _) (Nat.le_refl _)
    | inherited hnone => exact .inherited hnone
    | written hobject hdate => exact .written hobject hdate
    | deleted hevent => exact .deleted hevent
  | elapse time =>
    obtain rfl := Option.some.inj h
    exact .idle (by omega) (Nat.le_refl _)
  | fire handle =>
    obtain ⟨t, ht, h⟩ := Option.bind_eq_some_iff.mp h
    have hmem := List.mem_of_find?_eq_some ht
    by_cases hdue : s.now < t.due
    · rw [if_pos hdue] at h
      exact absurd h (by simp)
    · rw [if_neg hdue] at h
      obtain rfl := Option.some.inj h
      unfold timeoutFires
      by_cases hrest : 0 < t.rest
      · rw [if_pos hrest]
        exact .chunk hmem (by omega) hrest
      · rw [if_neg hrest]
        exact .started hmem (by omega) (by omega)
  | answer activation success =>
    obtain ⟨r, hr, h⟩ := Option.bind_eq_some_iff.mp h
    obtain rfl := Option.some.inj h
    exact effect_handlerEnds p s success (List.mem_of_find?_eq_some hr)

end Ez4.Scheduler.Events

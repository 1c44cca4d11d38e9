import Ez4.Scheduler.EventEffects

/-! # A scheduled event runs as last written

What a client may rely on, in every state that the scheduler reaches and in
every step from there, in terms of what was written and removed. -/
namespace Ez4.Scheduler.Events
open Ez4.Library Ez4.Utils

variable {T : Type}

/-- What holds of the events in a state. -/
structure Sound (p : Parameters T) (s : State T) : Prop where
  /-- At most one timer is pending for an identifier. -/
  onePending : ∀ t ∈ s.pending, ∀ t' ∈ s.pending, t.run.timerId = t'.run.timerId → t = t'
  pendingCurrent : ∀ t ∈ s.pending, current s.log t.run.timerId = some t.run.input
  /-- An event that was written and not removed waits for its timer, or runs. -/
  attended : ∀ name input, current s.log name = some input →
    (∃ t ∈ s.pending, t.run = ⟨name, input⟩) ∨ ∃ r ∈ s.running, r.run = ⟨name, input⟩
  stored : ∀ name, s.events name = current s.log name
  /-- An event is run once, and again only as its retries allow. -/
  limited : ∀ name input, .written name input ∈ s.log →
    ((runsOf input.object s.log).filter Entry.isStarted).length ≤
      SchedulerRun.maxRetries p ⟨name, input⟩ + 1
  allowed : ∀ name input, .written name input ∈ s.log →
    ∀ later run attempt time earlier,
      runsOf input.object s.log = later ++ .started run attempt time :: earlier →
        run = ⟨name, input⟩ ∧ Life.Allowed p ⟨name, input⟩ attempt time earlier

/-- What one action may do. -/
structure SoundStep (p : Parameters T) (s : State T) (action : Action T) (t : State T) : Prop where
  /-- A call that throws leaves events and timers as they were. -/
  thrown : ∀ call error, action = .call call → ((perform p call).run s).1 = .error error →
    t.events = s.events ∧ t.timers = s.timers ∧ t.pending = s.pending
  /-- A handler is started only with the event last written, from its date on. -/
  started : ∀ r ∈ t.running, r ∈ s.running ∨
    current s.log r.run.timerId = some r.run.input ∧ r.run.input.date ≤ s.now
  /-- An event that is written is to run at its date. -/
  written : ∀ name input, t.events name = some input → s.events name ≠ some input →
    ∃ u ∈ t.pending, u.run = ⟨name, input⟩ ∧ u.attempt = 0 ∧ u.due + u.rest = input.date
  /-- After a success, or the last failure, the event is gone, unless it was
  written again or removed meanwhile: then nothing changes. -/
  ended : ∀ activation success r, action = .answer activation success →
    s.running.find? (fun r => r.activation = activation) = some r →
      success = true ∨ retries p s.now r = false →
        (current s.log r.run.timerId = some r.run.input ∧ t.events r.run.timerId = none ∧
          t.timers r.run.timerId = none ∧ ∀ u ∈ t.pending, u.run.timerId ≠ r.run.timerId) ∨
        (current s.log r.run.timerId ≠ some r.run.input ∧ t.events = s.events ∧
          t.timers = s.timers ∧ t.pending = s.pending)

variable {p : Parameters T} {s t : State T}

namespace Kept

theorem sound (h : Kept p s) : Sound p s := by
  obtain ⟨phase, hlives⟩ := h.lives
  exact
    { onePending := fun _ ht _ ht' heq => h.slots.eq_of_timerId ht ht' heq
      pendingCurrent := fun t ht => h.filed.events_eq t.run.timerId ▸ h.slots.active t ht
      attended := fun name input hcurrent =>
        h.attended name input (h.filed.events_eq name ▸ hcurrent)
      stored := h.filed.events_eq
      limited := fun name input hmem => (hlives.life name input hmem).length_started_le
      allowed := fun name input hmem _ _ _ _ _ heq => (hlives.life name input hmem).allowed heq }

theorem thrown (p : Parameters T) (s : State T) {call : Call T} {error : Error}
    (h : ((perform p call).run s).1 = .error error) :
    ((perform p call).run s).2.events = s.events ∧ ((perform p call).run s).2.timers = s.timers ∧
      ((perform p call).run s).2.pending = s.pending := by
  have hp := perform_performed p call s
  generalize (perform p call).run s = result at hp h
  cases hp with
  | thrown e hnext => exact ⟨rfl, rfl, rfl⟩
  | nothing => exact absurd h (by simp)
  | inherited hname => exact absurd h (by simp)
  | written hobject hdate => exact absurd h (by simp)
  | deleted hevent => exact absurd h (by simp)

theorem running_of_effect (h : Kept p s) (heffect : Effect p s t) {r : Running T}
    (hr : r ∈ t.running) : r ∈ s.running ∨
      current s.log r.run.timerId = some r.run.input ∧ r.run.input.date ≤ s.now := by
  cases heffect with
  | idle hnow hnext => exact .inl hr
  | @inherited name hname => exact .inl (unset_running s name ▸ hr)
  | @written name input hobject hdate => exact .inl (write_running s name input ▸ hr)
  | @deleted name event hevent => exact .inl (unset_running s name ▸ hr)
  | chunk ht hdue hrest => exact .inl hr
  | @started u hu hdue hrest =>
    rcases List.mem_append.mp hr with hr | hr
    · exact .inl hr
    · rw [List.mem_singleton.mp hr]
      refine .inr ⟨h.filed.events_eq u.run.timerId ▸ h.slots.active u hu, ?_⟩
      have := h.punctual.pending u hu
      show u.run.input.date ≤ s.now
      omega
  | stale hr' hactive => exact .inl (List.mem_filter.mp hr).1
  | done hr' hactive hdone => exact .inl (List.mem_filter.mp hr).1
  | retried hr' hactive hretries => exact .inl (List.mem_filter.mp hr).1

theorem written_of_effect (h : Kept p s) (heffect : Effect p s t) {name : String}
    {input : ScheduledEvent T} (hnew : t.events name = some input)
    (hold : s.events name ≠ some input) :
    ∃ u ∈ t.pending, u.run = ⟨name, input⟩ ∧ u.attempt = 0 ∧ u.due + u.rest = input.date := by
  have hforgotten : ∀ other, put s.events other none name = some input → False := by
    intro other hput
    rw [put_apply] at hput
    split at hput
    · exact absurd hput (by simp)
    · exact hold hput
  cases heffect with
  | idle hnow hnext => exact absurd hnew hold
  | @inherited other hname => exact absurd (unset_events s other ▸ hnew) hold
  | @written other input' hobject hdate =>
    rw [write_events, put_apply] at hnew
    split at hnew
    · rename_i hname
      obtain rfl := Option.some.inj hnew
      refine ⟨_, h.mem_write.mpr (.inr rfl), by rw [hname]; rfl, rfl, ?_⟩
      show s.now + min (max (input'.date - s.now) 0) maxTimeoutDelay +
        (max (input'.date - s.now) 0 - min (max (input'.date - s.now) 0) maxTimeoutDelay) = _
      omega
    · exact absurd hnew hold
  | @deleted other event hevent =>
    refine (hforgotten other ?_).elim
    rw [← unset_events s other]
    exact hnew
  | chunk ht hdue hrest => exact absurd hnew hold
  | started ht hdue hrest => exact absurd hnew hold
  | stale hr hactive => exact absurd hnew hold
  | @done r success hr hactive hdone => exact (hforgotten r.run.timerId hnew).elim
  | retried hr hactive hretries => exact absurd hnew hold

theorem ended_of_answer (h : Kept p s) {r : Running T} (hr : r ∈ s.running) {success : Bool}
    (hend : success = true ∨ retries p s.now r = false) (ht : t = handlerEnds p s r success) :
    (current s.log r.run.timerId = some r.run.input ∧ t.events r.run.timerId = none ∧
      t.timers r.run.timerId = none ∧ ∀ u ∈ t.pending, u.run.timerId ≠ r.run.timerId) ∨
    (current s.log r.run.timerId ≠ some r.run.input ∧ t.events = s.events ∧
      t.timers = s.timers ∧ t.pending = s.pending) := by
  have hends : handlerEnds p s r success =
      if r.run.isActive s then (s.ended r success).forget r.run.timerId
      else s.ended r success := by
    rw [handlerEnds_eq, onComplete_ended]
    cases success with
    | true => exact if_pos rfl
    | false => cases hactive : r.run.isActive s <;> simp [hend.resolve_left (by simp)]
  rw [ht, hends, ← h.filed.events_eq]
  by_cases hactive : r.run.isActive s = true
  · rw [if_pos hactive]
    exact .inl ⟨h.filed.event_of_active hr hactive, put_self _ _ _, put_self _ _ _,
      fun u hu => h.timerId_ne hr hactive hu⟩
  · rw [if_neg hactive]
    exact .inr ⟨fun hevent => hactive (isActive_of_event hevent), rfl, rfl, rfl⟩

theorem soundStep (h : Kept p s) {action : Action T} (hstep : step p s action = some t) :
    SoundStep p s action t where
  thrown call error haction herror := by
    rw [haction] at hstep
    obtain rfl := Option.some.inj hstep
    exact thrown p s herror
  started _ hr := h.running_of_effect (step_effect hstep) hr
  written _ _ hnew hold := h.written_of_effect (step_effect hstep) hnew hold
  ended activation success r haction hfind hend := by
    rw [haction] at hstep
    have hstep' : (s.running.find? fun r => r.activation = activation).bind
        (fun r => some (handlerEnds p s r success)) = some t := hstep
    rw [hfind] at hstep'
    exact h.ended_of_answer (List.mem_of_find?_eq_some hfind) hend (Option.some.inj hstep').symm

end Kept

namespace Sample

def parameters : Parameters String := { maxRetries := some 1, deepMerge := fun _ source => source }

/-- An event is replaced while its handler runs, which fails. -/
def replaced : List (Action String) :=
  [.call (.setEvent "a" { date := 10, event := "first" }), .elapse 10, .fire 1,
    .call (.updateEvent "a" { date := some 20, event := some "second" }), .answer 2 false]

end Sample

end Ez4.Scheduler.Events

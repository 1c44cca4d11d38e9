import Ez4.Scheduler.EventSteps
import Ez4.Scheduler.EventLife

/-! # What every run of the scheduler keeps

The slot of an identifier holds its one pending timeout, which is of the event
last written for it; an event that is not removed waits for a timeout or for its
handler; and every written event lives its life (`Life`). -/
namespace Ez4.Scheduler.Events
open Ez4.Library Ez4.Utils

variable {T : Type}

/-! ## The log -/

/-- The event last written for an identifier and not removed since. -/
def current : List (Entry T) → String → Option (ScheduledEvent T)
  | [], _ => none
  | .written identifier input :: log, name =>
    if name = identifier then some input else current log name
  | .removed identifier :: log, name => if name = identifier then none else current log name
  | .started .. :: log, name => current log name
  | .succeeded .. :: log, name => current log name
  | .failed .. :: log, name => current log name

def Entry.isRunOf (object : Nat) : Entry T → Bool
  | .started run _ _ => run.input.object = object
  | .succeeded run _ => run.input.object = object
  | .failed run _ => run.input.object = object
  | _ => false

/-- The entries of the runs of one event. -/
def runsOf (object : Nat) (log : List (Entry T)) : List (Entry T) :=
  log.filter (·.isRunOf object)

theorem written_of_current {log : List (Entry T)} {name : String} {input : ScheduledEvent T}
    (h : current log name = some input) : .written name input ∈ log := by
  induction log with
  | nil => exact absurd h (by simp [current])
  | cons entry log ih =>
    cases entry with
    | written identifier input' =>
      by_cases hname : name = identifier
      · rw [current, if_pos hname, Option.some.injEq] at h
        rw [hname, h]
        exact List.mem_cons_self
      · rw [current, if_neg hname] at h
        exact List.mem_cons_of_mem _ (ih h)
    | removed identifier =>
      by_cases hname : name = identifier
      · rw [current, if_pos hname] at h
        exact absurd h (by simp)
      · rw [current, if_neg hname] at h
        exact List.mem_cons_of_mem _ (ih h)
    | _ => exact List.mem_cons_of_mem _ (ih h)

/-! ## The invariant -/

/-- Slots and pending timeouts. -/
structure Slots (s : State T) : Prop where
  handles : (s.pending.map (·.handle)).Nodup
  slot : ∀ t ∈ s.pending, s.timers t.run.timerId = some t.handle
  slot_lt : ∀ name handle, s.timers name = some handle → handle < s.next
  slot_inj : ∀ name other handle, s.timers name = some handle → s.timers other = some handle →
    name = other
  slot_event : ∀ name handle, s.timers name = some handle → ∃ input, s.events name = some input
  active : ∀ t ∈ s.pending, s.events t.run.timerId = some t.run.input

/-- Events and the log. -/
structure Filed (s : State T) : Prop where
  events_eq : ∀ name, s.events name = current s.log name
  object_lt : ∀ name input, .written name input ∈ s.log → input.object < s.next
  object_inj : ∀ name input name' input', .written name input ∈ s.log →
    .written name' input' ∈ s.log → input.object = input'.object → name = name' ∧ input = input'
  written : ∀ r ∈ s.running, .written r.run.timerId r.run.input ∈ s.log
  run_lt : ∀ entry ∈ s.log, ∀ object, entry.isRunOf object = true → object < s.next

/-- An event that is not removed has a timeout or a handler that runs. -/
def Attended (s : State T) : Prop :=
  ∀ name input, s.events name = some input →
    (∃ t ∈ s.pending, t.run = ⟨name, input⟩) ∨ ∃ r ∈ s.running, r.run = ⟨name, input⟩

/-- The written events in their lives. -/
structure Lives (p : Parameters T) (s : State T) (phase : Nat → Phase) : Prop where
  life : ∀ name input, .written name input ∈ s.log →
    Life p ⟨name, input⟩ (runsOf input.object s.log) (phase input.object)
  waiting : ∀ t ∈ s.pending, ∃ due ≤ t.due + t.rest,
    phase t.run.input.object = .waiting t.attempt t.firstTime due
  runs : ∀ r ∈ s.running, phase r.run.input.object = .running r.attempt r.firstTime
  activation_lt : ∀ r ∈ s.running, r.activation < s.next
  activations : (s.running.map (·.activation)).Nodup
  objects : (s.running.map (·.run.input.object)).Nodup

/-- No run starts before the date of its event. -/
structure Punctual (s : State T) : Prop where
  pending : ∀ t ∈ s.pending, t.run.input.date ≤ t.due + t.rest
  running : ∀ r ∈ s.running, r.run.input.date ≤ s.now

structure Kept (p : Parameters T) (s : State T) : Prop where
  slots : Slots s
  filed : Filed s
  attended : Attended s
  lives : ∃ phase, Lives p s phase
  punctual : Punctual s

variable {p : Parameters T} {s : State T}

/-! ## Clearing a slot -/

theorem unset_events (s : State T) (name : String) : (s.unset name).events = s.events := by
  unfold State.unset
  split <;> rfl

theorem unset_timers (s : State T) (name : String) : (s.unset name).timers = s.timers := by
  unfold State.unset
  split <;> rfl

theorem unset_running (s : State T) (name : String) : (s.unset name).running = s.running := by
  unfold State.unset
  split <;> rfl

theorem unset_log (s : State T) (name : String) : (s.unset name).log = s.log := by
  unfold State.unset
  split <;> rfl

theorem unset_now (s : State T) (name : String) : (s.unset name).now = s.now := by
  unfold State.unset
  split <;> rfl

theorem unset_next (s : State T) (name : String) : (s.unset name).next = s.next := by
  unfold State.unset
  split <;> rfl

theorem unset_pending_sublist (s : State T) (name : String) :
    (s.unset name).pending.Sublist s.pending := by
  unfold State.unset
  split
  · exact List.filter_sublist
  · exact List.Sublist.refl _

namespace Slots

/-- The timeouts that stay are those of other identifiers. -/
theorem mem_unset (h : Slots s) {name : String} {t : Timeout T} :
    t ∈ (s.unset name).pending ↔ t ∈ s.pending ∧ t.run.timerId ≠ name := by
  unfold State.unset
  cases htimer : s.timers name with
  | none =>
    show t ∈ s.pending ↔ _
    constructor
    · intro ht
      refine ⟨ht, fun hname => ?_⟩
      have hslot := h.slot t ht
      rw [hname, htimer] at hslot
      exact absurd hslot (by simp)
    · exact And.left
  | some handle =>
    show t ∈ s.pending.filter _ ↔ _
    rw [List.mem_filter, decide_eq_true_iff]
    refine and_congr_right fun ht => not_congr ?_
    have hslot := h.slot t ht
    constructor
    · intro hhandle
      exact h.slot_inj _ _ _ (hhandle ▸ hslot) htimer
    · intro hname
      rw [hname, htimer] at hslot
      exact (Option.some.inj hslot).symm

theorem handle_lt (h : Slots s) {t : Timeout T} (ht : t ∈ s.pending) : t.handle < s.next :=
  h.slot_lt _ _ (h.slot t ht)

theorem eq_of_handle (h : Slots s) {t t' : Timeout T} (ht : t ∈ s.pending) (ht' : t' ∈ s.pending)
    (heq : t.handle = t'.handle) : t = t' :=
  List.inj_on_of_nodup_map h.handles ht ht' heq

/-- At most one timeout is pending for an identifier. -/
theorem eq_of_timerId (h : Slots s) {t t' : Timeout T} (ht : t ∈ s.pending) (ht' : t' ∈ s.pending)
    (heq : t.run.timerId = t'.run.timerId) : t = t' := by
  refine h.eq_of_handle ht ht' (Option.some.inj ?_)
  rw [← h.slot t ht, ← h.slot t' ht', heq]

/-- A name without an event has no timeout to clear. -/
theorem unset_eq (h : Slots s) {name : String} (hname : s.events name = none) :
    s.unset name = s := by
  unfold State.unset
  cases htimer : s.timers name with
  | none => rfl
  | some handle =>
    obtain ⟨input, hinput⟩ := h.slot_event name handle htimer
    exact absurd (hname.symm.trans hinput) (by simp)

/-- Fewer timeouts, and the same slots and events. -/
theorem fewer (h : Slots s) {t : State T} (hpending : t.pending.Sublist s.pending)
    (htimers : t.timers = s.timers) (hevents : t.events = s.events) (hnext : s.next ≤ t.next) :
    Slots t where
  handles := (hpending.map _).nodup h.handles
  slot t' ht' := htimers ▸ h.slot t' (hpending.subset ht')
  slot_lt name handle hslot := Nat.lt_of_lt_of_le (h.slot_lt name handle (htimers ▸ hslot)) hnext
  slot_inj := htimers ▸ h.slot_inj
  slot_event := by
    rw [htimers, hevents]
    exact h.slot_event
  active t' ht' := hevents ▸ h.active t' (hpending.subset ht')

/-- The slot and the event of a name are gone, with its timeout. -/
theorem without (h : Slots s) {t : State T} {name : String}
    (hpending : t.pending.Sublist s.pending) (hnone : ∀ t' ∈ t.pending, t'.run.timerId ≠ name)
    (htimers : t.timers = put s.timers name none) (hevents : t.events = put s.events name none)
    (hnext : s.next ≤ t.next) : Slots t where
  handles := (hpending.map _).nodup h.handles
  slot t' ht' := by
    rw [htimers, put_of_ne _ _ _ (hnone t' ht')]
    exact h.slot t' (hpending.subset ht')
  slot_lt other handle hslot := by
    rw [htimers, put_apply] at hslot
    split at hslot
    · exact absurd hslot (by simp)
    · exact Nat.lt_of_lt_of_le (h.slot_lt other handle hslot) hnext
  slot_inj other other' handle hslot hslot' := by
    rw [htimers, put_apply] at hslot hslot'
    split at hslot
    · exact absurd hslot (by simp)
    · split at hslot'
      · exact absurd hslot' (by simp)
      · exact h.slot_inj other other' handle hslot hslot'
  slot_event other handle hslot := by
    rw [htimers, put_apply] at hslot
    rw [hevents, put_apply]
    split at hslot
    · exact absurd hslot (by simp)
    · rename_i hne
      rw [if_neg hne]
      exact h.slot_event other handle hslot
  active t' ht' := by
    rw [hevents, put_of_ne _ _ _ (hnone t' ht')]
    exact h.active t' (hpending.subset ht')

/-- A name without a timeout is given one, of the event it has from then on. -/
theorem armed (h : Slots s) {t : State T} {new : Timeout T}
    (hnone : ∀ t' ∈ s.pending, t'.run.timerId ≠ new.run.timerId) (hhandle : new.handle = s.next)
    (hpending : t.pending = s.pending ++ [new])
    (htimers : t.timers = put s.timers new.run.timerId (some new.handle))
    (hevents : t.events = put s.events new.run.timerId (some new.run.input))
    (hnext : s.next < t.next) : Slots t where
  handles := by
    rw [hpending, List.map_append, List.map_singleton, List.nodup_append]
    refine ⟨h.handles, List.nodup_singleton _, fun handle hmem other hother => ?_⟩
    obtain ⟨t', ht', rfl⟩ := List.mem_map.mp hmem
    rw [List.mem_singleton.mp hother, hhandle]
    exact Nat.ne_of_lt (h.handle_lt ht')
  slot t' ht' := by
    rw [hpending, List.mem_append, List.mem_singleton] at ht'
    rw [htimers]
    rcases ht' with ht' | rfl
    · rw [put_of_ne _ _ _ (hnone t' ht')]
      exact h.slot t' ht'
    · exact put_self _ _ _
  slot_lt other handle hslot := by
    rw [htimers, put_apply] at hslot
    split at hslot
    · rw [← Option.some.inj hslot, hhandle]
      exact hnext
    · exact Nat.lt_trans (h.slot_lt other handle hslot) hnext
  slot_inj other other' handle hslot hslot' := by
    rw [htimers, put_apply] at hslot hslot'
    split at hslot
    · rename_i hother
      split at hslot'
      · rename_i hother'
        exact hother.trans hother'.symm
      · have := h.slot_lt other' handle hslot'
        have := Option.some.inj hslot
        omega
    · split at hslot'
      · have := h.slot_lt other handle hslot
        have := Option.some.inj hslot'
        omega
      · exact h.slot_inj other other' handle hslot hslot'
  slot_event other handle hslot := by
    rw [htimers, put_apply] at hslot
    rw [hevents, put_apply]
    split
    · exact ⟨_, rfl⟩
    · rename_i hne
      rw [if_neg hne] at hslot
      exact h.slot_event other handle hslot
  active t' ht' := by
    rw [hpending, List.mem_append, List.mem_singleton] at ht'
    rw [hevents]
    rcases ht' with ht' | rfl
    · rw [put_of_ne _ _ _ (hnone t' ht')]
      exact h.active t' ht'
    · exact put_self _ _ _

end Slots

/-! ## The next chunk of a timeout -/

theorem mem_rearm (h : Slots s) {t t' : Timeout T} (ht : t ∈ s.pending)
    (ht' : t' ∈ (s.rearm t).pending) :
    ∃ u ∈ s.pending, u.run = t'.run ∧ u.handle = t'.handle ∧ u.attempt = t'.attempt ∧
      u.firstTime = t'.firstTime ∧ (t.due ≤ s.now → u.due + u.rest ≤ t'.due + t'.rest) := by
  obtain ⟨u, hu, rfl⟩ := List.mem_map.mp ht'
  refine ⟨u, hu, ?_⟩
  by_cases hhandle : u.handle = t.handle
  · obtain rfl := h.eq_of_handle hu ht hhandle
    rw [if_pos rfl]
    refine ⟨rfl, rfl, rfl, rfl, fun hdue => ?_⟩
    show u.due + u.rest ≤ s.now + min u.rest maxTimeoutDelay + (u.rest - min u.rest maxTimeoutDelay)
    omega
  · rw [if_neg hhandle]
    exact ⟨rfl, rfl, rfl, rfl, fun _ => le_refl _⟩

theorem map_handle_rearm (s : State T) (t : Timeout T) :
    (s.rearm t).pending.map (·.handle) = s.pending.map (·.handle) := by
  show (s.pending.map _).map _ = _
  rw [List.map_map]
  refine List.map_congr_left fun u hu => ?_
  by_cases hhandle : u.handle = t.handle
  · simp [hhandle]
  · simp [hhandle]

theorem exists_rearm (h : Slots s) {t u : Timeout T} (ht : t ∈ s.pending) (hu : u ∈ s.pending) :
    ∃ t' ∈ (s.rearm t).pending, t'.run = u.run := by
  refine ⟨_, List.mem_map_of_mem hu, ?_⟩
  by_cases hhandle : u.handle = t.handle
  · obtain rfl := h.eq_of_handle hu ht hhandle
    rw [if_pos rfl]
  · rw [if_neg hhandle]

theorem Slots.rearm (h : Slots s) {t : Timeout T} (ht : t ∈ s.pending) : Slots (s.rearm t) where
  handles := by
    rw [map_handle_rearm]
    exact h.handles
  slot t' ht' := by
    obtain ⟨u, hu, hrun, hhandle, -⟩ := mem_rearm h ht ht'
    rw [← hrun, ← hhandle]
    exact h.slot u hu
  slot_lt := h.slot_lt
  slot_inj := h.slot_inj
  slot_event := h.slot_event
  active t' ht' := by
    obtain ⟨u, hu, hrun, -⟩ := mem_rearm h ht ht'
    rw [← hrun]
    exact h.active u hu

/-! ## The log with one more entry -/

namespace Filed

/-- The entry of a run. -/
theorem run (h : Filed s) {t : State T} {entry : Entry T} {object : Nat}
    (hlog : t.log = entry :: s.log) (hentry : entry.isRunOf object = true)
    (hobject : object < s.next) (hevents : t.events = s.events) (hnext : s.next ≤ t.next)
    (hrunning : ∀ r ∈ t.running, .written r.run.timerId r.run.input ∈ s.log) : Filed t := by
  have hwritten : ∀ name input, .written name input ∈ t.log → .written name input ∈ s.log := by
    intro name input hmem
    rw [hlog, List.mem_cons] at hmem
    rcases hmem with rfl | hmem
    · exact absurd hentry (by simp [Entry.isRunOf])
    · exact hmem
  have hcurrent : ∀ name, current t.log name = current s.log name := by
    intro name
    rw [hlog]
    cases entry <;> first | rfl | exact absurd hentry (by simp [Entry.isRunOf])
  exact
    { events_eq := fun name => by rw [hevents, hcurrent]; exact h.events_eq name
      object_lt := fun name input hmem =>
        Nat.lt_of_lt_of_le (h.object_lt name input (hwritten name input hmem)) hnext
      object_inj := fun name input name' input' hmem hmem' =>
        h.object_inj name input name' input' (hwritten _ _ hmem) (hwritten _ _ hmem')
      written := fun r hr => hlog ▸ List.mem_cons_of_mem _ (hrunning r hr)
      run_lt := fun e he o ho => by
        rw [hlog, List.mem_cons] at he
        rcases he with rfl | he
        · have hsame : o = object := by
            cases e <;> simp_all [Entry.isRunOf]
          omega
        · exact Nat.lt_of_lt_of_le (h.run_lt e he o ho) hnext }

/-- The same log. -/
theorem same (h : Filed s) {t : State T} (hlog : t.log = s.log) (hevents : t.events = s.events)
    (hnext : s.next ≤ t.next) (hrunning : ∀ r ∈ t.running, ∃ r' ∈ s.running, r'.run = r.run) :
    Filed t where
  events_eq := by
    rw [hlog, hevents]
    exact h.events_eq
  object_lt name input hmem := Nat.lt_of_lt_of_le (h.object_lt name input (hlog ▸ hmem)) hnext
  object_inj := by
    rw [hlog]
    exact h.object_inj
  written r hr := by
    obtain ⟨r', hr', hrun⟩ := hrunning r hr
    rw [hlog, ← hrun]
    exact h.written r' hr'
  run_lt e he o ho := Nat.lt_of_lt_of_le (h.run_lt e (hlog ▸ he) o ho) hnext

theorem removed (h : Filed s) {t : State T} {name : String}
    (hlog : t.log = .removed name :: s.log) (hevents : t.events = put s.events name none)
    (hnext : s.next ≤ t.next) (hrunning : t.running = s.running) : Filed t where
  events_eq other := by
    rw [hlog, hevents, put_apply, current, h.events_eq other]
  object_lt other input hmem := by
    rw [hlog, List.mem_cons] at hmem
    exact Nat.lt_of_lt_of_le (h.object_lt other input (hmem.resolve_left (by simp))) hnext
  object_inj other input other' input' hmem hmem' := by
    rw [hlog, List.mem_cons] at hmem hmem'
    exact h.object_inj other input other' input' (hmem.resolve_left (by simp))
      (hmem'.resolve_left (by simp))
  written r hr := by
    rw [hrunning] at hr
    rw [hlog]
    exact List.mem_cons_of_mem _ (h.written r hr)
  run_lt e he o ho := by
    rw [hlog, List.mem_cons] at he
    rcases he with rfl | he
    · exact absurd ho (by simp [Entry.isRunOf])
    · exact Nat.lt_of_lt_of_le (h.run_lt e he o ho) hnext

theorem wrote (h : Filed s) {t : State T} {name : String} {input : ScheduledEvent T}
    (hlog : t.log = .written name input :: s.log)
    (hevents : t.events = put s.events name (some input)) (hobject : input.object = s.next)
    (hnext : s.next < t.next) (hrunning : t.running = s.running) : Filed t where
  events_eq other := by
    rw [hlog, hevents, put_apply, current, h.events_eq other]
  object_lt other input' hmem := by
    rw [hlog, List.mem_cons, Entry.written.injEq] at hmem
    rcases hmem with ⟨-, rfl⟩ | hmem
    · exact hobject ▸ hnext
    · exact Nat.lt_trans (h.object_lt other input' hmem) hnext
  object_inj other input' other' input'' hmem hmem' heq := by
    rw [hlog, List.mem_cons, Entry.written.injEq] at hmem hmem'
    rcases hmem with ⟨rfl, rfl⟩ | hmem <;> rcases hmem' with ⟨rfl, rfl⟩ | hmem'
    · exact ⟨rfl, rfl⟩
    · have := h.object_lt other' input'' hmem'
      omega
    · have := h.object_lt other input' hmem
      omega
    · exact h.object_inj other input' other' input'' hmem hmem' heq
  written r hr := by
    rw [hrunning] at hr
    rw [hlog]
    exact List.mem_cons_of_mem _ (h.written r hr)
  run_lt e he o ho := by
    rw [hlog, List.mem_cons] at he
    rcases he with rfl | he
    · exact absurd ho (by simp [Entry.isRunOf])
    · exact Nat.lt_trans (h.run_lt e he o ho) hnext

theorem written_of_event (h : Filed s) {name : String} {input : ScheduledEvent T}
    (hevent : s.events name = some input) : .written name input ∈ s.log :=
  written_of_current (h.events_eq name ▸ hevent)

/-- A run is active while its event is the one kept. -/
theorem event_of_active (h : Filed s) {r : Running T} (hr : r ∈ s.running)
    (hactive : r.run.isActive s = true) : s.events r.run.timerId = some r.run.input := by
  unfold SchedulerRun.isActive at hactive
  obtain ⟨input, hinput, hobject⟩ := Option.map_eq_some_iff.mp (of_decide_eq_true hactive)
  obtain ⟨-, rfl⟩ := h.object_inj _ _ _ _ (h.written_of_event hinput) (h.written r hr) hobject
  exact hinput

theorem runsOf_eq_nil (h : Filed s) {object : Nat} (hobject : s.next ≤ object) :
    runsOf object s.log = [] := by
  rw [runsOf, List.filter_eq_nil_iff]
  intro e he ho
  have := h.run_lt e he object ho
  omega

end Filed

theorem isActive_of_event {run : SchedulerRun T} (h : s.events run.timerId = some run.input) :
    run.isActive s = true := by
  unfold SchedulerRun.isActive
  rw [h]
  exact decide_eq_true rfl

/-! ## The lives after an entry -/

/-- An entry of another event leaves the runs of an event as they are. -/
theorem runsOf_cons_of_ne {entry : Entry T} {object other : Nat} {log : List (Entry T)}
    (h : entry.isRunOf object = true) (hne : other ≠ object) :
    runsOf other (entry :: log) = runsOf other log := by
  refine List.filter_cons_of_neg ?_
  cases entry <;> simp_all [Entry.isRunOf, eq_comm]

theorem runsOf_cons_self {entry : Entry T} {object : Nat} {log : List (Entry T)}
    (h : entry.isRunOf object = true) :
    runsOf object (entry :: log) = entry :: runsOf object log :=
  List.filter_cons_of_pos h

/-- The life of one event goes on, and the others stay where they are. -/
theorem life_update {phase : Nat → Phase} {run : SchedulerRun T} {entry : Entry T} {next : Phase}
    (hfiled : Filed s)
    (hlife : ∀ name input, .written name input ∈ s.log →
      Life p ⟨name, input⟩ (runsOf input.object s.log) (phase input.object))
    (hrun : .written run.timerId run.input ∈ s.log) (hentry : entry.isRunOf run.input.object = true)
    (hnext : Life p run (entry :: runsOf run.input.object s.log) next) (name : String)
    (input : ScheduledEvent T) (h : .written name input ∈ entry :: s.log) :
    Life p ⟨name, input⟩ (runsOf input.object (entry :: s.log))
      (Function.update phase run.input.object next input.object) := by
  have hmem : .written name input ∈ s.log := by
    rcases List.mem_cons.mp h with heq | hmem
    · exact absurd hentry (by simp [← heq, Entry.isRunOf])
    · exact hmem
  by_cases hobject : input.object = run.input.object
  · obtain ⟨rfl, rfl⟩ := hfiled.object_inj _ _ _ _ hmem hrun hobject
    rw [runsOf_cons_self hentry, Function.update_self]
    exact hnext
  · rw [runsOf_cons_of_ne hentry hobject, Function.update_of_ne hobject]
    exact hlife name input hmem

end Ez4.Scheduler.Events

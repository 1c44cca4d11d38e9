import Ez4.Queue.BatchRecords
import Ez4.Queue.RecordInvariant

/-! # The entry point of a queue function

`sqsEntryPoint` runs the batch between the hooks of the listener. A record
that is left out of its response, or that was deleted before, has a reason to
leave the queue. -/
namespace Ez4.Queue.EntryPoint
open Ez4.Library Ez4.Queue.Messages Ez4.Queue.ProcessRecord Ez4.Queue.Batch Ez4.Utils.Tasks

inductive EntryPhase
  | onBegin
  /-- `processAllRecords` -/
  | records
  | onError
  /-- In the `finally` block, with whether there's an error to throw after it. -/
  | onEnd (threw : Bool)
  | ended (threw : Bool)
deriving DecidableEq, Repr

structure Invocation where
  phase : EntryPhase
  batch : BatchState SqsRecord RecordState
deriving DecidableEq, Repr

inductive EntryEvent
  /-- The hook that's awaited ends. -/
  | hook (succeeds : Bool)
  | batch (event : BatchEvent RecordEvent)
  /-- `processAllRecords` returns or throws. -/
  | batchEnds
deriving DecidableEq, Repr

/-- The arguments of a batch: what is declared for the function, and its event. -/
structure Delivery where
  options : Options
  acknowledge : String
  parallelism : Parallelism
  records : List SqsRecord
deriving DecidableEq, Repr

namespace Delivery

variable (d : Delivery)

def process : Process SqsRecord RecordState RecordEvent :=
  recordProcess d.options (deletesEachRecord d.acknowledge d.records)

def batch : Machine (BatchState SqsRecord RecordState) (BatchEvent RecordEvent) :=
  processAllRecords d.options d.acknowledge d.parallelism d.records

/-- `sqsEntryPoint`. While it awaits the hooks after the batch, handlers that
go on without their records can still make calls. -/
def step (s : Invocation) : EntryEvent → Option Invocation
  | .hook succeeds =>
    match s.phase with
    | .onBegin => some { s with phase := if succeeds then .records else .onError }
    | .onError => some { s with phase := .onEnd true }
    | .onEnd threw => some { s with phase := .ended (threw || !succeeds) }
    | _ => none
  | .batch event =>
    if s.phase = .onBegin ∨ (s.phase ≠ .records ∧ event.isSchedule = true) then none
    else (d.batch.step s.batch event).map fun batch => { s with batch }
  | .batchEnds =>
    if s.phase = .records ∧ s.batch.finished = true then
      some { s with phase := if s.batch.batchFailure then .onError else .onEnd false }
    else none

def sqsEntryPoint (hasSchema : Bool) : Machine Invocation EntryEvent where
  init := { phase := if hasSchema then .onBegin else .ended true, batch := d.batch.init }
  step := d.step

end Delivery

/-! ## No message is lost -/

/-- A record the batch is done with has a reason to be when it isn't handed back. -/
def Accounted (_ : SqsRecord) (state : RecordState) (outcome : Option RecordOutcome) : Prop :=
  state.Coherent ∧ (∃ threw, state.awaiting = .ended threw) ∧
    ∀ o, outcome = some o → o.handedBack = false → state.Justified

variable {d : Delivery} {s t : Invocation}

theorem accounted_of_outcome {record : SqsRecord} {state : RecordState}
    {outcome : Option RecordOutcome} (hc : state.Coherent) (h : state.outcome? = some outcome) :
    Accounted record state outcome := by
  obtain ⟨threw, hawait, hthrew, hout⟩ := RecordState.outcome?_eq_some h
  refine ⟨hc, ⟨threw, hawait⟩, fun o ho hb => ?_⟩
  have hsettled : state.Settled threw := hc.at hawait
  rcases hsettled (hthrew.mpr (by simp [ho])) with hh | hj
  · rw [hout o ho] at hb
    rw [show state.handedBack = false from hb] at hh
    cases hh
  · exact hj

theorem accounted_step {x : Execution} {record : SqsRecord} {state state' : RecordState}
    {outcome : Option RecordOutcome} {event : RecordEvent} (hs : Accounted record state outcome)
    (h : RecordState.step x state event = some state') : Accounted record state' outcome := by
  obtain ⟨hc, ⟨threw, hawait⟩, hj⟩ := hs
  have hframe := RecordState.step_of_ended hawait h
  exact ⟨RecordState.step_coherent hc h, ⟨threw, hframe.awaiting.trans hawait⟩,
    fun o ho hb => (hj o ho hb).mono hframe.effects⟩

/-- What holds of an invocation at any time. -/
structure InvocationOk (d : Delivery) (s : Invocation) : Prop where
  records : TasksOk (fun _ state => state.Coherent) Accounted s.batch
  turns : InTurns d.process d.records s.batch
  reported : AllReported d.process s.batch
  returned : s.phase = .onEnd false ∨ s.phase = .ended false → s.batch.Returned

theorem returned_inner {i : Nat} {event : RecordEvent} {u v : BatchState SqsRecord RecordState}
    (hs : u.Returned) (h : u.inner d.process i event = some v) : v.Returned := by
  unfold BatchState.inner at h
  split at h
  · rename_i record startTime state task
    obtain ⟨ending, heq⟩ := settled_of_done hs.1 (List.mem_of_getElem? task)
    cases heq
  · obtain ⟨state', -, rfl⟩ := Option.map_eq_some_iff.mp h
    exact ⟨done_setStatus hs.1 rfl, hs.2⟩
  · cases h

theorem tasksOk_batch_step {e : BatchEvent RecordEvent} {u v : BatchState SqsRecord RecordState}
    (hs : TasksOk (fun _ state => state.Coherent) Accounted u) (h : d.batch.step u e = some v) :
    TasksOk (fun _ state => state.Coherent) Accounted v :=
  tasksOk_step (fun _ _ _ _ => True) (fun _ _ => RecordState.start_coherent _ _)
    (fun _ _ _ _ _ hc hstep => RecordState.step_coherent hc hstep)
    (fun _ _ _ hc hout => accounted_of_outcome hc hout)
    (fun _ _ _ _ _ _ ha hstep => accounted_step ha hstep) hs
    (fun _ _ _ _ _ _ => ⟨fun _ _ _ => trivial, fun _ _ _ => trivial⟩) h

theorem InvocationOk.phase (hs : InvocationOk d s) {phase : EntryPhase}
    (h : phase = .onEnd false ∨ phase = .ended false → s.batch.Returned) :
    InvocationOk d { s with phase } :=
  ⟨hs.records, hs.turns, hs.reported, h⟩

theorem invocationOk_step {e : EntryEvent} (hs : InvocationOk d s) (h : d.step s e = some t) :
    InvocationOk d t := by
  cases e with
  | hook succeeds =>
    simp only [Delivery.step] at h
    split at h
    · cases h
      exact hs.phase (by cases succeeds <;> simp)
    · cases h
      exact hs.phase nofun
    · rename_i threw hphase
      cases h
      refine hs.phase fun hend => hs.returned (.inl ?_)
      rcases hend with hend | hend
      · cases hend
      · simp only [EntryPhase.ended.injEq, Bool.or_eq_false_iff] at hend
        rw [hphase, hend.1]
    · cases h
  | batch event =>
    simp only [Delivery.step] at h
    split at h
    · cases h
    · rename_i hallowed
      simp only [not_or, not_and] at hallowed
      obtain ⟨v, hv, rfl⟩ := Option.map_eq_some_iff.mp h
      have hmoved : BatchState.Moved d.process s.batch v := BatchState.moved_step hv
      refine ⟨tasksOk_batch_step hs.records hv, inTurns_moved hs.turns hmoved,
        allReported_moved hs.reported hmoved, fun hphase => ?_⟩
      have hne : s.phase ≠ .records := fun heq => by
        rcases hphase with hphase | hphase <;> rw [show s.phase = _ from hphase] at heq <;> cases heq
      have hret := hs.returned hphase
      cases event with
      | inner i event => exact returned_inner hret hv
      | take | resume | settle => exact absurd rfl (hallowed.2 hne)
  | batchEnds =>
    simp only [Delivery.step] at h
    split at h
    · rename_i hdone
      cases h
      refine hs.phase fun hend => ⟨hdone.2, ?_⟩
      cases hf : s.batch.batchFailure with
      | false => rfl
      | true => rw [hf] at hend; rcases hend with hend | hend <;> cases hend
    · cases h

theorem invocationOk_of_run {hasSchema : Bool} {events : List EntryEvent}
    (h : (d.sqsEntryPoint hasSchema).run events (d.sqsEntryPoint hasSchema).init = some s) :
    InvocationOk d s := by
  have hinit := invariants_init d.process d.parallelism d.records
  refine Machine.run_invariant (I := InvocationOk d) (fun u e v hu hv => invocationOk_step hu hv)
    ⟨tasksOk_init d.process d.parallelism d.records, hinit.1, hinit.2.1, fun hend => ?_⟩ h
  cases hasSchema <;> rcases hend with hend | hend <;> cases hend

/-- What the batch is done with while it hands it back to no queue. -/
theorem justified_of_returned (hs : InvocationOk d s) (hret : s.batch.Returned) {i : Nat}
    {record : SqsRecord} (hrecord : d.records[i]? = some record)
    (hnot : record.messageId ∉ s.batch.batchItemFailures d.process) :
    ∃ state outcome, s.batch.tasks[i]? = some ⟨record, .settled (.processed state outcome)⟩ ∧
      state.Justified := by
  rw [← hs.turns.items, BatchState.records, List.getElem?_map, Option.map_eq_some_iff] at hrecord
  obtain ⟨⟨item, status⟩, task, rfl⟩ := hrecord
  have hm := List.mem_of_getElem? task
  have hreported := hs.reported _ hm
  have hfailed : item.messageId ∉ s.batch.failedMessageIds := fun hin =>
    hnot (List.mem_map.mpr ⟨item, List.mem_filter.mpr ⟨List.mem_map.mpr ⟨_, hm, rfl⟩,
      by simpa [Delivery.process, recordProcess] using hin⟩, rfl⟩)
  obtain ⟨ending, rfl⟩ : ∃ ending, status = .settled ending := settled_of_done hret.1 hm
  have hfailure : s.batch.batchFailure ≠ true := by simp [hret.2]
  cases ending with
  | stopped => exact absurd (hreported.failure (.inl rfl)) hfailure
  | skipped => exact absurd (hreported.message (.inl rfl)) hfailed
  | leftOut => exact absurd (hreported.message (.inr rfl)) hfailed
  | processed state outcome =>
    refine ⟨state, outcome, task, ?_⟩
    cases outcome with
    | none => exact absurd (hreported.failure (.inr rfl)) hfailure
    | some outcome =>
      obtain ⟨-, -, hj⟩ : Accounted item state (some outcome) := hs.records _ hm
      refine hj outcome rfl ?_
      cases hb : outcome.handedBack with
      | false => rfl
      | true => exact absurd (hreported.handedBack outcome rfl hb) hfailed

theorem justified_of_deleted (hs : InvocationOk d s) {task : Task SqsRecord (Work RecordState)
    (Ending RecordState)} (hm : task ∈ s.batch.tasks) {state : RecordState}
    (hstate : stateOf task.status = some state) (hdel : .deleted ∈ state.effects) :
    state.Justified := by
  have hok := hs.records _ hm
  obtain ⟨item, status⟩ := task
  rcases status with _ | (_ | ⟨startTime, st⟩) | (_ | _ | _ | ⟨st, outcome⟩) <;>
    simp only [stateOf, Option.some.injEq, reduceCtorEq] at hstate
  · subst hstate
    have hc : st.Coherent := hok
    exact hc.sound.deleted hdel
  · subst hstate
    have hc : Accounted item st outcome := hok
    exact hc.1.sound.deleted hdel

/-- The same with a key that was kept: done or unknown in the claims table. -/
def Continued (state : RecordState) : Prop :=
  .handlerFinished ∈ state.effects ∨ state.Copied ∨
    (∃ key claimState, claimState ≠ .running ∧ .keyFound key claimState ∈ state.effects) ∨
    ∃ claim claimState, .claimKept claim claimState ∈ state.effects

/-- An idempotent subscription, with a lone record. -/
def loneDelivery : Delivery where
  options := { idempotency := some { handlerName := "h", key := ["id"], lease := 30, ttl := 60 } }
  acknowledge := "record"
  parallelism := .finite 1
  records := [{ messageId := "1", body := "x" }]

/-- The handler fails with an unknown outcome and the key can't be kept. -/
def loneEvents : List EntryEvent :=
  let answers : List Answer := [.validated [("id", "1")], .claimed 7, .fulfilled, .rejected true,
    .fulfilled, .rejected false]
  [.hook true, .batch .take, .batch (.resume 0 5000 0)] ++
    answers.map (fun answer => .batch (.inner 0 (.answer answer ⟨0, 0, 0⟩))) ++
    [.batch (.settle 0 5), .batchEnds, .hook true]

def loneEnd : Invocation :=
  ((loneDelivery.sqsEntryPoint true).run loneEvents (loneDelivery.sqsEntryPoint true).init).getD
    { phase := .onBegin, batch := { tasks := [] } }

def loneClaim : HeldClaim := ⟨{ handlerName := "h", values := ["1"] }, 7⟩

/-- The lone record once its invocation returned. -/
def loneState : RecordState where
  awaiting := .ended false
  holdsGroup := true
  currentRequest := some { attempt := 1, message := [("id", "1")] }
  heldClaim := some loneClaim
  effects := [.claimTaken loneClaim, .handlerStarted, .keepAsked loneClaim .unknown]

end Ez4.Queue.EntryPoint

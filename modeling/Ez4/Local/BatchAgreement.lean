import Ez4.Local.RecordSteps
import Ez4.Queue.BatchSimulation

/-! # The local queue agrees with the deployed one

`processAllRecords` of the local emulation, for the schedule that is read off
a run of the queue runtime. -/
namespace Ez4.Local.Agreement
open Ez4.Queue.Messages hiding deferredCopy
open Ez4.Library Ez4.Queue.ProcessRecord Ez4.Queue.Batch Ez4.Local.Queue Ez4.Local.Lambda

/-- A local message follows its record through a batch. -/
def recordSimulation (options : Options) (deleteEachRecord : Bool) :
    ProcessSimulation (recordProcess options deleteEachRecord)
      (messageProcess options deleteEachRecord) where
  SameItem := SameMessage
  SameState record := Matches { options, record, deleteEachRecord }
  ok := faultless
  reads := localEvent options
  starts := startsHandler
  starts' := startsLocalHandler
  messageId h := h.messageId.symm
  group h := h.group_eq.symm
  start h hnow := matches_start ⟨rfl, h, rfl⟩ hnow
  step {record message a t l e} h hmatches hok ht := by
    have hx : SameExecution { options, record, deleteEachRecord }
        { options, message, deleteEachRecord } := ⟨rfl, h, rfl⟩
    have hfollowed := followed_step hx hmatches hok ht
    have hstarts := startsHandler_follows hmatches e
    dsimp only at hfollowed hstarts
    cases hreads : localEvent options a e with
    | none =>
      rw [hreads] at hfollowed hstarts
      exact ⟨hstarts, hfollowed⟩
    | some event =>
      rw [hreads] at hfollowed hstarts
      obtain ⟨m, hm, hmatches⟩ := hfollowed
      exact ⟨m, hm, hstarts, hmatches⟩
  outcome h ho := (outcome_of_matches h ho).1

/-- The schedule of the local batch: a run of the queue runtime, event by event. -/
def localSchedule (options : Options) (acknowledge : String) (parallelism : Parallelism)
    (records : List SqsRecord) (events : List (BatchEvent RecordEvent)) :
    List (BatchEvent LocalEvent) :=
  (Queue.Batch.processAllRecords options acknowledge parallelism records).trace
    (readEvent (localEvent options)) events
    (Queue.Batch.processAllRecords options acknowledge parallelism records).init

/-- The places of the records in the order their handlers started. -/
def handlersOfRecords (options : Options) (acknowledge : String) (parallelism : Parallelism)
    (records : List SqsRecord) (events : List (BatchEvent RecordEvent)) : List Nat :=
  (Queue.Batch.processAllRecords options acknowledge parallelism records).trace
    (handlerStarts startsHandler) events
    (Queue.Batch.processAllRecords options acknowledge parallelism records).init

def handlersOfMessages (options : Options) (acknowledge : String) (parallelism : Parallelism)
    (messages : List ReceivedMessage) (events : List (BatchEvent LocalEvent)) : List Nat :=
  (Lambda.processAllRecords options acknowledge parallelism messages).trace
    (handlerStarts startsLocalHandler) events
    (Lambda.processAllRecords options acknowledge parallelism messages).init

/-! ## What is done for each message -/

def observedRecord (s : BatchState SqsRecord RecordState) (i : Nat) : Option (List Observed) :=
  (s.stateAt i).map fun a => a.effects.filterMap observeRecord

def observedMessage (u : BatchState ReceivedMessage LocalState) (i : Nat) :
    Option (List Observed) :=
  (u.stateAt i).map fun l => l.effects.map observeMessage

/-- The batches hand back the same messages, and for each one that's settled
they sent the same copies and kept and released the same claims. -/
structure Agrees (s : BatchState SqsRecord RecordState)
    (u : BatchState ReceivedMessage LocalState) : Prop where
  finished : u.finished = s.finished
  failedMessageIds : u.failedMessageIds = s.failedMessageIds
  batchFailure : u.batchFailure = s.batchFailure
  started : u.started = s.started
  observed : ∀ i, s.settled i = true → observedMessage u i = observedRecord s i

/-- A settled record stays as it ended. -/
theorem outcomes_of_run {options : Options} {deleteEachRecord : Bool} {parallelism : Parallelism}
    {records : List SqsRecord} {events : List (BatchEvent RecordEvent)}
    {s : BatchState SqsRecord RecordState}
    (hok : (batch (recordProcess options deleteEachRecord) parallelism records).Meets
      (okEvent faultless · · = true) events
      (batch (recordProcess options deleteEachRecord) parallelism records).init)
    (hrun : (batch (recordProcess options deleteEachRecord) parallelism records).run events
      (batch (recordProcess options deleteEachRecord) parallelism records).init = some s) :
    TasksOk (fun _ _ => True) (fun _ a outcome => a.outcome? = some outcome) s := by
  refine Machine.run_invariant_of_meets (fun s e t hs hok ht => ?_) (tasksOk_init _ _ _) hok hrun
  refine tasksOk_step (fun _ _ a event => faultless a event = true) (fun _ _ => trivial)
    (fun _ _ _ _ _ _ _ => trivial) (fun _ _ _ _ ho => ho)
    (fun _ _ _ _ _ hok ho ht => outcome_of_step ho hok ht) hs ?_ ht
  rintro i event record status rfl task
  refine ⟨?_, ?_⟩
  · rintro startTime a rfl
    exact ok_of_okEvent hok task rfl
  · rintro a outcome rfl
    exact ok_of_okEvent hok task rfl

theorem agrees_of_sameBatch {options : Options} {deleteEachRecord : Bool}
    {s : BatchState SqsRecord RecordState} {u : BatchState ReceivedMessage LocalState}
    (h : SameBatch (recordSimulation options deleteEachRecord) s u)
    (hs : TasksOk (fun _ _ => True) (fun _ a outcome => a.outcome? = some outcome) s) :
    Agrees s u := by
  refine ⟨h.finished, h.failedMessageIds, h.batchFailure, h.started, fun i hi => ?_⟩
  obtain ⟨stage, hstage, hended⟩ := BatchState.settled_iff.mp hi
  obtain ⟨record, status, task, rfl⟩ := BatchState.stage_eq_some.mp hstage
  obtain ⟨message, status', task', -, hstatus⟩ := h.task task
  rw [observedMessage, observedRecord, stateAt_of_task task, stateAt_of_task task']
  cases hstatus with
  | @processed a l outcome same =>
    have ho : a.outcome? = some outcome := hs _ (List.mem_of_getElem? task)
    exact congrArg some (outcome_of_matches same ho).2.effects
  | stopped | skipped | leftOut => rfl
  | waiting | awaitingTurn | processing => cases hended

/-- **The local emulation of a batch agrees with the queue runtime.** For every
run of the runtime in which no request fails and calls are awaited one after
another, the local batch takes the same schedule, starts the same handlers in
the same order, hands back the same messages, and does the same for each. -/
theorem processAllRecords_agrees (options : Options) (acknowledge : String)
    (parallelism : Parallelism) (records : List SqsRecord) (messages : List ReceivedMessage)
    (hsame : List.Forall₂ SameMessage records messages) (events : List (BatchEvent RecordEvent))
    (s : BatchState SqsRecord RecordState)
    (hok : (Queue.Batch.processAllRecords options acknowledge parallelism records).Meets
      (okEvent faultless · · = true) events
      (Queue.Batch.processAllRecords options acknowledge parallelism records).init)
    (hrun : (Queue.Batch.processAllRecords options acknowledge parallelism records).run events
      (Queue.Batch.processAllRecords options acknowledge parallelism records).init = some s) :
    ∃ u, (Lambda.processAllRecords options acknowledge parallelism messages).run
        (localSchedule options acknowledge parallelism records events)
        (Lambda.processAllRecords options acknowledge parallelism messages).init = some u ∧
      Agrees s u ∧
      handlersOfMessages options acknowledge parallelism messages
          (localSchedule options acknowledge parallelism records events) =
        handlersOfRecords options acknowledge parallelism records events := by
  have hdeletes : deletesEachMessage acknowledge messages = deletesEachRecord acknowledge records := by
    rw [deletesEachMessage, deletesEachRecord, hsame.length_eq]
  obtain ⟨u, hu, hsim, hhandlers⟩ := follows_run
    (recordSimulation options (deletesEachRecord acknowledge records)) parallelism hsame hok hrun
  rw [handlersOfMessages, Lambda.processAllRecords, hdeletes]
  exact ⟨u, hu, agrees_of_sameBatch hsim (outcomes_of_run hok hrun), hhandlers⟩

/-! ## A batch of both -/

def sharedOptions : Options :=
  { idempotency := some { handlerName := "charge", key := ["order"], lease := 30, ttl := 300 }
    keyConcurrency := some { handlerName := "charge", key := ["order"], max := 2, lease := 30 } }

def sharedRecords : List SqsRecord :=
  [{ messageId := "0", body := "a", defers := some 2 }, { messageId := "1", body := "b" }]

def sharedMessages : List ReceivedMessage :=
  [{ messageId := 0, receiptHandle := 10, receiveCount := 1, groupId := none, body := "a"
     attributes := { traceId := "t", defers := some 2 } },
    { messageId := 1, receiptHandle := 11, receiveCount := 1, groupId := none, body := "b"
      attributes := { traceId := "t" } }]

/-- The first record takes its key and its second slot, and its handler defers
it; the second one finds the key of both running and is handed back. -/
def sharedEvents : List (BatchEvent RecordEvent) :=
  let tick : Tick := { now := 60000, firstSlot := 0, slotWait := 0 }
  let message : Message := [("order", "7")]
  let first : List RecordEvent :=
    [.answer (.validated message) tick, .answer (.claimed 1) tick, .answer (.refused .running) tick,
      .answer (.claimed 2) tick, .answer .fulfilled tick, .call (.defer 30) 60000, .callEnds 0 true,
      .answer .fulfilled tick, .answer .fulfilled tick, .answer .fulfilled tick,
      .answer .fulfilled tick, .answer .fulfilled tick]
  let second : List RecordEvent :=
    [.answer (.validated message) tick, .answer (.refused .running) tick, .answer .fulfilled tick]
  [.take, .take, .resume 0 5000 60000, .resume 1 5000 60000] ++ first.map (.inner 0) ++
    second.map (.inner 1) ++ [.settle 0 60005, .settle 1 60005]

def sharedEnd : BatchState SqsRecord RecordState :=
  ((Queue.Batch.processAllRecords sharedOptions "record" (.finite 2) sharedRecords).run sharedEvents
    (Queue.Batch.processAllRecords sharedOptions "record" (.finite 2) sharedRecords).init).getD
      { tasks := [] }

theorem sharedRecords_same : List.Forall₂ SameMessage sharedRecords sharedMessages :=
  .cons ⟨by decide, rfl, rfl, by decide, rfl, rfl, rfl⟩
    (.cons ⟨by decide, rfl, rfl, by decide, rfl, rfl, rfl⟩ .nil)

theorem sharedBatch_agrees : sharedEnd.finished = true ∧ sharedEnd.failedMessageIds = ["1"] ∧
    ∃ u, (Lambda.processAllRecords sharedOptions "record" (.finite 2) sharedMessages).run
        (localSchedule sharedOptions "record" (.finite 2) sharedRecords sharedEvents)
        (Lambda.processAllRecords sharedOptions "record" (.finite 2) sharedMessages).init = some u ∧
      Agrees sharedEnd u ∧
      handlersOfMessages sharedOptions "record" (.finite 2) sharedMessages
          (localSchedule sharedOptions "record" (.finite 2) sharedRecords sharedEvents) =
        handlersOfRecords sharedOptions "record" (.finite 2) sharedRecords sharedEvents :=
  ⟨by decide +kernel, by decide +kernel,
    processAllRecords_agrees sharedOptions "record" (.finite 2) sharedRecords sharedMessages
      sharedRecords_same sharedEvents sharedEnd (by decide +kernel) (by decide +kernel)⟩

end Ez4.Local.Agreement

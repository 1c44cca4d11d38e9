import Ez4.Queue.ProcessRecord
import Ez4.Utils.Tasks

/-! # A batch of records

`processAllRecords` as a machine, over any way of processing one record: the
queue runtime (`message.ts`) and its local emulation (`lambda.ts`) run their
records through the same pool and the same turns. What a record does while it
is processed, and when it ends, are events. -/
namespace Ez4.Queue.Batch
open Ez4.Library Ez4.Queue.Messages Ez4.Utils.Tasks

/-- How a record of type `ρ` is processed: `σ` are the states of its
`processRecord` and `ε` what happens in it. -/
structure Process (ρ σ ε : Type) where
  messageId : ρ → String
  group : ρ → Option String
  start : ρ → Int → σ
  step : ρ → σ → ε → Option σ
  /-- How it ended, when it did; none inside when it threw. -/
  outcome? : σ → Option (Option RecordOutcome)

/-- What a taken record is in. -/
inductive Work (σ : Type)
  /-- `await previousInGroup` -/
  | awaitingTurn
  | processing (startTime : Int) (state : σ)
deriving DecidableEq, Repr

/-- How the task of a record ended. -/
inductive Ending (σ : Type)
  /-- A batch failure came before it started. -/
  | stopped
  /-- Its group failed. -/
  | skipped
  /-- No time was left for it. -/
  | leftOut
  | processed (state : σ) (outcome : Option RecordOutcome)
deriving DecidableEq, Repr

structure BatchState (ρ σ : Type) where
  tasks : Pool ρ (Work σ) (Ending σ)
  failedMessageIds : List String := []
  failedGroupIds : List String := []
  slowestRecord : Int := 0
  batchFailure : Bool := false
  /-- The records in the order their processing started: for statements only. -/
  started : List Nat := []
deriving DecidableEq, Repr

inductive BatchEvent (ε : Type)
  /-- A worker takes the next record. -/
  | take
  /-- The turn of a record comes. `timeLeft` is what the invocation has left
  but for the margin, `now` the clock. -/
  | resume (index : Nat) (timeLeft now : Int)
  /-- Something happens in the processing of a record. -/
  | inner (index : Nat) (event : ε)
  /-- The batch goes on with a record whose processing ended. -/
  | settle (index : Nat) (now : Int)
deriving DecidableEq, Repr

/-- `__EZ4_PARALLELISM` as the number it is. -/
inductive Parallelism
  | notANumber
  | infinite (negative : Bool)
  | finite (value : Rat)
deriving DecidableEq, Repr

/-- `Math.max(1, Math.trunc(parallelism) || 1)` workers, of which no more than
there are records are made. -/
def Parallelism.workers (parallelism : Parallelism) (records : Nat) : Nat :=
  match parallelism with
  | .notANumber => min records 1
  | .infinite false => records
  | .infinite true => min records 1
  | .finite value => min records (max 1 value.floor.toNat)

/-- The place of the record whose turn the record at `index` waits for: the
last one of its group before it. -/
def previousInGroup {ρ σ ε : Type} (P : Process ρ σ ε) (records : List ρ) (index : Nat) :
    Option Nat :=
  match records[index]?.bind P.group with
  | none => none
  | some group =>
    ((List.range index).filter fun i => records[i]?.bind P.group = some group).getLast?

namespace BatchState

variable {ρ σ ε : Type} (P : Process ρ σ ε) (s : BatchState ρ σ)

def records : List ρ := s.tasks.map Task.item

/-- The task at a place settled, so its turn in the group ended. -/
def settled (index : Nat) : Bool :=
  (s.tasks[index]?.bind (·.status.result?)).isSome

/-- Whether what a record awaits before it starts is over. -/
def turnCame (index : Nat) : Bool :=
  match previousInGroup P s.records index with
  | none => true
  | some previous => s.settled previous

/-- `failedGroupIds.has(messageGroupId)`, for a record that has a group. -/
def groupFailed (record : ρ) : Bool :=
  match P.group record with
  | none => false
  | some group => s.failedGroupIds.contains group

def failMessage (record : ρ) : BatchState ρ σ :=
  { s with failedMessageIds := s.failedMessageIds ++ [P.messageId record] }

def failGroup (record : ρ) : BatchState ρ σ :=
  match P.group record with
  | none => s
  | some group => { s with failedGroupIds := s.failedGroupIds ++ [group] }

def setTask (index : Nat) (status : TaskStatus (Work σ) (Ending σ)) : BatchState ρ σ :=
  { s with tasks := setStatus s.tasks index status }

/-- From the turn of a record to its first await. -/
def resume (index : Nat) (record : ρ) (timeLeft now : Int) : BatchState ρ σ :=
  if s.batchFailure then s.setTask index (.settled .stopped)
  else if s.groupFailed P record then
    (s.failMessage P record).setTask index (.settled .skipped)
  else if s.slowestRecord > 0 && timeLeft ≤ s.slowestRecord then
    ((s.failMessage P record).failGroup P record).setTask index (.settled .leftOut)
  else
    { s.setTask index (.running (.processing now (P.start record now))) with
      started := s.started ++ [index] }

/-- Once `processRecord` returned or threw. -/
def settle (index : Nat) (record : ρ) (startTime : Int) (state : σ)
    (outcome : Option RecordOutcome) (now : Int) : BatchState ρ σ :=
  match outcome with
  | none => { s.setTask index (.settled (.processed state none)) with batchFailure := true }
  | some outcome =>
    let s := { s with slowestRecord := max s.slowestRecord (now - startTime) }
    let s := if outcome.handedBack then s.failMessage P record else s
    let s := if outcome.holdsGroup then s.failGroup P record else s
    s.setTask index (.settled (.processed state (some outcome)))

/-- What happens in a record. Its handler may go on after the record's own
code ended. -/
def inner (index : Nat) (event : ε) : Option (BatchState ρ σ) :=
  match s.tasks[index]? with
  | some ⟨record, .running (.processing startTime state)⟩ =>
    (P.step record state event).map fun state =>
      s.setTask index (.running (.processing startTime state))
  | some ⟨record, .settled (.processed state outcome)⟩ =>
    (P.step record state event).map fun state =>
      s.setTask index (.settled (.processed state outcome))
  | _ => none

def step (workers : Nat) (s : BatchState ρ σ) : BatchEvent ε → Option (BatchState ρ σ)
  | .take =>
    (next? s.tasks workers).map fun index => s.setTask index (.running .awaitingTurn)
  | .resume index timeLeft now =>
    match running? s.tasks index with
    | some (record, .awaitingTurn) =>
      if s.turnCame P index then some (s.resume P index record timeLeft now) else none
    | _ => none
  | .inner index event => s.inner P index event
  | .settle index now =>
    match running? s.tasks index with
    | some (record, .processing startTime state) =>
      (P.outcome? state).map fun outcome => s.settle P index record startTime state outcome now
    | _ => none

/-- `processAllRecords` ended. -/
def finished : Bool := done s.tasks

/-- The batch response, when it isn't the failure that's thrown instead. -/
def batchItemFailures : List String :=
  (s.records.filter fun record => s.failedMessageIds.contains (P.messageId record)).map P.messageId

/-- The batch ended with a response. -/
def Returned : Prop := s.finished = true ∧ s.batchFailure = false

end BatchState

def batch {ρ σ ε : Type} (P : Process ρ σ ε) (parallelism : Parallelism) (records : List ρ) :
    Machine (BatchState ρ σ) (BatchEvent ε) where
  init := { tasks := start records }
  step := BatchState.step P (parallelism.workers records.length)

/-! ## The queue runtime -/

open Ez4.Queue.ProcessRecord

/-- Any acknowledge but `'batch'` deletes each record of a longer batch. -/
def deletesEachRecord (acknowledge : String) (records : List SqsRecord) : Bool :=
  acknowledge ≠ "batch" && records.length > 1

/-- `processRecord`, for the records of a batch. -/
def recordProcess (options : Options) (deleteEachRecord : Bool) :
    Process SqsRecord RecordState RecordEvent where
  messageId := SqsRecord.messageId
  group := SqsRecord.group
  start record := RecordState.start { options, record, deleteEachRecord }
  step record := RecordState.step { options, record, deleteEachRecord }
  outcome? := RecordState.outcome?

/-- `processAllRecords`. -/
def processAllRecords (options : Options) (acknowledge : String) (parallelism : Parallelism)
    (records : List SqsRecord) : Machine (BatchState SqsRecord RecordState)
      (BatchEvent RecordEvent) :=
  batch (recordProcess options (deletesEachRecord acknowledge records)) parallelism records

end Ez4.Queue.Batch

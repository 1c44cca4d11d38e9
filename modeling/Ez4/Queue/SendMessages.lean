import Mathlib.Algebra.GroupWithZero.Nat
import Ez4.Library.Machine
import Ez4.Utils.Tasks

/-! # Sending many messages to a queue

`sendMessages` of the SQS client (`aws-queue/src/client.ts`). The checks of the
messages settle in any order, and so do the requests in flight. `T` are the
messages and `ε` what a check or a request throws. -/
namespace Ez4.Queue.SendMessages
open Ez4.Library Ez4.Utils

/-! ## Messages and entries -/

structure FairMode where
  groupId : String

structure FifoMode where
  groupId : String
  uniqueId : Option String

structure Parameters where
  fifoMode : Option FifoMode := none
  fairMode : Option FairMode := none

structure MessageAttribute where
  name : String
  dataType : String
  stringValue : String
deriving DecidableEq

inductive SendError (ε : Type)
  /-- What `getJsonStringMessage` or a request threw. -/
  | thrown (error : ε)
  | missingMessageGroup (fieldName : String)
  /-- The code and the message of an entry that failed. -/
  | failed (reason : String)
deriving DecidableEq

/-- `error.message` -/
def SendError.message {ε : Type} (text : ε → String) : SendError ε → String
  | .thrown error => text error
  | .missingMessageGroup fieldName =>
    "Message group field '" ++ fieldName ++ "' for the queue is missing."
  | .failed reason => reason

/-- `SendMessageBatchRequestEntry` -/
structure Entry where
  id : String
  delaySeconds : Option Nat
  messageBody : String
  messageGroupId : Option String
  messageDeduplicationId : Option String
  messageAttributes : List MessageAttribute
deriving DecidableEq

structure BatchEntry (T : Type) where
  index : Nat
  message : T
  entry : Entry
  size : Nat
deriving DecidableEq

structure SendMessageFailure (T ε : Type) where
  index : Nat
  message : T
  error : SendError ε
deriving DecidableEq

structure SendMessagesError (T ε : Type) where
  failures : List (SendMessageFailure T ε)
  total : Nat
deriving DecidableEq

def SendMessagesError.message {T ε : Type} (text : ε → String) (error : SendMessagesError T ε) :
    String :=
  let reasons := (error.failures.map fun failure => failure.error.message text).eraseDups
  toString error.failures.length ++ " of " ++ toString error.total ++
    " messages weren't sent to the queue: " ++ "; ".intercalate reasons

/-- A call of `sendMessages`. -/
structure Call (T ε : Type) where
  parameters : Parameters
  messages : List T
  delay : Option Nat
  traceId : String
  /-- `Runtime.exportScope()` -/
  scope : Option String
  getJsonStringMessage : T → Except ε String
  /-- The text of a property of a message, where its value is truthy. -/
  property : T → String → Option String

def maxBatchEntries : Nat := 10
def maxBatchSize : Nat := 1048576
def maxBatchRequests : Nat := 10

variable {T ε : Type}

namespace Call

variable (call : Call T ε)

def getMessageAttributes : List MessageAttribute :=
  { name := "EZ4.TRACE_ID", dataType := "String", stringValue := call.traceId } ::
    match call.scope with
    | some scope => [{ name := "EZ4.SCOPE", dataType := "String", stringValue := scope }]
    | none => []

def getFairParameters (message : T) (groupId : String) : Except (SendError ε) String :=
  match call.property message groupId with
  | some groupIdValue => .ok groupIdValue
  | none => .error (.missingMessageGroup groupId)

/-- The group and the deduplication id. The group of the fair mode takes the place of the
one of the fifo mode. -/
def getGroupParameters (message : T) : Except (SendError ε) (Option String × Option String) := do
  let fifo ← call.parameters.fifoMode.mapM fun fifoMode => do
    let groupIdValue ← call.getFairParameters message fifoMode.groupId
    pure (groupIdValue, fifoMode.uniqueId.bind (call.property message))
  let fair ← call.parameters.fairMode.mapM fun fairMode =>
    call.getFairParameters message fairMode.groupId
  pure (fair <|> fifo.map Prod.fst, fifo.bind Prod.snd)

end Call

/-- `Buffer.byteLength(name) + Buffer.byteLength(DataType) + Buffer.byteLength(StringValue)` -/
def MessageAttribute.size : MessageAttribute → Nat
  | ⟨name, dataType, stringValue⟩ =>
    name.utf8ByteSize + dataType.utf8ByteSize + stringValue.utf8ByteSize

def getAttributesSize (attributes : List MessageAttribute) : Nat :=
  (attributes.map MessageAttribute.size).sum

namespace Call

variable (call : Call T ε)

/-- The entry of a message, unless one of its checks throws. -/
def getEntry (message : T) (index : Nat) : Except (SendError ε) (BatchEntry T) := do
  let messageBody ← (call.getJsonStringMessage message).mapError .thrown
  let (messageGroupId, messageDeduplicationId) ← call.getGroupParameters message
  let messageAttributes := call.getMessageAttributes
  pure {
    index, message
    entry := {
      id := toString index
      delaySeconds := call.delay
      messageBody, messageGroupId, messageDeduplicationId, messageAttributes }
    size := messageBody.utf8ByteSize + getAttributesSize messageAttributes }

def batchEntry? (position : T × Nat) : Option (BatchEntry T) :=
  (call.getEntry position.1 position.2).toOption

def checkFailure? (position : T × Nat) : Option (SendMessageFailure T ε) :=
  match call.getEntry position.1 position.2 with
  | .ok _ => none
  | .error error => some { index := position.2, message := position.1, error }

/-- `batchEntries`, without the messages that failed a check. -/
def batchEntries : List (BatchEntry T) := call.messages.zipIdx.filterMap call.batchEntry?

end Call

/-! ## Batches -/

def getBatchesFrom (currentBatch : List (BatchEntry T)) (currentSize : Nat) :
    List (BatchEntry T) → List (List (BatchEntry T))
  | [] => if currentBatch.isEmpty then [] else [currentBatch]
  | batchEntry :: rest =>
    let isBatchFull := currentBatch.length == maxBatchEntries ||
      decide (maxBatchSize < currentSize + batchEntry.size)
    if isBatchFull && !currentBatch.isEmpty then
      currentBatch :: getBatchesFrom [batchEntry] batchEntry.size rest
    else getBatchesFrom (currentBatch ++ [batchEntry]) (currentSize + batchEntry.size) rest

def getBatches (batchEntries : List (BatchEntry T)) : List (List (BatchEntry T)) :=
  getBatchesFrom [] 0 batchEntries

/-! ## Requests -/

/-- `BatchResultErrorEntry` -/
structure FailedEntry where
  id : String
  senderFault : Bool
  code : Option String
  message : Option String
deriving DecidableEq

/-- What a request comes to: it is rejected as a whole, or some of its entries fail. -/
inductive Answer (ε : Type)
  | rejected (error : ε)
  | answered (failed : List FailedEntry)
deriving DecidableEq

/-- `failedEntries.get(batchEntry.entry.Id)`: a `Map` keeps the last value of a key. -/
def failedEntry? (failed : List FailedEntry) (batchEntry : BatchEntry T) : Option FailedEntry :=
  failed.reverse.find? fun failedEntry => failedEntry.id == batchEntry.entry.id

def FailedEntry.reason (failedEntry : FailedEntry) : String :=
  ": ".intercalate ([failedEntry.code, failedEntry.message].filterMap fun text =>
    text.filter (· ≠ ""))

/-- The failures of `sendBatch`, but for those of the batch it sends again. -/
def failuresOf (retryServerFaults : Bool) (batch : List (BatchEntry T)) :
    Answer ε → List (SendMessageFailure T ε)
  | .rejected error => batch.map fun batchEntry =>
      { index := batchEntry.index, message := batchEntry.message, error := .thrown error }
  | .answered failed => batch.filterMap fun batchEntry => do
      let failedEntry ← failedEntry? failed batchEntry
      if retryServerFaults && !failedEntry.senderFault then none
      else some { index := batchEntry.index, message := batchEntry.message,
                  error := .failed failedEntry.reason }

/-- An entry failed on the side of SQS. -/
def failedByServer (answer : Answer ε) (batchEntry : BatchEntry T) : Bool :=
  match answer with
  | .rejected _ => false
  | .answered failed => ( failedEntry? failed batchEntry).any fun failedEntry =>
      !failedEntry.senderFault

def retryBatchOf (batch : List (BatchEntry T)) (answer : Answer ε) : List (BatchEntry T) :=
  batch.filter (failedByServer answer)

/-- SQS took an entry of the request. -/
def accepts (answer : Answer ε) (batchEntry : BatchEntry T) : Bool :=
  match answer with
  | .rejected _ => false
  | .answered failed => ( failedEntry? failed batchEntry).isNone

/-! ## The call -/

/-- The request of a batch that is in flight. -/
inductive Sending (T ε : Type)
  | first
  | again (retryBatch : List (BatchEntry T)) (failures : List (SendMessageFailure T ε))
deriving DecidableEq

/-- A request and its answer. The code keeps no list of them: it is for statements only. -/
structure Request (T ε : Type) where
  task : Nat
  isRetry : Bool
  batch : List (BatchEntry T)
  answer : Answer ε
deriving DecidableEq

abbrev BatchPool (T ε : Type) :=
  Tasks.Pool (List (BatchEntry T)) (Sending T ε) (List (SendMessageFailure T ε))

inductive Stage (T ε : Type)
  /-- Waits for the checks of the messages, given the positions of those that settled. -/
  | checking (settled : List Nat)
  | sending (failures : List (SendMessageFailure T ε)) (pool : BatchPool T ε)
  | returned (error : Option (SendMessagesError T ε))
deriving DecidableEq

structure State (T ε : Type) where
  stage : Stage T ε
  log : List (Request T ε) := []
deriving DecidableEq

inductive Event (ε : Type)
  /-- The checks of a message settle. -/
  | check (index : Nat)
  /-- All are settled, and the batches are made. -/
  | prepare
  /-- A worker takes the next batch. -/
  | take
  /-- The request in flight for a batch is answered. -/
  | answer (task : Nat) (answer : Answer ε)
  /-- All batches are settled. -/
  | finish
deriving DecidableEq

namespace Call

variable (call : Call T ε)

def concurrency : Nat := if call.parameters.fifoMode.isSome then 1 else maxBatchRequests

/-- The failures that the checks pushed, in the order they settled in. -/
def checkFailures (settled : List Nat) : List (SendMessageFailure T ε) :=
  settled.filterMap fun index => do
    let message ← call.messages[index]?
    call.checkFailure? (message, index)

/-- `throw new SendMessagesError(…)`, where anything failed. -/
def conclude (failures : List (SendMessageFailure T ε)) : Option (SendMessagesError T ε) :=
  if failures.isEmpty then none
  else some {
    failures := failures.mergeSort fun a b => decide (a.index ≤ b.index)
    total := call.messages.length }

/-- The request in flight for a batch is answered, and the batch is sent once more or settles. -/
def answerTask (pool : BatchPool T ε) (task : Nat) (answer : Answer ε) :
    Option (BatchPool T ε × Request T ε) :=
  match Tasks.running? pool task with
  | none => none
  | some (batch, .first) =>
    let failures := failuresOf true batch answer
    let retryBatch := retryBatchOf batch answer
    let status :=
      if retryBatch.isEmpty then .settled failures else .running (.again retryBatch failures)
    some (Tasks.setStatus pool task status, { task, isRetry := false, batch, answer })
  | some (_, .again batch failures) =>
    let status := .settled (failures ++ failuresOf false batch answer)
    some (Tasks.setStatus pool task status, { task, isRetry := true, batch, answer })

def step (s : State T ε) (event : Event ε) : Option (State T ε) :=
  match s.stage, event with
  | .checking settled, .check index =>
    if index < call.messages.length ∧ index ∉ settled then
      some { s with stage := .checking (settled ++ [index]) }
    else none
  | .checking settled, .prepare =>
    if settled.length = call.messages.length then
      let pool := Tasks.start (getBatches call.batchEntries)
      some { s with stage := .sending (call.checkFailures settled) pool }
    else none
  | .sending failures pool, .take => do
    let task ← Tasks.next? pool call.concurrency
    some { s with stage := .sending failures (Tasks.setStatus pool task (.running .first)) }
  | .sending failures pool, .answer task answer => do
    let (pool, request) ← answerTask pool task answer
    some { stage := .sending failures pool, log := s.log ++ [request] }
  | .sending failures pool, .finish =>
    if Tasks.done pool then
      some { s with stage := .returned (call.conclude (failures ++ (Tasks.results pool).flatten)) }
    else none
  | _, _ => none

def sendMessages : Machine (State T ε) (Event ε) where
  init := { stage := .checking [] }
  step := call.step

end Call

end Ez4.Queue.SendMessages

import Ez4.Local.Queue
import Ez4.Queue.Batch

/-! # A batch of the local queue

`processLambdaBatch` (`lambda.ts`), for a batch that doesn't reach its
timeout: `processRecord` and `failRecord` as a machine that stops only where
the validation, the handler or a hook is awaited. Requests to the queue and to
its claims are answered at once. -/
namespace Ez4.Local.Lambda
open Ez4.Library Ez4.Queue.Messages Ez4.Queue.Batch Ez4.Local.Queue
open Ez4.Queue.ProcessRecord (Call Incoming Tick)

/-- What `queue.claims.take` returns. -/
inductive ClaimResult
  | taken (owner : Uuid)
  | done
  | busy
deriving DecidableEq, Repr

/-- What `processRecord` runs for. -/
structure LocalExecution where
  options : Options
  message : ReceivedMessage
  deleteEachRecord : Bool
deriving DecidableEq, Repr

/-- What a message awaits. -/
inductive LocalAwait
  /-- `getJsonMessage` -/
  | validate
  | onReady
  | handle
  | onDone
  | onError (unknownOutcome : Bool)
  | ended (threw : Bool)
deriving DecidableEq, Repr

/-- How what is awaited ends. After the validation comes what `queue.claims.take`
returns for the idempotency key and for each slot that's tried. -/
inductive LocalAnswer
  | fulfilled
  | rejected (unknownOutcome : Bool)
  | validated (message : Message) (claim : ClaimResult) (slots : List ClaimResult) (tick : Tick)
deriving DecidableEq, Repr

inductive LocalEvent
  | answer (answer : LocalAnswer)
  | call (call : Call) (now : Int)
deriving DecidableEq, Repr

/-- What was done for the message. The code keeps no such list: it is for
statements only. -/
inductive LocalEffect
  | copySent (copy : OutgoingMessage)
  | deleted
  | visibilityAsked (userDelay : Option Rat)
  | claimTaken (claim : HeldClaim)
  | claimKept (claim : HeldClaim) (state : ClaimState)
  | claimReleased (claim : HeldClaim)
  | handlerStarted
  | handlerFinished
  | callAnswered (answer : CallAnswer)
deriving DecidableEq, Repr

structure LocalState where
  awaiting : LocalAwait
  handedBack : Bool := false
  holdsGroup : Bool := false
  currentRequest : Option Incoming := none
  heldClaim : Option HeldClaim := none
  heldSlot : Option HeldClaim := none
  deferred : Bool := false
  handled : Bool := false
  effects : List LocalEffect := []
deriving DecidableEq, Repr

/-- The message `sendDeferredCopy` sends, or the error it throws. -/
def deferredCopy (message : ReceivedMessage) (delay : Rat) (counted : Bool) (now : Int) :
    Except CallAnswer OutgoingMessage :=
  let previousCount := message.attributes.defers.getD 0
  let defers := if counted then previousCount + 1 else previousCount
  if defers > maxDeferCount then .error .tooManyDefers
  else
    let wait := max 0 delay.ceil
    let queueWait := min wait maxDeferDelay
    .ok
      { body := message.body
        attributes :=
          { traceId := message.attributes.traceId
            scope := message.attributes.scope
            defers := some defers
            deferUntil := if wait > queueWait then some (now + wait * 1000 : Int) else none }
        delay := some (queueWait : Int) }

namespace LocalState

variable (y : LocalExecution) (s : LocalState)

def log (effect : LocalEffect) : LocalState := { s with effects := s.effects ++ [effect] }

/-- `queue.claims.release` -/
def release (claim : HeldClaim) : LocalState := s.log (.claimReleased claim)

/-- The `finally` block, and the end. -/
def finish (threw : Bool) : LocalState :=
  match s.heldSlot with
  | some slot => { s.release slot with awaiting := .ended threw }
  | none => { s with awaiting := .ended threw }

/-- Into the `catch` block. -/
def caught (unknownOutcome : Bool) : LocalState :=
  { s with awaiting := .onError unknownOutcome }

/-- `consumeMessage`, as the last thing before the `finally` block. -/
def consumeMessage : LocalState :=
  if y.deleteEachRecord then (s.log .deleted).finish false else s.finish false

/-- `retryMessage`, as the last thing before the `finally` block. -/
def retryMessage : LocalState := (s.log (.visibilityAsked none)).finish false

/-- From `currentRequest` on. -/
def startHandler (message : Message) : LocalState :=
  { s with
    currentRequest := some { attempt := y.message.receiveCount, message }
    awaiting := .onReady }

/-- `takeSlot`, with what `queue.claims.take` returns for each slot. -/
def takeSlot (slots : SlotsOptions) (message : Message) (results : List ClaimResult)
    (firstSlot : Nat) : Option HeldClaim :=
  (List.range slots.max).findSome? fun offset =>
    let key := getConcurrencySlotKey slots.handlerName message slots.key
      ((firstSlot + offset) % slots.max)
    match results[offset]? with
    | some (.taken owner) => some ⟨key, owner⟩
    | _ => none

/-- No slot of the key is free. -/
def waitForSlot (tick : Tick) : LocalState :=
  match deferredCopy y.message (getSlotWaitDelay tick.slotWait) false tick.now with
  | .error _ => s.caught false
  | .ok copy =>
    let s := s.log (.copySent copy)
    match s.heldClaim with
    | some claim => (s.release claim).consumeMessage y
    | none => s.consumeMessage y

/-- From the slots on. -/
def enterSlots (message : Message) (results : List ClaimResult) (tick : Tick) : LocalState :=
  match y.options.keyConcurrency with
  | none => s.startHandler y message
  | some slots =>
    match takeSlot slots message results tick.firstSlot with
    | some slot => { s.log (.claimTaken slot) with heldSlot := some slot }.startHandler y message
    | none => s.waitForSlot y tick

/-- From the idempotency key on. -/
def enterClaim (message : Message) (claim : ClaimResult) (results : List ClaimResult)
    (tick : Tick) : LocalState :=
  match y.options.idempotency with
  | none => s.enterSlots y message results tick
  | some options =>
    match claim with
    | .done => s.consumeMessage y
    | .busy => { s with handedBack := true, holdsGroup := true }.retryMessage
    | .taken owner =>
      let held : HeldClaim := ⟨getIdempotencyKey options.handlerName message options.key, owner⟩
      { s.log (.claimTaken held) with heldClaim := some held }.enterSlots y message results tick

/-- What is left once the handler's claim was settled. -/
def acknowledge : LocalState :=
  if y.deleteEachRecord && !s.handedBack then { s.log .deleted with awaiting := .onDone }
  else { s with awaiting := .onDone }

/-- From `handled = true` on. -/
def handlerReturned : LocalState :=
  let s := { s.log .handlerFinished with handled := true }
  match s.heldClaim with
  | some claim =>
    if s.handedBack || s.deferred then (s.release claim).acknowledge y
    else (s.log (.claimKept claim .done)).acknowledge y
  | none => s.acknowledge y

def failRecord (unknownOutcome : Bool) : LocalState :=
  match s.heldClaim with
  | some claim =>
    if unknownOutcome then (s.log (.claimKept claim .unknown)).consumeMessage y
    else { s.release claim with handedBack := true }.retryMessage
  | none => { s with handedBack := true }.retryMessage

/-- The `catch` block, once `onError` ended. -/
def errorReported (unknownOutcome : Bool) : LocalState :=
  let s := { s with holdsGroup := true }
  if s.deferred && !s.handled then
    match s.heldClaim with
    | some claim => (s.release claim).consumeMessage y
    | none => s.consumeMessage y
  else if !s.handled then s.failRecord y unknownOutcome
  else s.finish false

/-- A call of `retry` or `defer`. -/
def makeCall (call : Call) (now : Int) : LocalState :=
  match call with
  | .retry delay =>
    if s.deferred then s.log (.callAnswered .alreadyDeferred)
    else
      ({ s with handedBack := true, holdsGroup := true }.log (.visibilityAsked delay)).log
        (.callAnswered .fulfilled)
  | .defer delay =>
    if y.message.groupId.isSome then s.log (.callAnswered .fifoQueue)
    else if s.handedBack || s.deferred then s.log (.callAnswered .alreadyHandedBack)
    else
      match deferredCopy y.message delay true now with
      | .error answer => s.log (.callAnswered answer)
      | .ok copy =>
        ({ s with deferred := true }.log (.copySent copy)).log (.callAnswered .fulfilled)

/-- What is awaited ends. -/
def answer (answer : LocalAnswer) : Option LocalState :=
  match s.awaiting, answer with
  | .validate, .validated message claim results tick =>
    some (s.enterClaim y message claim results tick)
  | .validate, .rejected unknownOutcome => some (s.caught unknownOutcome)
  | .onReady, .fulfilled => some { s.log .handlerStarted with awaiting := .handle }
  | .onReady, .rejected unknownOutcome => some (s.caught unknownOutcome)
  | .handle, .fulfilled => some (s.handlerReturned y)
  | .handle, .rejected unknownOutcome => some (s.caught unknownOutcome)
  | .onDone, .fulfilled => some (s.finish false)
  | .onDone, .rejected unknownOutcome => some (s.caught unknownOutcome)
  | .onError unknownOutcome, .fulfilled => some (s.errorReported y unknownOutcome)
  | .onError _, .rejected _ => some (s.finish true)
  | _, _ => none

/-- Up to the first await. `JSON.parse` is part of the validation. -/
def start (now : Int) : LocalState :=
  let s : LocalState := { awaiting := .validate }
  let waitLeft := y.message.attributes.deferUntil.getD 0 - now
  if waitLeft > 0 then
    match deferredCopy y.message (waitLeft / 1000) true now with
    | .error _ => s.caught false
    | .ok copy => (s.log (.copySent copy)).consumeMessage y
  else s

def step (s : LocalState) : LocalEvent → Option LocalState
  | .answer answer => s.answer y answer
  | .call call now => if s.currentRequest.isSome then some (s.makeCall y call now) else none

/-- How the message ended; none when it threw. -/
def outcome? : Option (Option RecordOutcome) :=
  match s.awaiting with
  | .ended true => some none
  | .ended false => some (some { handedBack := s.handedBack, holdsGroup := s.holdsGroup })
  | _ => none

end LocalState

/-- `processRecord`, for the messages of a batch. -/
def messageProcess (options : Options) (deleteEachRecord : Bool) :
    Process ReceivedMessage LocalState LocalEvent where
  messageId message := toString message.messageId
  group := ReceivedMessage.groupId
  start message := LocalState.start { options, message, deleteEachRecord }
  step message := LocalState.step { options, message, deleteEachRecord }
  outcome? := LocalState.outcome?

/-- Any acknowledge but `'batch'` deletes each message of a longer batch. -/
def deletesEachMessage (acknowledge : String) (messages : List ReceivedMessage) : Bool :=
  acknowledge ≠ "batch" && messages.length > 1

/-- `processAllRecords` of `processLambdaBatch`. -/
def processAllRecords (options : Options) (acknowledge : String) (parallelism : Parallelism)
    (messages : List ReceivedMessage) :
    Machine (BatchState ReceivedMessage LocalState) (BatchEvent LocalEvent) :=
  batch (messageProcess options (deletesEachMessage acknowledge messages)) parallelism messages

end Ez4.Local.Lambda

import Ez4.Queue.Messages
import Ez4.Library.Machine

/-! # One record in the queue runtime

`processRecord` and `failRecord` (`message.ts`) as a machine: its states are
the awaits of the two functions, and its events are what is awaited ending
and what the handler and the listener do with the request they got. Such a
call may be made without awaiting an earlier one, and also after the record's
own code ended. -/
namespace Ez4.Queue.ProcessRecord
open Ez4.Library Ez4.Queue.Messages

/-- What `processRecord` runs for. -/
structure Execution where
  options : Options
  record : SqsRecord
  deleteEachRecord : Bool
deriving DecidableEq, Repr

/-- What a record awaits. -/
inductive Await
  /-- `sendDeferredCopy` of a copy that came back early -/
  | sendWaitCopy (copy : Copy)
  /-- `getJsonMessage` -/
  | validate
  | takeClaim (message : Message)
  | takeSlot (message : Message) (firstSlot offset : Nat)
  /-- `sendDeferredCopy` of a record no slot of its key is free for -/
  | sendSlotCopy (copy : Copy)
  | onReady
  | handle
  /-- `releaseClaim` or `keepClaim` of a handler that finished -/
  | settleClaim (claim : HeldClaim) (keeps : Bool)
  | ackMessage
  | onDone
  | onError (unknownOutcome : Bool)
  /-- `keepClaim` of a handler that failed with an unknown outcome -/
  | keepUnknown (claim : HeldClaim)
  /-- `releaseClaim` before the record is consumed -/
  | releaseThenConsume (claim : HeldClaim)
  /-- `releaseClaim` before the record is handed back -/
  | releaseThenRetry (claim : HeldClaim)
  /-- `consumeRecord`, after which nothing but the `finally` block is left -/
  | consumeRecord
  /-- `retryMessage`, after which nothing but the `finally` block is left -/
  | retryMessage
  /-- `releaseClaim` of the slot, in the `finally` block -/
  | releaseSlot (claim : HeldClaim) (threw : Bool)
  | ended (threw : Bool)
deriving DecidableEq, Repr

/-- How what is awaited ends. -/
inductive Answer
  | fulfilled
  /-- The error, of which only an `UnknownOutcomeError` is told apart. -/
  | rejected (unknownOutcome : Bool)
  | validated (message : Message)
  /-- The conditional write of `takeClaim` was applied. -/
  | claimed (owner : Uuid)
  /-- It was refused; `ALL_OLD` gives the item in its way. -/
  | refused (state : ClaimState)
deriving DecidableEq, Repr

/-- What the clock and the random generator give at an event. -/
structure Tick where
  now : Int
  firstSlot : Nat
  slotWait : Nat
deriving DecidableEq, Repr

inductive Call
  | retry (delay : Option Rat)
  | defer (delay : Rat)
deriving DecidableEq, Repr

/-- A call whose request is not answered yet. -/
inductive PendingCall
  | retry
  | defer (copy : Copy)
deriving DecidableEq, Repr

inductive RecordEvent
  | answer (answer : Answer) (tick : Tick)
  | call (call : Call) (now : Int)
  | callEnds (index : Nat) (succeeds : Bool)
deriving DecidableEq, Repr

/-- What was done for the record. The code keeps no such list: it is for
statements only. -/
inductive Effect
  | copySent (copy : Copy)
  | deleted
  /-- `ChangeMessageVisibilityCommand`, with the delay the handler asked for -/
  | visibilityAsked (userDelay : Option Rat)
  | claimTaken (claim : HeldClaim)
  | keyFound (key : ClaimKey) (state : ClaimState)
  | keepAsked (claim : HeldClaim) (state : ClaimState)
  | claimKept (claim : HeldClaim) (state : ClaimState)
  | claimReleased (claim : HeldClaim)
  | handlerStarted
  | handlerFinished
  | callAnswered (answer : CallAnswer)
deriving DecidableEq, Repr

/-- `currentRequest`, for the part its caller doesn't choose. -/
structure Incoming where
  attempt : Nat
  message : Message
deriving DecidableEq, Repr

structure RecordState where
  awaiting : Await
  handedBack : Bool := false
  holdsGroup : Bool := false
  currentRequest : Option Incoming := none
  heldClaim : Option HeldClaim := none
  heldSlot : Option HeldClaim := none
  deferred : Bool := false
  handled : Bool := false
  pendingCalls : List PendingCall := []
  effects : List Effect := []
deriving DecidableEq, Repr

namespace RecordState

variable (x : Execution) (s : RecordState)

def log (effect : Effect) : RecordState := { s with effects := s.effects ++ [effect] }

/-- The `finally` block, and the end. -/
def finish (threw : Bool) : RecordState :=
  match s.heldSlot with
  | some slot => { s with awaiting := .releaseSlot slot threw }
  | none => { s with awaiting := .ended threw }

/-- Into the `catch` block. -/
def caught (unknownOutcome : Bool) : RecordState :=
  { s with awaiting := .onError unknownOutcome }

def consumeRecord : RecordState :=
  if x.deleteEachRecord then { s with awaiting := .consumeRecord } else s.finish false

/-- `retryMessage`, as the last thing before the `finally` block. -/
def retryMessage : RecordState :=
  { s.log (.visibilityAsked none) with awaiting := .retryMessage }

/-- From `currentRequest` on. -/
def startHandler (message : Message) : RecordState :=
  { s with
    currentRequest := some { attempt := x.record.receiveCount, message }
    awaiting := .onReady }

/-- No slot of the key is free. -/
def waitForSlot (tick : Tick) : RecordState :=
  match deferredCopy x.record (getSlotWaitDelay tick.slotWait) false tick.now with
  | .ok copy => { s with awaiting := .sendSlotCopy copy }
  | .error _ => s.caught false

/-- The loop of `takeSlot`, at an offset. -/
def takeSlot (slots : SlotsOptions) (message : Message) (firstSlot offset : Nat) (tick : Tick) :
    RecordState :=
  if offset < slots.max then { s with awaiting := .takeSlot message firstSlot offset }
  else s.waitForSlot x tick

/-- From the slots on. -/
def enterSlots (message : Message) (tick : Tick) : RecordState :=
  match x.options.keyConcurrency with
  | some slots => s.takeSlot x slots message tick.firstSlot 0 tick
  | none => s.startHandler x message

/-- From the idempotency key on. -/
def enterClaim (message : Message) (tick : Tick) : RecordState :=
  match x.options.idempotency with
  | some _ => { s with awaiting := .takeClaim message }
  | none => s.enterSlots x message tick

/-- The key of another execution, or of one that ran. -/
def claimRefused (key : ClaimKey) (state : ClaimState) : RecordState :=
  match state with
  | .running => { s with handedBack := true, holdsGroup := true }.retryMessage
  | state => (s.log (.keyFound key state)).consumeRecord x

/-- What is left once the handler's claim was settled. -/
def acknowledge : RecordState :=
  if x.deleteEachRecord && !s.handedBack then { s with awaiting := .ackMessage }
  else { s with awaiting := .onDone }

/-- From `handled = true` on. -/
def handlerReturned : RecordState :=
  let s := { s.log .handlerFinished with handled := true }
  match s.heldClaim with
  | some claim =>
    if s.handedBack || s.deferred then { s with awaiting := .settleClaim claim false }
    else { s.log (.keepAsked claim .done) with awaiting := .settleClaim claim true }
  | none => s.acknowledge x

def failRecord (unknownOutcome : Bool) : RecordState :=
  match s.heldClaim with
  | none => { s with handedBack := true }.retryMessage
  | some claim =>
    if unknownOutcome then
      { s.log (.keepAsked claim .unknown) with awaiting := .keepUnknown claim }
    else { s with awaiting := .releaseThenRetry claim }

/-- The `catch` block, once `onError` ended. -/
def errorReported (unknownOutcome : Bool) : RecordState :=
  let s := { s with holdsGroup := true }
  if s.deferred && !s.handled then
    match s.heldClaim with
    | some claim => { s with awaiting := .releaseThenConsume claim }
    | none => s.consumeRecord x
  else if !s.handled then s.failRecord unknownOutcome
  else s.finish false

/-- A call of `retry` or `defer`, up to its request. -/
def makeCall (call : Call) (now : Int) : RecordState :=
  match call with
  | .retry delay =>
    if s.deferred then s.log (.callAnswered .alreadyDeferred)
    else
      { s.log (.visibilityAsked delay) with
        handedBack := true
        holdsGroup := true
        pendingCalls := s.pendingCalls ++ [.retry] }
  | .defer delay =>
    if x.record.group.isSome then s.log (.callAnswered .fifoQueue)
    else if s.handedBack || s.deferred then s.log (.callAnswered .alreadyHandedBack)
    else
      match deferredCopy x.record delay true now with
      | .ok copy => { s with pendingCalls := s.pendingCalls ++ [.defer copy] }
      | .error answer => s.log (.callAnswered answer)

/-- The request of a call is answered. That of `retry` may fail: it is logged. -/
def callEnds (index : Nat) (succeeds : Bool) : Option RecordState :=
  match s.pendingCalls[index]? with
  | some .retry =>
    some { s.log (.callAnswered .fulfilled) with pendingCalls := s.pendingCalls.eraseIdx index }
  | some (.defer copy) =>
    let s := { s with pendingCalls := s.pendingCalls.eraseIdx index }
    if succeeds then
      some { (s.log (.copySent copy)).log (.callAnswered .fulfilled) with deferred := true }
    else some (s.log (.callAnswered .requestFailed))
  | none => none

/-- `takeClaim` of the idempotency key ends. -/
def claimAnswered (options : ClaimsOptions) (message : Message) (answer : Answer) (tick : Tick) :
    Option RecordState :=
  let key := getIdempotencyKey options.handlerName message options.key
  match answer with
  | .claimed owner =>
    some ({ s.log (.claimTaken ⟨key, owner⟩) with
      heldClaim := some ⟨key, owner⟩ }.enterSlots x message tick)
  | .refused state => some (s.claimRefused x key state)
  | .rejected unknownOutcome => some (s.caught unknownOutcome)
  | _ => none

/-- `takeClaim` of a slot ends. -/
def slotAnswered (slots : SlotsOptions) (message : Message) (firstSlot offset : Nat)
    (answer : Answer) (tick : Tick) : Option RecordState :=
  let slot := (firstSlot + offset) % slots.max
  let key := getConcurrencySlotKey slots.handlerName message slots.key slot
  match answer with
  | .claimed owner =>
    some ({ s.log (.claimTaken ⟨key, owner⟩) with
      heldSlot := some ⟨key, owner⟩ }.startHandler x message)
  | .refused _ => some (s.takeSlot x slots message firstSlot (offset + 1) tick)
  | .rejected unknownOutcome => some (s.caught unknownOutcome)
  | _ => none

/-- What is awaited ends. Of `ackMessage`, `retryMessage`, `keepClaim` and
`releaseClaim` a failure is only logged. -/
def answer (answer : Answer) (tick : Tick) : Option RecordState :=
  match s.awaiting, answer with
  | .sendWaitCopy copy, .fulfilled => some ((s.log (.copySent copy)).consumeRecord x)
  | .sendWaitCopy _, .rejected unknownOutcome => some (s.caught unknownOutcome)
  | .validate, .validated message => some (s.enterClaim x message tick)
  | .validate, .rejected unknownOutcome => some (s.caught unknownOutcome)
  | .takeClaim message, answer =>
    x.options.idempotency.bind fun options => s.claimAnswered x options message answer tick
  | .takeSlot message firstSlot offset, answer =>
    x.options.keyConcurrency.bind fun slots =>
      s.slotAnswered x slots message firstSlot offset answer tick
  | .sendSlotCopy copy, .fulfilled =>
    let s := s.log (.copySent copy)
    match s.heldClaim with
    | some claim => some { s with awaiting := .releaseThenConsume claim }
    | none => some (s.consumeRecord x)
  | .sendSlotCopy _, .rejected unknownOutcome => some (s.caught unknownOutcome)
  | .onReady, .fulfilled => some { s.log .handlerStarted with awaiting := .handle }
  | .onReady, .rejected unknownOutcome => some (s.caught unknownOutcome)
  | .handle, .fulfilled => some (s.handlerReturned x)
  | .handle, .rejected unknownOutcome => some (s.caught unknownOutcome)
  | .settleClaim claim true, .fulfilled =>
    some ((s.log (.claimKept claim .done)).acknowledge x)
  | .settleClaim claim false, .fulfilled => some ((s.log (.claimReleased claim)).acknowledge x)
  | .settleClaim _ _, .rejected _ => some (s.acknowledge x)
  | .ackMessage, .fulfilled => some { s.log .deleted with awaiting := .onDone }
  | .ackMessage, .rejected _ => some { s with awaiting := .onDone }
  | .onDone, .fulfilled => some (s.finish false)
  | .onDone, .rejected unknownOutcome => some (s.caught unknownOutcome)
  | .onError unknownOutcome, .fulfilled => some (s.errorReported x unknownOutcome)
  | .onError _, .rejected _ => some (s.finish true)
  | .keepUnknown claim, .fulfilled => some ((s.log (.claimKept claim .unknown)).consumeRecord x)
  | .keepUnknown _, .rejected _ => some (s.consumeRecord x)
  | .releaseThenConsume claim, .fulfilled =>
    some ((s.log (.claimReleased claim)).consumeRecord x)
  | .releaseThenConsume _, .rejected _ => some (s.consumeRecord x)
  | .releaseThenRetry claim, .fulfilled =>
    some { s.log (.claimReleased claim) with handedBack := true }.retryMessage
  | .releaseThenRetry _, .rejected _ => some { s with handedBack := true }.retryMessage
  | .consumeRecord, .fulfilled => some ((s.log .deleted).finish false)
  | .consumeRecord, .rejected _ => some (s.finish false)
  | .retryMessage, .fulfilled => some (s.finish false)
  | .retryMessage, .rejected _ => some (s.finish false)
  | .releaseSlot claim threw, .fulfilled =>
    some { s.log (.claimReleased claim) with awaiting := .ended threw }
  | .releaseSlot _ threw, .rejected _ => some { s with awaiting := .ended threw }
  | _, _ => none

/-- Up to the first await. `JSON.parse` is part of the validation. -/
def start (now : Int) : RecordState :=
  let waitLeft := getDeferWaitLeft x.record now
  if waitLeft > 0 then
    match deferredCopy x.record waitLeft true now with
    | .ok copy => { awaiting := .sendWaitCopy copy }
    | .error _ => { awaiting := .onError false }
  else { awaiting := .validate }

def step (s : RecordState) : RecordEvent → Option RecordState
  | .answer answer tick => s.answer x answer tick
  | .call call now => if s.currentRequest.isSome then some (s.makeCall x call now) else none
  | .callEnds index succeeds => s.callEnds index succeeds

/-- How the record ended; none when it threw. -/
def outcome? : Option (Option RecordOutcome) :=
  match s.awaiting with
  | .ended true => some none
  | .ended false => some (some { handedBack := s.handedBack, holdsGroup := s.holdsGroup })
  | _ => none

end RecordState

/-- A record from the start of its `processRecord`. -/
def machine (x : Execution) (now : Int) : Machine RecordState RecordEvent where
  init := RecordState.start x now
  step := RecordState.step x

end Ez4.Queue.ProcessRecord

import Mathlib.Data.Rat.Floor

/-! # What a queue function works on

The parts of an SQS record and of a subscription's options that the queue
runtime (`message.ts`) reads, with the helpers of `defer.ts` and
`idempotency.ts`. Times are those of `Date.now()`, in milliseconds. -/
namespace Ez4.Queue.Messages

/-- What `getRandomUUID` gives. -/
abbrev Uuid := Nat

/-- A message, once validated: each field with the JSON text of its value. -/
abbrev Message := List (String × String)

/-- `message[fieldName]` in a JSON list, where a missing field is a null. -/
def Message.text (message : Message) (fieldName : String) : String :=
  (message.lookup fieldName).getD "null"

/-- The keys of `getIdempotencyKey`, a JSON list, and `getConcurrencySlotKey`,
a JSON object. Two of them have the same text when they agree in every part. -/
structure ClaimKey where
  handlerName : String
  values : List String
  slot : Option Nat := none
deriving DecidableEq, Repr

def getIdempotencyKey (handlerName : String) (message : Message) (keyFields : List String) :
    ClaimKey :=
  { handlerName, values := keyFields.map message.text }

def getConcurrencySlotKey (handlerName : String) (message : Message) (keyFields : List String)
    (slot : Nat) : ClaimKey :=
  { handlerName, values := keyFields.map message.text, slot := some slot }

structure ClaimsOptions where
  handlerName : String
  key : List String
  lease : Nat
  ttl : Nat
deriving DecidableEq, Repr

structure SlotsOptions where
  handlerName : String
  key : List String
  max : Nat
  lease : Nat
deriving DecidableEq, Repr

/-- `__EZ4_IDEMPOTENCY` and `__EZ4_KEY_CONCURRENCY`. -/
structure Options where
  idempotency : Option ClaimsOptions := none
  keyConcurrency : Option SlotsOptions := none
deriving DecidableEq, Repr

structure HeldClaim where
  key : ClaimKey
  owner : Uuid
deriving DecidableEq, Repr

inductive ClaimState
  | running
  | done
  | unknown
deriving DecidableEq, Repr

structure SqsRecord where
  messageId : String
  body : String
  messageGroupId : Option String := none
  /-- `ApproximateReceiveCount` -/
  receiveCount : Nat := 1
  /-- The message attributes but the two of a deferred copy. -/
  attributes : List (String × String) := []
  /-- `EZ4.DEFERS`, when it is there and is a number -/
  defers : Option Nat := none
  /-- `EZ4.DEFER_UNTIL`, when it is there and is a finite number -/
  deferUntil : Option Int := none
deriving DecidableEq, Repr

/-- The group a record waits its turn in. An empty id is falsy, so it is none. -/
def SqsRecord.group (record : SqsRecord) : Option String :=
  record.messageGroupId.filter (· ≠ "")

/-! ## Deferred copies -/

def maxDeferCount : Nat := 20

def maxDeferDelay : Int := 900

def getEpochSeconds (now : Int) : Int := now / 1000

/-- `getRandomInteger(5, 30)` -/
def getSlotWaitDelay (draw : Nat) : Rat := (5 + draw % 26 : Nat)

/-- The message of a `SendMessageCommand`. -/
structure Copy where
  body : String
  delaySeconds : Int
  attributes : List (String × String)
  defers : Nat
  deferUntil : Option Int
deriving DecidableEq, Repr

/-- What a call of `retry` or `defer` is answered. -/
inductive CallAnswer
  | fulfilled
  /-- 'The message was already deferred.' -/
  | alreadyDeferred
  /-- 'A message of a FIFO queue can't be deferred.' -/
  | fifoQueue
  /-- 'The message was already handed back.' -/
  | alreadyHandedBack
  /-- 'The message was already deferred 20 times, the most it takes.' -/
  | tooManyDefers
  | requestFailed
deriving DecidableEq, Repr

/-- `sendDeferredCopy`, up to its request. -/
def deferredCopy (record : SqsRecord) (delay : Rat) (counted : Bool) (now : Int) :
    Except CallAnswer Copy :=
  let previousCount := record.defers.getD 0
  let deferCount := if counted then previousCount + 1 else previousCount
  if deferCount > maxDeferCount then .error .tooManyDefers
  else
    let wait := max 0 delay.ceil
    let queueWait := min wait maxDeferDelay
    .ok
      { body := record.body
        delaySeconds := queueWait
        attributes := record.attributes
        defers := deferCount
        deferUntil := if wait > queueWait then some (getEpochSeconds now + wait) else none }

def getDeferWaitLeft (record : SqsRecord) (now : Int) : Int :=
  match record.deferUntil with
  | some deferUntil => deferUntil - getEpochSeconds now
  | none => 0

/-- What the batch learns of a record. -/
structure RecordOutcome where
  handedBack : Bool
  holdsGroup : Bool
deriving DecidableEq, Repr

end Ez4.Queue.Messages

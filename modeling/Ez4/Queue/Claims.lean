import Ez4.Queue.RecordClaims
import Ez4.Library.PartialMap

/-! # The claims table

`takeClaim`, `keepClaim` and `releaseClaim` as the conditional writes they
send, and any number of executions that process records over one table. The
table counts time as `getEpochSeconds` does. -/
namespace Ez4.Queue.Claims
open Ez4.Library Ez4.Queue.Messages Ez4.Queue.ProcessRecord

structure StoredClaim where
  state : ClaimState
  owner : Uuid
  expiration : Int
deriving DecidableEq, Repr

abbrev ClaimsTable := ClaimKey → Option StoredClaim

/-! ## The conditional writes -/

/-- `attribute_not_exists(#key) OR #expiration <= :now` -/
def takeClaim (table : ClaimsTable) (key : ClaimKey) (lease : Nat) (owner : Uuid) (now : Int) :
    ClaimsTable × Answer :=
  let taken := (put table key (some ⟨.running, owner, now + lease⟩), .claimed owner)
  match table key with
  | none => taken
  | some item => if item.expiration ≤ now then taken else (table, .refused item.state)

/-- `#owner = :owner`, setting the state and the expiration -/
def keepClaim (table : ClaimsTable) (claim : HeldClaim) (state : ClaimState) (ttl : Nat)
    (now : Int) : ClaimsTable × Answer :=
  match table claim.key with
  | none => (table, .rejected false)
  | some item =>
    if item.owner = claim.owner then
      (put table claim.key (some { item with state, expiration := now + ttl }), .fulfilled)
    else (table, .rejected false)

/-- `#owner = :owner`, deleting the item -/
def releaseClaim (table : ClaimsTable) (claim : HeldClaim) : ClaimsTable × Answer :=
  match table claim.key with
  | none => (table, .rejected false)
  | some item =>
    if item.owner = claim.owner then (put table claim.key none, .fulfilled)
    else (table, .rejected false)

/-- A request to the claims table. -/
inductive ClaimRequest
  | take (key : ClaimKey) (lease : Nat)
  | keep (claim : HeldClaim) (state : ClaimState) (ttl : Nat)
  | release (claim : HeldClaim)
deriving DecidableEq, Repr

/-- The table after a request, and its answer. A request that takes a key does
so for a new owner. -/
def ClaimRequest.apply (request : ClaimRequest) (table : ClaimsTable) (owner : Uuid) (now : Int) :
    ClaimsTable × Answer :=
  match request with
  | .take key lease => takeClaim table key lease owner now
  | .keep claim state ttl => keepClaim table claim state ttl now
  | .release claim => releaseClaim table claim

/-- The request a record awaits. -/
def requestOf (x : Execution) (s : RecordState) : Option ClaimRequest :=
  match s.awaiting with
  | .takeClaim message => x.options.idempotency.map fun options =>
    .take (getIdempotencyKey options.handlerName message options.key) options.lease
  | .takeSlot message firstSlot offset => x.options.keyConcurrency.map fun slots =>
    .take (getConcurrencySlotKey slots.handlerName message slots.key
      ((firstSlot + offset) % slots.max)) slots.lease
  | .settleClaim claim true => x.options.idempotency.map fun options =>
    .keep claim .done options.ttl
  | .keepUnknown claim => x.options.idempotency.map fun options =>
    .keep claim .unknown options.ttl
  | .settleClaim claim false | .releaseThenConsume claim | .releaseThenRetry claim
  | .releaseSlot claim _ => some (.release claim)
  | _ => none

/-! ## Executions over one table -/

structure RunningRecord where
  execution : Execution
  state : RecordState
  /-- When the lease it took its key for ends: for statements only. -/
  leaseEnds : Int := 0
  alive : Bool := true
deriving DecidableEq, Repr

structure System where
  /-- `Date.now()` -/
  clock : Int
  table : ClaimsTable := fun _ => none
  records : List RunningRecord := []
  /-- No owner from here on is in use yet. -/
  nextOwner : Uuid := 0

/-- The time the table counts by. -/
def System.now (s : System) : Int := getEpochSeconds s.clock

inductive SystemEvent
  | advance (milliseconds : Nat)
  /-- The table deletes an item some time after it expired. -/
  | expire (key : ClaimKey)
  | start (execution : Execution)
  | die (index : Nat)
  /-- Something happens in a record that is not about the table. -/
  | act (index : Nat) (event : RecordEvent)
  /-- The request a record awaits is applied and answered. When it is lost it
  fails, with the write applied or not. -/
  | request (index : Nat) (lost : Option Bool) (firstSlot slotWait : Nat)
deriving DecidableEq, Repr

/-- An event of a record, with the clock the system has. -/
def atTime (now : Int) : RecordEvent → RecordEvent
  | .answer answer tick => .answer answer { tick with now }
  | .call call _ => .call call now
  | .callEnds index succeeds => .callEnds index succeeds

def isAnswer : RecordEvent → Bool
  | .answer _ _ => true
  | _ => false

namespace System

variable (s : System)

def setRecord (index : Nat) (record : RunningRecord) : System :=
  { s with records := s.records.set index record }

/-- When the lease of a record ends once its request was applied. -/
def leaseEndsAfter (record : RunningRecord) : Int :=
  match record.state.awaiting, record.execution.options.idempotency with
  | .takeClaim _, some options => s.now + options.lease
  | _, _ => record.leaseEnds

/-- What a record does besides its requests to the table. -/
def act (index : Nat) (record : RunningRecord) (event : RecordEvent) : Option System :=
  if isAnswer event && (requestOf record.execution record.state).isSome then none
  else
    (RecordState.step record.execution record.state (atTime s.clock event)).map fun state =>
      s.setRecord index { record with state }

/-- The request of a record is applied and answered, or lost. -/
def request (index : Nat) (record : RunningRecord) (lost : Option Bool) (tick : Tick) :
    Option System :=
  (requestOf record.execution record.state).bind fun request =>
    let applied := request.apply s.table s.nextOwner s.now
    let answer := if lost.isSome then .rejected false else applied.2
    let table := if lost = some false then s.table else applied.1
    (record.state.answer record.execution answer tick).map fun state =>
      { s.setRecord index { record with state, leaseEnds := s.leaseEndsAfter record } with
        table
        nextOwner := s.nextOwner + 1 }

def step : SystemEvent → Option System
  | .advance milliseconds => some { s with clock := s.clock + milliseconds }
  | .expire key =>
    match s.table key with
    | some item => if item.expiration ≤ s.now then some { s with table := put s.table key none }
        else none
    | none => none
  | .start execution =>
    some { s with
      records := s.records ++ [{ execution, state := RecordState.start execution s.clock }] }
  | .die index =>
    (s.records[index]?).map fun record => s.setRecord index { record with alive := false }
  | .act index event =>
    match s.records[index]? with
    | some record => if record.alive then s.act index record event else none
    | none => none
  | .request index lost firstSlot slotWait =>
    match s.records[index]? with
    | some record =>
      if record.alive then s.request index record lost ⟨s.clock, firstSlot, slotWait⟩ else none
    | none => none

end System

/-- Any number of executions over an empty table, from a time on. -/
def system (clock : Int) : Machine System SystemEvent where
  init := { clock }
  step := System.step

/-- The handler of a record runs for a key. -/
def RunningRecord.handles (record : RunningRecord) (key : ClaimKey) : Prop :=
  record.alive = true ∧ record.state.awaiting = .handle ∧
    ∃ claim, record.state.heldClaim = some claim ∧ claim.key = key

end Ez4.Queue.Claims

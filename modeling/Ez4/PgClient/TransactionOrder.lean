import Mathlib.Algebra.GroupWithZero.Nat
import Mathlib.Logic.Function.Basic
import Ez4.PgClient.Transaction

/-! # The order of a transaction's operations

`runInTransactionOrder` (`service/utils/order.ts`) called any number of times,
with the map of promise tails that the calls replace, await and delete. An event
is what goes on between two awaits, so that the order of the events is the order
in which the promises happen to settle. The operations are those of a
`Repertoire`, among them the statements and upserts of `service/table.ts`. -/
namespace Ez4.PgClient.TransactionOrder
open Ez4.Library Ez4.PgClient.Transaction

/-! ## Operations -/

/-- What operations do. `α` are the operations, `ω` what they await when they do,
and `ρ` the answers. They are made with a transaction or without. -/
structure Repertoire (α ω ρ : Type) where
  /-- The first await, if there is any. -/
  first : (inTransaction : Bool) → α → Option ω
  /-- The next one once it is answered. The operation ends without. -/
  next : (inTransaction : Bool) → ω → ρ → Option ω
  /-- Every operation ends: what it has before it grows smaller. -/
  rank : ω → Nat
  rank_next : ∀ {inTransaction : Bool} {awaited next' : ω} {answer : ρ},
    next inTransaction awaited answer = some next' → rank next' < rank awaited

/-! ## Calls -/

inductive Status (ω : Type)
  /-- `await previous` -/
  | waiting
  /-- In the operation, up to its next await. -/
  | running (awaited : ω)
  /-- The operation is settled, and `finally` is still to run. -/
  | settled
  | finished

structure Call (α ω : Type) where
  /-- The transaction, unless its id is missing or empty. -/
  transaction : Option String
  operation : α
  /-- The call whose `tail` is the `previous` of this one. -/
  previous : Option Nat
  status : Status ω
  /-- The `tail` of a call with a `previous` was resolved. -/
  passed : Bool := false

/-- What an operation did. -/
inductive Happening (ω ρ : Type)
  | started
  | sent (awaited : ω)
  | answered (answer : ρ)
  | ended

structure OrderState (α ω ρ : Type) where
  /-- Every call that was made, in order. -/
  calls : List (Call α ω) := []
  /-- `TRANSACTION_QUEUES`, with the call whose tail it has. -/
  queues : String → Option Nat := fun _ => none
  /-- What the operations did, by the number of the call. -/
  log : List (Nat × Happening ω ρ) := []

inductive OrderEvent (α ρ : Type)
  /-- `runInTransactionOrder(transactionId, operation)` -/
  | call (transactionId : Option String) (operation : α)
  /-- `await previous` is over. -/
  | start (c : Nat)
  /-- What the operation awaits is answered. -/
  | answer (c : Nat) (answer : ρ)
  /-- `finally` -/
  | finish (c : Nat)
  /-- The tail of a call with a `previous` resolves. -/
  | pass (c : Nat)

/-- The call that an event goes on with. -/
def OrderEvent.goesOn {α ρ : Type} : OrderEvent α ρ → Option Nat
  | .call _ _ => none
  | .start c | .answer c _ | .finish c | .pass c => some c

variable {α ω ρ : Type}

/-- The promise `finished` is resolved. -/
def Call.isFinished (call : Call α ω) : Bool :=
  match call.status with
  | .finished => true
  | _ => false

/-- The promise `tail` is resolved. -/
def Call.isTailResolved (call : Call α ω) : Bool :=
  if call.previous.isNone then call.isFinished else call.passed

/-- The operation goes on up to its next await, or is settled. Without a
transaction nothing comes after it. -/
def Call.goOn (call : Call α ω) (awaited : Option ω) : Call α ω :=
  { call with status := match awaited with
      | some awaited => .running awaited
      | none => if call.transaction.isSome then .settled else .finished }

def Happening.upTo (awaited : Option ω) : Happening ω ρ :=
  match awaited with
  | some awaited => .sent awaited
  | none => .ended

namespace OrderState

variable (s : OrderState α ω ρ)

/-- Another state of a call. -/
def setCall (c : Nat) (call : Call α ω) : OrderState α ω ρ :=
  { s with calls := s.calls.set c call }

def record (c : Nat) (happenings : List (Happening ω ρ)) : OrderState α ω ρ :=
  { s with log := s.log ++ happenings.map (c, ·) }

/-- What the operation of a call did comes to its next await, if there is any. -/
def goOn (c : Nat) (call : Call α ω) (before : Happening ω ρ) (awaited : Option ω) :
    OrderState α ω ρ :=
  (s.setCall c (call.goOn awaited)).record c [before, .upTo awaited]

/-- `await previous` goes on. -/
def isPreviousResolved (call : Call α ω) : Bool :=
  match call.previous with
  | none => true
  | some p => match s.calls[p]? with
    | some previous => previous.isTailResolved
    | none => false

variable (R : Repertoire α ω ρ)

def step : OrderEvent α ρ → Option (OrderState α ω ρ)
  | .call transactionId operation =>
    let c := s.calls.length
    let call : Call α ω :=
      { transaction := transactionId.filter (· ≠ ""), operation, previous := none, status := .waiting }
    match call.transaction with
    | none =>
      let awaited := R.first false operation
      some ({ s with calls := s.calls ++ [call.goOn awaited] }.record c [.started, .upTo awaited])
    | some id =>
      some { s with
        calls := s.calls ++ [{ call with previous := s.queues id }]
        queues := Function.update s.queues id (some c) }
  | .start c => do
    let call ← s.calls[c]?
    match call.status with
    | .waiting =>
      if s.isPreviousResolved call then
        some (s.goOn c call .started (R.first call.transaction.isSome call.operation))
      else none
    | _ => none
  | .answer c answer => do
    let call ← s.calls[c]?
    match call.status with
    | .running awaited =>
      some (s.goOn c call (.answered answer) (R.next call.transaction.isSome awaited answer))
    | _ => none
  | .finish c => do
    let call ← s.calls[c]?
    match call.status, call.transaction with
    | .settled, some id =>
      -- the tail of a later call stays
      some { s.setCall c { call with status := .finished } with
        queues := if s.queues id = some c then Function.update s.queues id none else s.queues }
    | _, _ => none
  | .pass c => do
    let call ← s.calls[c]?
    if call.isFinished ∧ call.previous.isSome ∧ ¬call.passed ∧ s.isPreviousResolved call then
      some (s.setCall c { call with passed := true })
    else none

end OrderState

/-- The calls of a process, one after another or at once. -/
def transactionOrder (R : Repertoire α ω ρ) : Machine (OrderState α ω ρ) (OrderEvent α ρ) where
  init := {}
  step s := s.step R

/-! ## Statements and upserts -/

/-- `savepoint` sends nothing without a transaction, and its operation goes on. -/
def onward (inTransaction : Bool) : Work → Option Work
  | .statements statement rest => some (.statements statement rest)
  | .upsert statement step =>
    if inTransaction then some (.upsert statement step)
    else match step with
      | .savepoint => some (.upsert statement (.statement 1))
      | .statement attempt => some (.upsert statement (.statement attempt))
      | .release _ => none
      | .rollbackTo attempt =>
        if attempt > 1 then none else some (.upsert statement (.statement (attempt + 1)))
      | .giveUp => none

/-- How much an operation may still await. -/
def workRank : Work → Nat
  | .statements _ rest => rest.length
  | .upsert _ step =>
    match step with
    | .savepoint => 8
    | .statement attempt => 3 * (2 - attempt) + 4
    | .release attempt => 3 * (2 - attempt) + 3
    | .rollbackTo attempt => 3 * (2 - attempt) + 2
    | .giveUp => 1

theorem rank_onward {inTransaction : Bool} {work next : Work} (h : onward inTransaction work = some next) :
    workRank next ≤ workRank work := by
  cases work with
  | statements statement rest => exact Option.some.inj h ▸ Nat.le_refl _
  | upsert statement step =>
    cases inTransaction with
    | true => exact Option.some.inj h ▸ Nat.le_refl _
    | false =>
      cases step with
      | savepoint => exact Option.some.inj h ▸ Nat.le_add_right 7 1
      | statement attempt => exact Option.some.inj h ▸ Nat.le_refl _
      | release | giveUp => cases h
      | rollbackTo attempt =>
        simp only [onward, Bool.false_eq_true, if_false] at h
        split at h
        · cases h
        · obtain rfl := Option.some.inj h
          simp only [workRank]
          omega

theorem rank_after {work next : Work} {reply : Reply Failure} (h : work.after reply = some next) :
    workRank next < workRank work := by
  cases work with
  | statements statement rest =>
    cases rest with
    | nil => cases reply <;> cases h
    | cons second rest =>
      cases reply with
      | ok => exact Option.some.inj h ▸ Nat.lt_succ_self _
      | failed | refused | lost => cases h
  | upsert statement step =>
    cases step with
    | savepoint =>
      cases reply with
      | ok => exact Option.some.inj h ▸ (by decide : 7 < 8)
      | failed | refused | lost => cases h
    | statement attempt =>
      rcases reply with _ | ⟨_ | _⟩ | _ | _ <;> cases h <;>
        (simp only [workRank]; omega)
    | release attempt =>
      rcases reply with _ | ⟨_ | _⟩ | _ | _ <;> cases h
      simp only [workRank]
      omega
    | rollbackTo attempt =>
      cases reply with
      | failed | refused | lost => cases h
      | ok =>
        simp only [Work.after] at h
        split at h
        · obtain rfl := Option.some.inj h
          simp only [workRank]
          omega
        · obtain rfl := Option.some.inj h
          simp only [workRank]
          omega
    | giveUp => cases reply <;> cases h

/-- `executeStatement`, `executeStatements` and the turn of an upsert. A list
without a statement sends nothing. -/
def statements : Repertoire (Option Work) Work (Reply Failure) where
  first inTransaction operation := operation.bind (onward inTransaction)
  next inTransaction work reply := (work.after reply).bind (onward inTransaction)
  rank := workRank
  rank_next h := by
    obtain ⟨work, hafter, honward⟩ := Option.bind_eq_some_iff.mp h
    exact Nat.lt_of_le_of_lt (rank_onward honward) (rank_after hafter)

/-- `sendUpsertStatement` -/
def sendUpsertStatement (statement : Statement) : Option Work := some (.upsert statement .savepoint)

end Ez4.PgClient.TransactionOrder

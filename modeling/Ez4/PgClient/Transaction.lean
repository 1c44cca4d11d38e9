import Ez4.Library.Machine
import Ez4.Library.Session

/-! # A transaction of the client

`executeInteractiveTransaction` (`client.ts`) over the connection it begins
its transaction on: the operation and the calls on its client choose when a
turn of `runInTransactionOrder` is taken and when the operation ends, the
database when and how each query is answered. Statements are told apart by a
number, and are none of the commands that begin or end a transaction. -/
namespace Ez4.PgClient.Transaction
open Ez4.Library

abbrev Statement := Nat

/-- The errors `sendUpsertStatement` tells apart. -/
inductive Failure
  | duplicateUniqueKey
  | other
deriving DecidableEq, Repr

/-- What `sendUpsertStatement` awaits. -/
inductive UpsertStep
  | savepoint
  | statement (attempt : Nat)
  | release (attempt : Nat)
  | rollbackTo (attempt : Nat)
  /-- `RELEASE SAVEPOINT` of an upsert that failed twice -/
  | giveUp
deriving DecidableEq, Repr

/-- The operation of a turn, from the statement it sends now: `executeStatement`
or `executeStatements`, or an upsert. -/
inductive Work
  | statements (statement : Statement) (rest : List Statement)
  | upsert (statement : Statement) (step : UpsertStep)
deriving DecidableEq, Repr

/-- The query of the statement. -/
def Work.query : Work → Command Statement
  | .statements statement _ => .run statement
  | .upsert _ .savepoint => .savepoint
  | .upsert statement (.statement _) => .run statement
  | .upsert _ (.release _) => .release
  | .upsert _ (.rollbackTo _) => .rollbackTo
  | .upsert _ .giveUp => .release

/-- What is left of the operation once its query is answered; none when it ends. -/
def Work.after (reply : Reply Failure) : Work → Option Work
  | .statements _ rest =>
    match reply, rest with
    | .ok, statement :: rest => some (.statements statement rest)
    | _, _ => none
  | .upsert statement step =>
    match step, reply with
    | .savepoint, .ok => some (.upsert statement (.statement 1))
    | .statement attempt, .ok => some (.upsert statement (.release attempt))
    | .statement attempt, .failed .duplicateUniqueKey =>
      some (.upsert statement (.rollbackTo attempt))
    | .release attempt, .failed .duplicateUniqueKey =>
      some (.upsert statement (.rollbackTo attempt))
    | .rollbackTo attempt, .ok =>
      if attempt > 1 then some (.upsert statement .giveUp)
      else some (.upsert statement (.statement (attempt + 1)))
    | _, _ => none

/-- A turn that didn't finish. With `setting`, its query is the one that
`sendDataApiStatement` sends before that of the statement. -/
inductive Turn
  /-- `await previous` -/
  | waiting (work : Option Work)
  | awaiting (work : Work) (setting : Bool)
  /-- The query was answered, and what comes after the await didn't run yet. -/
  | answered (work : Work) (setting : Bool) (reply : Reply Failure)
deriving DecidableEq, Repr

inductive Phase
  | beginning
  | running
  /-- `COMMIT` was sent, or `ROLLBACK` when the operation threw. -/
  | ending (threw : Bool)
  | ended (threw : Bool)
  | notBegun
deriving DecidableEq, Repr

structure TransactionState where
  phase : Phase := .beginning
  /-- `ALL_TRANSACTIONS` has the transaction. -/
  registered : Bool := false
  /-- The connection was given back to the pool. -/
  released : Bool := false
  /-- `TRANSACTION_QUEUES` has the tail of these turns, in order. -/
  turns : List Turn := []
  session : Session Statement := {}
  /-- The queries of the connection that aren't answered yet. -/
  pending : List (Command Statement) := []
  /-- Every query that was sent: for statements only. -/
  sent : List (Command Statement) := []
deriving DecidableEq, Repr

inductive TransactionEvent
  /-- The database answers the oldest query. -/
  | answer (verdict : Verdict Failure)
  /-- A call on the operation's client queues a turn. -/
  | takeTurn (work : Option Work)
  /-- The first turn runs, up to its first query. -/
  | beginTurn
  /-- The running turn goes on after an answer. -/
  | resume
  | endOperation (threw : Bool)
deriving DecidableEq, Repr

namespace TransactionState

variable (dataApi : Bool) (s : TransactionState)

/-- `client.query` -/
def send (query : Command Statement) : TransactionState :=
  { s with pending := s.pending ++ [query], sent := s.sent ++ [query] }

/-- `executeStatement`, up to its first query. A transaction that isn't found
fails the statement, and with it the operation of the turn. -/
def startStatement (work : Work) (rest : List Turn) : TransactionState :=
  if s.registered then
    { s.send (if dataApi then .set else work.query) with turns := .awaiting work dataApi :: rest }
  else { s with turns := rest }

/-- `finish()`, or the next statement of the turn. -/
def goOn (work : Option Work) (rest : List Turn) : TransactionState :=
  match work with
  | none => { s with turns := rest }
  | some work => s.startStatement dataApi work rest

/-- The setting was made or refused, an aborted transaction still running the
statement, whose connection was found before. -/
def resumeSetting (work : Work) (reply : Reply Failure) (rest : List Turn) : TransactionState :=
  match reply with
  | .ok | .refused => { s.send work.query with turns := .awaiting work false :: rest }
  | .failed _ | .lost => { s with turns := rest }

/-- The answer to the query of the running turn. -/
def answerTurn (reply : Reply Failure) : List Turn → List Turn
  | .awaiting work setting :: rest => .answered work setting reply :: rest
  | turns => turns

/-- A query was answered: that of the client's own, or of the running turn. -/
def answered (query : Command Statement) (reply : Reply Failure) : TransactionState :=
  match s.phase, query with
  | .beginning, .begin =>
    if reply = .ok then { s with phase := .running, registered := true }
    else { s with phase := .notBegun, released := true }
  | .ending threw, .commit | .ending threw, .rollback =>
    { s with phase := .ended threw, registered := false, released := true }
  | _, _ => { s with turns := answerTurn reply s.turns }

/-- The operation has its client. -/
def hasClient : Bool :=
  match s.phase with
  | .beginning | .notBegun => false
  | _ => true

def step : TransactionEvent → Option TransactionState
  | .answer verdict =>
    match s.pending with
    | [] => none
    | query :: pending =>
      let (session, reply) := s.session.run query verdict
      some ({ s with session, pending }.answered query reply)
  | .takeTurn work =>
    if s.hasClient then some { s with turns := s.turns ++ [.waiting work] } else none
  | .beginTurn =>
    match s.turns with
    | .waiting work :: rest => some (s.goOn dataApi work rest)
    | _ => none
  | .resume =>
    match s.turns with
    | .answered work true reply :: rest => some (s.resumeSetting work reply rest)
    | .answered work false reply :: rest => some (s.goOn dataApi (work.after reply) rest)
    | _ => none
  | .endOperation threw =>
    if s.phase = .running then
      some { s.send (if threw then .rollback else .commit) with phase := .ending threw }
    else none

end TransactionState

/-- `transaction()`, from its `BEGIN` on. -/
def transaction (dataApi : Bool) : Machine TransactionState TransactionEvent where
  init := TransactionState.send {} .begin
  step := TransactionState.step dataApi

end Ez4.PgClient.Transaction

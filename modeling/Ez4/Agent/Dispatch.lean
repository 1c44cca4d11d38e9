import Ez4.Library.Machine
import Ez4.Library.PartialMap

/-! # Results of an agent invocation

`Client.invoke` (`client.ts`), the writes of a task's result (`runtime/main.ts`)
and the dispatcher (`dispatch/handler.ts`) over one bucket: any number of each,
in any order, a request at a time. -/
namespace Ez4.Agent.Dispatch
open Ez4.Library

variable {Data : Type}

/-- The agent and the id that the keys of an invocation are made of. -/
structure InvocationKey where
  agent : String
  id : String
deriving DecidableEq

/-- `AgentResultStatus` -/
inductive Status
  | succeeded
  | failed
  | timedOut
deriving DecidableEq

/-- `AgentErrorCode` -/
inductive ErrorCode
  | taskStopped
  | timeout
  | hookError
  | providerError
  | invalidInput
  | invalidOutput
deriving DecidableEq

structure Result (Data : Type) where
  key : InvocationKey
  status : Status
  output : Option Data
  error : Option (ErrorCode × String)
  correlation : Option String
  finishedAt : Nat
deriving DecidableEq

/-- The object under `invocations/`. -/
structure Invocation (Data : Type) where
  input : Data
  correlation : Option String
  replyTo : Option String
  deadline : Option Nat
  cluster : Option String
  taskArn : Option String
deriving DecidableEq

/-- What an ECS event tells about a task that stopped. -/
structure StopReason where
  stoppedReason : Option String
  exitCode : Option Int
deriving DecidableEq

/-! ## The client -/

/-- What `RunTaskCommand` answers. -/
inductive TaskStart
  | started (taskArn : String)
  | failures (reasons : List String)
deriving DecidableEq

/-- What a call of `invoke` sends next. -/
inductive ClientPhase (Data : Type)
  | puttingInvocation (invocation : Invocation Data) (given : Bool)
  | readingInvocation (invocation : Invocation Data)
  | runningTask (invocation : Invocation Data)
  | writingFailed (invocation : Invocation Data) (result : Result Data)
  | closingInvocation (invocation : Invocation Data)
  | recordingTask (invocation : Invocation Data)
  | ended
deriving DecidableEq

structure ClientCall (Data : Type) where
  key : InvocationKey
  phase : ClientPhase Data
deriving DecidableEq

/-- `Object.assign(invocationPayload, envelope)` -/
def Invocation.assign (payload envelope : Invocation Data) : Invocation Data where
  input := envelope.input
  correlation := envelope.correlation.or payload.correlation
  replyTo := envelope.replyTo.or payload.replyTo
  deadline := envelope.deadline.or payload.deadline
  cluster := envelope.cluster.or payload.cluster
  taskArn := envelope.taskArn.or payload.taskArn

/-- The result of a task that failed to start. -/
def failedStart (key : InvocationKey) (invocation : Invocation Data) (reasons : List String)
    (now : Nat) : Result Data where
  key := key
  status := .failed
  output := none
  error := some (.taskStopped,
    if reasons.isEmpty then "Task failed to start" else ", ".intercalate reasons)
  correlation := invocation.correlation
  finishedAt := now

/-! ## The dispatcher -/

/-- The result of a task that stopped without one. -/
def stoppedResult (key : InvocationKey) (invocation : Invocation Data) (reason : StopReason)
    (now : Nat) : Result Data where
  key := key
  status := .failed
  output := none
  error := some (.taskStopped,
    reason.stoppedReason.getD "Task stopped unexpectedly" ++
      " (exit code: " ++ toString (reason.exitCode.getD (-1)) ++ ")")
  correlation := invocation.correlation
  finishedAt := now

/-- The result of a task that is past its deadline. -/
def timedOutResult (key : InvocationKey) (invocation : Invocation Data) (now : Nat) :
    Result Data where
  key := key
  status := .timedOut
  output := none
  error := some (.timeout, "Agent invocation exceeded its deadline")
  correlation := invocation.correlation
  finishedAt := now

/-- What an execution of the dispatcher sends next. The last three are those of
`dispatchResult`. -/
inductive Phase (Data : Type)
  | stopInvocation (key : InvocationKey) (reason : StopReason)
  | stopResult (key : InvocationKey) (invocation : Invocation Data) (reason : StopReason)
  | sweepInvocation (key : InvocationKey)
  | sweepMarker (key : InvocationKey) (invocation : Invocation Data)
  | sweepResult (key : InvocationKey) (invocation : Invocation Data)
  | sweepStopTask (key : InvocationKey) (invocation : Invocation Data)
  | writeResult (key : InvocationKey) (invocation : Invocation Data) (result : Result Data)
  | readMarker (key : InvocationKey) (invocation : Invocation Data) (result : Result Data)
  | send (key : InvocationKey) (invocation : Invocation Data) (queue : String)
    (result : Result Data)
  | mark (key : InvocationKey) (invocation : Invocation Data)
  | done
deriving DecidableEq

/-- An execution, with the keys that its sweep is yet to look at. -/
structure Dispatcher (Data : Type) where
  phase : Phase Data
  remaining : List InvocationKey
  /-- The time a sweep started at. -/
  now : Nat
deriving DecidableEq

/-- The phase of the next key, if there is one. -/
def Dispatcher.next (d : Dispatcher Data) : Dispatcher Data :=
  match d.remaining with
  | [] => { d with phase := .done }
  | key :: rest => { d with phase := .sweepInvocation key, remaining := rest }

/-! ## The system -/

structure Task where
  running : Bool
  wrote : Bool
deriving DecidableEq

/-- What happened, for statements only. -/
inductive Entry (Data : Type)
  | stored (key : InvocationKey) (result : Result Data)
  | foundMarker (dispatcher : Nat) (key : InvocationKey)
  | sent (dispatcher : Nat) (key : InvocationKey) (queue : String) (result : Result Data)
  | marked (dispatcher : Nat) (key : InvocationKey) (replyTo : Option String)
deriving DecidableEq

structure System (Data : Type) where
  invocations : InvocationKey → Option (Invocation Data) := fun _ => none
  results : InvocationKey → Option (Result Data) := fun _ => none
  markers : InvocationKey → Option Nat := fun _ => none
  tasks : InvocationKey → Option Task := fun _ => none
  clients : Nat → Option (ClientCall Data) := fun _ => none
  dispatchers : Nat → Option (Dispatcher Data) := fun _ => none
  /-- The newest first. -/
  log : List (Entry Data) := []

inductive SystemEvent (Data : Type)
  /-- `invoke` is called, with an id that was given or a new one. -/
  | call (client : Nat) (key : InvocationKey) (invocation : Invocation Data) (given : Bool)
  | client (client : Nat) (start : TaskStart) (now : Nat)
  | taskWrites (key : InvocationKey) (result : Result Data)
  | taskStops (key : InvocationKey)
  | stopEvent (dispatcher : Nat) (key : InvocationKey) (reason : StopReason)
  /-- A sweep listed the invocations. -/
  | sweep (dispatcher : Nat) (keys : List InvocationKey) (now : Nat)
  | dispatch (dispatcher : Nat) (now : Nat)
  /-- The request of a dispatcher or of a client fails, applied or not. -/
  | dispatchFails (dispatcher : Nat) (now : Nat) (applied : Bool)
  | clientFails (client : Nat) (applied : Bool)

namespace System

variable (s : System Data)

def storeResult (key : InvocationKey) (result : Result Data) : System Data :=
  { s with results := put s.results key (some result), log := .stored key result :: s.log }

def setDispatcher (e : Nat) (d : Dispatcher Data) : System Data :=
  { s with dispatchers := put s.dispatchers e (some d) }

def setClient (e : Nat) (c : ClientCall Data) (phase : ClientPhase Data) : System Data :=
  { s with clients := put s.clients e (some { c with phase }) }

def putInvocation (key : InvocationKey) (invocation : Invocation Data) : System Data :=
  { s with invocations := put s.invocations key (some invocation) }

/-- A task is started once for its client token. -/
def startTask (key : InvocationKey) : System Data :=
  if (s.tasks key).isSome then s
  else { s with tasks := put s.tasks key (some ⟨true, false⟩) }

def sendResult (e : Nat) (key : InvocationKey) (queue : String) (result : Result Data) :
    System Data :=
  { s with log := .sent e key queue result :: s.log }

/-- `If-None-Match: *` -/
def markDispatched (e : Nat) (key : InvocationKey) (replyTo : Option String) (now : Nat) :
    System Data :=
  if (s.markers key).isSome then s
  else { s with markers := put s.markers key (some now), log := .marked e key replyTo :: s.log }

def foundMarker (e : Nat) (key : InvocationKey) : System Data :=
  { s with log := .foundMarker e key :: s.log }

/-- The request of a call of `invoke`, and what it sends next. -/
def clientStep (e : Nat) (c : ClientCall Data) (start : TaskStart) (now : Nat) :
    Option (System Data) :=
  match c.phase with
  | .puttingInvocation invocation given =>
    if given && (s.invocations c.key).isSome then
      some (s.setClient e c (.readingInvocation invocation))
    else some ((s.putInvocation c.key invocation).setClient e c (.runningTask invocation))
  | .readingInvocation invocation =>
    match s.invocations c.key with
    | none => some (s.setClient e c .ended)
    | some envelope =>
      if envelope.taskArn.isSome then some (s.setClient e c .ended)
      else some (s.setClient e c (.runningTask (invocation.assign envelope)))
  | .runningTask invocation =>
    match start with
    | .started taskArn => some ((s.startTask c.key).setClient e c
        (.recordingTask { invocation with taskArn := some taskArn }))
    | .failures reasons => some (s.setClient e c
        (.writingFailed invocation (failedStart c.key invocation reasons now)))
  | .writingFailed invocation result =>
    some ((s.storeResult c.key result).setClient e c
      (.closingInvocation { invocation with deadline := some now }))
  | .closingInvocation invocation | .recordingTask invocation =>
    some ((s.putInvocation c.key invocation).setClient e c .ended)
  | .ended => none

/-- The request of a dispatcher, and what it sends next. -/
def dispatchStep (e : Nat) (d : Dispatcher Data) (now : Nat) : Option (System Data) :=
  match d.phase with
  | .stopInvocation key reason =>
    match s.invocations key with
    | none => some (s.setDispatcher e d.next)
    | some invocation => some (s.setDispatcher e { d with phase := .stopResult key invocation reason })
  | .stopResult key invocation reason =>
    match s.results key with
    | some result =>
      some (s.setDispatcher e { d with phase := .readMarker key invocation result })
    | none => some (s.setDispatcher e
        { d with phase := .writeResult key invocation (stoppedResult key invocation reason now) })
  | .sweepInvocation key =>
    match s.invocations key with
    | none => some (s.setDispatcher e d.next)
    | some invocation =>
      match invocation.deadline with
      | none => some (s.setDispatcher e d.next)
      | some deadline =>
        if deadline > d.now then some (s.setDispatcher e d.next)
        else some (s.setDispatcher e { d with phase := .sweepMarker key invocation })
  | .sweepMarker key invocation =>
    if (s.markers key).isSome then some ((s.foundMarker e key).setDispatcher e d.next)
    else some (s.setDispatcher e { d with phase := .sweepResult key invocation })
  | .sweepResult key invocation =>
    match s.results key with
    | some result =>
      some (s.setDispatcher e { d with phase := .readMarker key invocation result })
    | none =>
      if invocation.taskArn.isSome && invocation.cluster.isSome then
        some (s.setDispatcher e { d with phase := .sweepStopTask key invocation })
      else some (s.setDispatcher e
        { d with phase := .writeResult key invocation (timedOutResult key invocation d.now) })
  | .sweepStopTask key invocation => some (s.setDispatcher e
      { d with phase := .writeResult key invocation (timedOutResult key invocation d.now) })
  | .writeResult key invocation result =>
    some ((s.storeResult key result).setDispatcher e
      { d with phase := .readMarker key invocation result })
  | .readMarker key invocation result =>
    if (s.markers key).isSome then some ((s.foundMarker e key).setDispatcher e d.next)
    else
      match invocation.replyTo with
      | some queue => some (s.setDispatcher e { d with phase := .send key invocation queue result })
      | none => some (s.setDispatcher e { d with phase := .mark key invocation })
  | .send key invocation queue result =>
    some ((s.sendResult e key queue result).setDispatcher e { d with phase := .mark key invocation })
  | .mark key invocation =>
    some ((s.markDispatched e key invocation.replyTo now).setDispatcher e d.next)
  | .done => none

/-- What a dispatcher that throws leaves, its request applied or not. -/
def dispatchFails (e : Nat) (d : Dispatcher Data) (now : Nat) (applied : Bool) :
    Option (System Data) :=
  let stopped := { d with phase := .done }
  if applied then
    match d.phase with
    | .writeResult key _ result => some ((s.storeResult key result).setDispatcher e stopped)
    | .send key _ queue result => some ((s.sendResult e key queue result).setDispatcher e stopped)
    | .mark key invocation =>
      some ((s.markDispatched e key invocation.replyTo now).setDispatcher e stopped)
    | _ => some (s.setDispatcher e stopped)
  else some (s.setDispatcher e stopped)

def clientFails (e : Nat) (c : ClientCall Data) (applied : Bool) : Option (System Data) :=
  if applied then
    match c.phase with
    | .puttingInvocation invocation given =>
      if given && (s.invocations c.key).isSome then some (s.setClient e c .ended)
      else some ((s.putInvocation c.key invocation).setClient e c .ended)
    | .runningTask _ => some ((s.startTask c.key).setClient e c .ended)
    | .writingFailed _ result => some ((s.storeResult c.key result).setClient e c .ended)
    | .closingInvocation invocation | .recordingTask invocation =>
      some ((s.putInvocation c.key invocation).setClient e c .ended)
    | _ => some (s.setClient e c .ended)
  else some (s.setClient e c .ended)

def step : SystemEvent Data → Option (System Data)
  | .call e key invocation given =>
    if (s.clients e).isSome || (!given && (s.invocations key).isSome) then none
    else some { s with
      clients := put s.clients e (some ⟨key, .puttingInvocation invocation given⟩) }
  | .client e start now => (s.clients e).bind fun c => s.clientStep e c start now
  | .taskWrites key result =>
    match s.tasks key with
    | some task =>
      if task.running && !task.wrote then
        some ({ s with tasks := put s.tasks key (some { task with wrote := true }) }.storeResult
          key result)
      else none
    | none => none
  | .taskStops key =>
    match s.tasks key with
    | some task => some { s with tasks := put s.tasks key (some { task with running := false }) }
    | none => none
  | .stopEvent e key reason =>
    if (s.dispatchers e).isSome then none
    else some (s.setDispatcher e { phase := .stopInvocation key reason, remaining := [], now := 0 })
  | .sweep e keys now =>
    if (s.dispatchers e).isSome || !decide keys.Nodup then none
    else some (s.setDispatcher e
      (Dispatcher.next { phase := .done, remaining := keys, now := now }))
  | .dispatch e now => (s.dispatchers e).bind fun d => s.dispatchStep e d now
  | .dispatchFails e now applied => (s.dispatchers e).bind fun d => s.dispatchFails e d now applied
  | .clientFails e applied => (s.clients e).bind fun c => s.clientFails e c applied

end System

def machine (Data : Type) : Machine (System Data) (SystemEvent Data) where
  init := {}
  step s event := s.step event

end Ez4.Agent.Dispatch

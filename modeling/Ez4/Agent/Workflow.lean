import Ez4.Library.Machine
import Ez4.Library.PartialMap

/-! # Workflow steps

`runWorkflowStep` (`workflow/runtime.ts`) over the store of `createWorkflowStore`
(`workflow/handler.ts`), and any number of executions of it for the messages of
a queue. `unknown` values are a parameter. `newId` counts up, and gives no id
that is the key of a start. -/
namespace Ez4.Agent.Workflow
open Ez4.Library

variable {Data : Type}

/-- What a run was brought to its state by: `'start'`, or the id of a result. -/
inductive Key
  | start
  | result (id : Nat)
deriving DecidableEq

structure WaitingFor (Data : Type) where
  agent : String
  id : Nat
  input : Data
  workspace : Option Data
deriving DecidableEq

/-- `WorkflowRunStatus` -/
inductive Status
  | running
  | completed
  | failed
deriving DecidableEq

/-- The reason of a run: the one that the handler gave, or `'max_steps'`. -/
inductive Reason (Data : Type)
  | given (reason : Data)
  | maxSteps
deriving DecidableEq

/-- `Agent.WorkflowRun`. Times are as the clock gave them. -/
structure WorkflowRun (Data : Type) where
  runId : String
  status : Status
  step : Nat
  state : Data
  outcome : Option Data
  reason : Option (Reason Data)
  trigger : Key
  waitingFor : Option (WaitingFor Data)
  createdAt : Nat
  updatedAt : Nat
deriving DecidableEq

/-! ## Messages -/

/-- What `JSON.parse` makes of the correlation of a result. -/
inductive Correlation
  | missing
  | unparsable
  | notAnObject
  | fields (workflow : Option String) (runId : Option String)
deriving DecidableEq

structure AgentResult (Data : Type) where
  id : Nat
  agent : String
  correlation : Correlation
  /-- Its status, output and the rest, as the handler gets them. -/
  payload : Data
deriving DecidableEq

/-- `WorkflowMessage` -/
inductive Message (Data : Type)
  | start (runId : String) (input : Data)
  | result (result : AgentResult Data)
deriving DecidableEq

inductive Event (Data : Type)
  | start (input : Data)
  | result (agent : String) (result : AgentResult Data)
deriving DecidableEq

/-- The run and the key a message is for; none when it is ignored before the
store is read. -/
def target (workflow : String) : Message Data → Option (String × Key)
  | .start runId _ => some (runId, .start)
  | .result reply =>
    match reply.correlation with
    | .fields (some name) (some runId) =>
      if name = workflow ∧ runId ≠ "" then some (runId, .result reply.id) else none
    | _ => none

def Message.event : Message Data → Event Data
  | .start _ input => .start input
  | .result reply => .result reply.agent reply

/-! ## One step of a workflow -/

/-- `Agent.WorkflowRequest` -/
structure Request (Data : Type) where
  runId : String
  step : Nat
  state : Option Data
  event : Event Data
deriving DecidableEq

inductive Next (Data : Type)
  | complete (outcome : Data) (reason : Option Data)
  | invoke (agent : String) (input : Data) (workspace : Option Data)
deriving DecidableEq

/-- `Agent.WorkflowStep` -/
structure Step (Data : Type) where
  state : Data
  next : Next Data
deriving DecidableEq

/-- What the rules make of a message and the run that is stored. -/
inductive Decision (Data : Type)
  | ignored
  | reinvoke (waiting : WaitingFor Data) (step : Nat)
  | handle (request : Request Data)
deriving DecidableEq

def WorkflowRun.finished (run : WorkflowRun Data) : Bool :=
  run.status = .completed || run.status = .failed

/-- The result of a message. -/
def Message.result? : Message Data → Option (AgentResult Data)
  | .start _ _ => none
  | .result reply => some reply

/-- The event of a request names the agent by the key it was invoked with. -/
def requestEvent (event : Event Data) (waiting : Option (WaitingFor Data)) : Event Data :=
  match event, waiting with
  | .result _ result, some waiting => .result waiting.agent result
  | event, _ => event

/-- The run as the key makes it invoke again. -/
def reinvocation (run : WorkflowRun Data) (key : Key) : Option (WaitingFor Data) :=
  if run.trigger = key then run.waitingFor else none

/-- The rules 1 to 6. -/
def decideStep (message : Message Data) (runId : String) (key : Key)
    (stored : Option (WorkflowRun Data)) : Decision Data :=
  match stored with
  | none =>
    -- A result for a run that doesn't exist is ignored.
    if message.result?.isSome then .ignored
    else .handle { runId, step := 0, state := none, event := message.event }
  | some run =>
    if run.finished then .ignored
    else
      match reinvocation run key with
      | some waiting => .reinvoke waiting run.step
      | none =>
        match message.result? with
        -- A start for a run that exists is ignored.
        | none => .ignored
        | some result =>
          if run.waitingFor.map WaitingFor.id ≠ some result.id then .ignored
          else .handle
            { runId, step := run.step, state := some run.state,
              event := requestEvent message.event run.waitingFor }

/-- The clock when a run is written. -/
structure Times where
  created : Nat
  updated : Nat

/-- The run that the answer of the handler leads to, rules 7 to 9. -/
def nextRun (maxSteps : Nat) (runId : String) (key : Key) (stored : Option (WorkflowRun Data))
    (answer : Step Data) (newId : Nat) (now : Times) : WorkflowRun Data :=
  let step := (stored.map WorkflowRun.step).getD 0
  let createdAt := (stored.map WorkflowRun.createdAt).getD now.created
  match answer.next with
  | .complete outcome reason =>
    { runId, status := .completed, step, state := answer.state, outcome := some outcome,
      reason := reason.map .given, trigger := key, waitingFor := none, createdAt,
      updatedAt := now.updated }
  | .invoke agent input workspace =>
    if step + 1 > maxSteps then
      { runId, status := .failed, step, state := answer.state, outcome := none,
        reason := some .maxSteps, trigger := key, waitingFor := none, createdAt,
        updatedAt := now.updated }
    else
      { runId, status := .running, step := step + 1, state := answer.state, outcome := none,
        reason := none, trigger := key, waitingFor := some { agent, id := newId, input, workspace },
        createdAt, updatedAt := now.updated }

/-- `WorkflowStepResult` -/
inductive StepResult
  | started
  | advanced
  | completed
  | failed
  | reinvoked
  | ignored
deriving DecidableEq

/-- What a step returns once the run is written, and invoked where it waits. -/
def resultOf (key : Key) (run : WorkflowRun Data) : StepResult :=
  match run.status with
  | .completed => .completed
  | .failed => .failed
  | .running => if key = .start then .started else .advanced

/-! ## Executions -/

/-- What the executions share: the handler may answer each of its calls in a
different way, and throw (none). -/
structure Settings (Data : Type) where
  workflow : String
  maxSteps : Nat
  handler : Nat → Request Data → Option (Step Data)

/-- A stored run and what it was computed from. -/
structure Transition (Data : Type) where
  runId : String
  key : Key
  message : Nat
  before : Option (WorkflowRun Data)
  request : Request Data
  answer : Step Data
  after : WorkflowRun Data
deriving DecidableEq

/-- An invocation of an agent, with its correlation. -/
structure Invocation (Data : Type) where
  agent : String
  id : Nat
  input : Data
  workspace : Option Data
  workflow : String
  runId : String
  step : Nat
deriving DecidableEq

/-- The invocation that a run waits for. -/
def invocationOf (workflow runId : String) (waiting : WaitingFor Data) (step : Nat) :
    Invocation Data :=
  { agent := waiting.agent, id := waiting.id, input := waiting.input,
    workspace := waiting.workspace, workflow, runId, step }

/-- What an execution does next. -/
inductive Phase (Data : Type)
  | reading
  | handling (stored : Option (WorkflowRun Data)) (request : Request Data)
  /-- The run that it is about to write over the one it read. -/
  | writing (transition : Transition Data)
  | invoking (waiting : WaitingFor Data) (step : Nat) (result : StepResult)
  | returned (result : StepResult)
  | threw

/-- An execution for a message with a target. -/
structure Execution (Data : Type) where
  message : Nat
  content : Message Data
  runId : String
  key : Key
  phase : Phase Data

structure System (Data : Type) where
  /-- The stored objects. An ETag is a digest of the object, so it is that of the
  object that was read exactly when the object is the same. -/
  runs : String → Option (WorkflowRun Data) := fun _ => none
  /-- Every message that was sent, and whether it went away. -/
  messages : Nat → Option (Message Data) := fun _ => none
  removed : Nat → Bool := fun _ => false
  executions : Nat → Option (Execution Data) := fun _ => none
  /-- The messages that an execution for returned. -/
  handled : Nat → Bool := fun _ => false
  invocations : List (Invocation Data) := []
  nextId : Nat := 0
  /-- The writes that took effect: for statements only. -/
  history : List (Transition Data) := []

inductive SystemEvent (Data : Type)
  /-- A run is started. -/
  | send (message : Nat) (runId : String) (input : Data)
  /-- An agent answers an invocation that was made. -/
  | answer (message : Nat) (invocation : Nat) (agent : String) (payload : Data)
  /-- A result that isn't for this workflow. -/
  | foreign (message : Nat) (result : AgentResult Data)
  | deliver (execution : Nat) (message : Nat)
  | read (execution : Nat)
  /-- The handler returns or throws. -/
  | handle (execution : Nat) (call : Nat) (now : Times)
  | write (execution : Nat)
  | invoke (execution : Nat)
  /-- What the execution awaits fails, with its effect or without. -/
  | fail (execution : Nat) (applied : Bool)
  | remove (message : Nat)

namespace System

variable (s : System Data)

def setPhase (e : Nat) (x : Execution Data) (phase : Phase Data) : System Data :=
  { s with executions := put s.executions e (some { x with phase }) }

/-- The execution returns, so its message may go away. -/
def finish (e : Nat) (x : Execution Data) (result : StepResult) : System Data :=
  { s.setPhase e x (.returned result) with
    handled := fun m => if m = x.message then true else s.handled m }

def sendMessage (m : Nat) (message : Message Data) : Option (System Data) :=
  if (s.messages m).isSome then none
  else some { s with messages := put s.messages m (some message) }

def startExecution (workflow : String) (e m : Nat) : Option (System Data) :=
  match s.messages m with
  | none => none
  | some content =>
    if (s.executions e).isSome || s.removed m then none
    else
      match target workflow content with
      | none => some { s with handled := fun n => if n = m then true else s.handled n }
      | some (runId, key) =>
        some { s with
          executions := put s.executions e
            (some { message := m, content, runId, key, phase := .reading }) }

def readRun (e : Nat) (x : Execution Data) : System Data :=
  match decideStep x.content x.runId x.key (s.runs x.runId) with
  | .ignored => s.finish e x .ignored
  | .reinvoke waiting step => s.setPhase e x (.invoking waiting step .reinvoked)
  | .handle request => s.setPhase e x (.handling (s.runs x.runId) request)

/-- What an execution is about to write for the answer of the handler. -/
def answered (settings : Settings Data) (x : Execution Data)
    (stored : Option (WorkflowRun Data)) (request : Request Data) (answer : Step Data)
    (now : Times) : Transition Data where
  runId := x.runId
  key := x.key
  message := x.message
  before := stored
  request := request
  answer := answer
  after := nextRun settings.maxSteps x.runId x.key stored answer s.nextId now

def handleRequest (settings : Settings Data) (e : Nat) (x : Execution Data)
    (stored : Option (WorkflowRun Data)) (request : Request Data) (call : Nat) (now : Times) :
    System Data :=
  match settings.handler call request with
  | none => s.setPhase e x .threw
  | some answer =>
    let transition := s.answered settings x stored request answer now
    let nextId := if transition.after.waitingFor.isSome then s.nextId + 1 else s.nextId
    { s.setPhase e x (.writing transition) with nextId }

/-- The write takes effect. -/
def store (t : Transition Data) : System Data :=
  { s with runs := put s.runs t.runId (some t.after), history := s.history ++ [t] }

/-- What comes after the write. -/
def afterWrite (e : Nat) (x : Execution Data) (run : WorkflowRun Data) : System Data :=
  match run.waitingFor with
  | some waiting => s.setPhase e x (.invoking waiting run.step (resultOf x.key run))
  | none => s.finish e x (resultOf x.key run)

def makeInvocation (workflow : String) (x : Execution Data) (waiting : WaitingFor Data)
    (step : Nat) : System Data :=
  { s with invocations := s.invocations ++ [invocationOf workflow x.runId waiting step] }

section Steps

variable [DecidableEq Data] (settings : Settings Data)

/-- `If-None-Match: *`, or `If-Match` with the ETag of the object that was read. -/
def writeRun (e : Nat) (x : Execution Data) (t : Transition Data) : System Data :=
  if s.runs t.runId = t.before then (s.store t).afterWrite e x t.after
  else s.setPhase e x .threw

/-- What the execution awaits fails. -/
def failAt (e : Nat) (x : Execution Data) (applied : Bool) : Option (System Data) :=
  match x.phase with
  | .reading | .handling _ _ => some (s.setPhase e x .threw)
  | .writing t =>
    if applied && decide (s.runs t.runId = t.before) then some ((s.store t).setPhase e x .threw)
    else some (s.setPhase e x .threw)
  | .invoking waiting step _ =>
    if applied then some ((s.makeInvocation settings.workflow x waiting step).setPhase e x .threw)
    else some (s.setPhase e x .threw)
  | .returned _ | .threw => none

def step : SystemEvent Data → Option (System Data)
  | .send m runId input => s.sendMessage m (.start runId input)
  | .answer m i agent payload =>
    match s.invocations[i]? with
    | none => none
    | some invocation => s.sendMessage m (.result
        { id := invocation.id, agent, payload,
          correlation := .fields (some invocation.workflow) (some invocation.runId) })
  | .foreign m reply =>
    if (target settings.workflow (.result reply)).isSome then none
    else s.sendMessage m (.result reply)
  | .deliver e m => s.startExecution settings.workflow e m
  | .read e =>
    match s.executions e with
    | some x =>
      match x.phase with
      | .reading => some (s.readRun e x)
      | _ => none
    | none => none
  | .handle e call now =>
    match s.executions e with
    | some x =>
      match x.phase with
      | .handling stored request => some (s.handleRequest settings e x stored request call now)
      | _ => none
    | none => none
  | .write e =>
    match s.executions e with
    | some x =>
      match x.phase with
      | .writing t => some (s.writeRun e x t)
      | _ => none
    | none => none
  | .invoke e =>
    match s.executions e with
    | some x =>
      match x.phase with
      | .invoking waiting step result =>
        some ((s.makeInvocation settings.workflow x waiting step).finish e x result)
      | _ => none
    | none => none
  | .fail e applied =>
    match s.executions e with
    | some x => s.failAt settings e x applied
    | none => none
  | .remove m =>
    if s.handled m then some { s with removed := fun n => if n = m then true else s.removed n }
    else none

end Steps

end System

/-- Any number of executions over one store and one queue. -/
def machine [DecidableEq Data] (settings : Settings Data) :
    Machine (System Data) (SystemEvent Data) where
  init := {}
  step s event := s.step settings event

end Ez4.Agent.Workflow

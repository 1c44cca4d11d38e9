import Ez4.Library.Machine
import Ez4.Library.PartialMap
import Ez4.Utils.Prototype
import Mathlib.Data.Rat.Defs
import Mathlib.Algebra.Order.Ring.Rat

/-! # Events of the in-memory scheduler

`setEvent`, `createEvent`, `updateEvent` and `deleteEvent` of an in-memory
scheduler, the run of an event with its retries (`service/scheduler.ts`), and
its timeouts (`utils/timeout.ts`). Times are milliseconds. `T` is what an event
carries. Creating and deleting schedulers, timers without an event and the log
texts are left out. -/
namespace Ez4.Scheduler.Events
open Ez4.Library Ez4.Utils

structure MessageTrace where
  traceId : Option String := none
  scope : Option String := none
deriving DecidableEq, Repr

/-- What is passed to a call. -/
structure EventInput (T : Type) where
  date : Int
  event : T
  maxRetries : Option Nat := none
  maxAge : Option Rat := none
  trace : MessageTrace := {}
deriving DecidableEq, Repr

/-- `Partial<ScheduleEvent<T>>` -/
structure EventChanges (T : Type) where
  date : Option Int := none
  event : Option T := none
  maxRetries : Option Nat := none
  maxAge : Option Rat := none
deriving DecidableEq, Repr

/-- An event as it is kept. Two of them are the same when they are one `object`. -/
structure ScheduledEvent (T : Type) where
  object : Nat
  date : Int
  event : Option T
  maxRetries : Option Nat
  maxAge : Option Rat
  trace : MessageTrace
deriving DecidableEq, Repr

/-- `SchedulerParameters`. `deepMerge` is what it makes of two values of `T`. -/
structure Parameters (T : Type) where
  maxRetries : Option Nat := none
  maxAge : Option Rat := none
  deepMerge : T → T → T

inductive Error
  | conflict
  | notFound
  | tooOld
  /-- A `TypeError`, where a property of `Object.prototype` stands for an event or a timer. -/
  | type
deriving DecidableEq, Repr

def defaultEventMaxRetries : Nat := 185

def defaultEventMaxAge : Rat := 86400

def firstRetryDelay : Int := 1000

def maxRetryDelay : Int := 60000

def maxTimeoutDelay : Int := 2 ^ 31 - 1

/-- The event that is run, and the identifier it is run for. -/
structure SchedulerRun (T : Type) where
  timerId : String
  input : ScheduledEvent T
deriving DecidableEq, Repr

/-- A timeout that is set. It is due at `due`, and `rest` milliseconds are left
for the next chunk. -/
structure Timeout (T : Type) where
  handle : Nat
  due : Int
  rest : Int
  run : SchedulerRun T
  attempt : Nat
  /-- Given to a retry alone. -/
  firstTime : Option Int
deriving DecidableEq, Repr

/-- A call of `runHandler` that waits for the handler. -/
structure Running (T : Type) where
  activation : Nat
  run : SchedulerRun T
  attempt : Nat
  firstTime : Int
deriving DecidableEq, Repr

/-- What happened to the events. The scheduler keeps no such list: it is for
statements only. -/
inductive Entry (T : Type)
  | written (identifier : String) (input : ScheduledEvent T)
  | removed (identifier : String)
  | started (run : SchedulerRun T) (attempt : Nat) (time : Int)
  | succeeded (run : SchedulerRun T) (time : Int)
  | failed (run : SchedulerRun T) (time : Int)
deriving DecidableEq, Repr

structure State (T : Type) where
  /-- `Date.now()` -/
  now : Int
  events : String → Option (ScheduledEvent T) := fun _ => none
  timers : String → Option Nat := fun _ => none
  pending : List (Timeout T) := []
  running : List (Running T) := []
  /-- The next object that is made. -/
  next : Nat := 0
  /-- The latest entry is the first. -/
  log : List (Entry T) := []

variable {T : Type}

/-! ## Timeouts -/

namespace State

/-- `clearTimeout(timeout)`, for the timeout of a handle. -/
def clear (s : State T) (handle : Nat) : State T :=
  { s with pending := s.pending.filter fun t => t.handle ≠ handle }

/-- `instance.timers[timerId] = createTimeout(…, delay)` -/
def setTimer (s : State T) (run : SchedulerRun T) (attempt : Nat) (firstTime : Option Int)
    (delay : Int) : State T :=
  let remaining := max delay 0
  let current := min remaining maxTimeoutDelay
  { s with
    pending := s.pending ++ [⟨s.next, s.now + current, remaining - current, run, attempt, firstTime⟩]
    timers := put s.timers run.timerId (some s.next)
    next := s.next + 1 }

/-- `delete instance.timers[identifier]` and `delete instance.events[identifier]` -/
def forget (s : State T) (identifier : String) : State T :=
  { s with
    timers := put s.timers identifier none
    events := put s.events identifier none
    log := .removed identifier :: s.log }

/-- `instance.events[identifier] = input` -/
def file (s : State T) (identifier : String) (input : ScheduledEvent T) : State T :=
  { s with
    events := put s.events identifier (some input)
    log := .written identifier input :: s.log }

end State

/-! ## The calls -/

/-- A call may throw, and what it wrote before stays. -/
abbrev Program (T α : Type) := ExceptT Error (StateM (State T)) α

/-- The identity of an object that is made. -/
def newObject : Program T Nat := do
  let s ← get
  set { s with next := s.next + 1 }
  return s.next

/-- `instance.timers[identifier]?.cancel()` -/
def cancelTimer (identifier : String) : Program T Unit := do
  match property (← get).timers identifier with
  | .own handle => modify (·.clear handle)
  | .inherited => throw .type
  | .absent => pure ()

def scheduleEvent (identifier : String) (input : ScheduledEvent T) : Program T Unit := do
  let interval := input.date - (← get).now
  if interval < 0 then
    throw .tooOld
  cancelTimer identifier
  modify (·.setTimer ⟨identifier, input⟩ 0 none interval)
  modify (·.file identifier input)

/-- The object that is passed to a call. -/
def EventInput.toScheduled (input : EventInput T) (object : Nat) : ScheduledEvent T :=
  { object, date := input.date, event := some input.event, maxRetries := input.maxRetries,
    maxAge := input.maxAge, trace := input.trace }

/-- `deepMerge(previousEvent, input)` -/
def mergeEvent (p : Parameters T) (previous : ScheduledEvent T) (input : EventChanges T)
    (object : Nat) : ScheduledEvent T where
  object := object
  date := input.date.getD previous.date
  event := match previous.event, input.event with
    | some target, some source => some (p.deepMerge target source)
    | target, source => source.or target
  maxRetries := input.maxRetries.or previous.maxRetries
  maxAge := input.maxAge.or previous.maxAge
  trace := previous.trace

def setEvent (identifier : String) (input : EventInput T) : Program T Unit := do
  scheduleEvent identifier (input.toScheduled (← newObject))

def createEvent (identifier : String) (input : EventInput T) : Program T Unit := do
  let object ← newObject
  match property (← get).events identifier with
  | .absent => scheduleEvent identifier (input.toScheduled object)
  | _ => throw .conflict

def updateEvent (p : Parameters T) (identifier : String) (input : EventChanges T) :
    Program T Unit := do
  match property (← get).events identifier with
  | .absent => throw .notFound
  | .own previous => scheduleEvent identifier (mergeEvent p previous input (← newObject))
  -- what is inherited has no keys of its own to merge
  | .inherited =>
    match input.date with
    | none => throw .type
    | some date =>
      scheduleEvent identifier
        { object := ← newObject, date, event := input.event, maxRetries := input.maxRetries,
          maxAge := input.maxAge, trace := {} }

def deleteEvent (identifier : String) : Program T (Option (ScheduledEvent T)) := do
  match property (← get).events identifier with
  | .absent => return none
  | .own event =>
    cancelTimer identifier
    modify (·.forget identifier)
    return some event
  | .inherited =>
    cancelTimer identifier
    return none

inductive Call (T : Type)
  | setEvent (identifier : String) (input : EventInput T)
  | createEvent (identifier : String) (input : EventInput T)
  | updateEvent (identifier : String) (input : EventChanges T)
  | deleteEvent (identifier : String)

def perform (p : Parameters T) : Call T → Program T (Option (ScheduledEvent T))
  | .setEvent identifier input => do
    setEvent identifier input
    return none
  | .createEvent identifier input => do
    createEvent identifier input
    return none
  | .updateEvent identifier input => do
    updateEvent p identifier input
    return none
  | .deleteEvent identifier => deleteEvent identifier

/-! ## The run of an event -/

namespace SchedulerRun

def maxRetries (p : Parameters T) (run : SchedulerRun T) : Nat :=
  (run.input.maxRetries.or p.maxRetries).getD defaultEventMaxRetries

def maxAge (p : Parameters T) (run : SchedulerRun T) : Rat :=
  (run.input.maxAge.or p.maxAge).getD defaultEventMaxAge

/-- `isCurrentEvent` -/
def isActive (run : SchedulerRun T) (s : State T) : Bool :=
  (s.events run.timerId).map (·.object) = some run.input.object

end SchedulerRun

def retryDelay (attempt : Nat) : Int := min (firstRetryDelay * 2 ^ attempt) maxRetryDelay

/-- `runHandler`, up to the handler's answer. -/
def runHandler (s : State T) (run : SchedulerRun T) (attempt : Nat) (firstTime : Int) : State T :=
  { s with
    running := s.running ++ [⟨s.next, run, attempt, firstTime⟩]
    next := s.next + 1
    log := .started run attempt s.now :: s.log }

/-- `onComplete` -/
def onComplete (s : State T) (run : SchedulerRun T) : State T :=
  if run.isActive s then s.forget run.timerId else s

/-- The run may be tried again after this attempt failed at `now`. -/
def retries (p : Parameters T) (now : Int) (r : Running T) : Bool :=
  r.attempt < r.run.maxRetries p &&
    ((now + retryDelay r.attempt - r.firstTime : Int) : Rat) ≤ r.run.maxAge p * 1000

/-- `runHandler`, from the handler's answer on. -/
def handlerEnds (p : Parameters T) (s : State T) (r : Running T) (success : Bool) : State T :=
  let s := { s with
    running := s.running.filter fun r' => r'.activation ≠ r.activation
    log := (if success then .succeeded r.run s.now else .failed r.run s.now) :: s.log }
  if success then onComplete s r.run
  else if !r.run.isActive s then s
  else if retries p s.now r then
    s.setTimer r.run (r.attempt + 1) (some r.firstTime) (retryDelay r.attempt)
  else onComplete s r.run

/-- The callback of `setTimeout`: the next chunk, or the callback of the timeout. -/
def timeoutFires (s : State T) (t : Timeout T) : State T :=
  if 0 < t.rest then
    let current := min t.rest maxTimeoutDelay
    { s with pending := s.pending.map fun t' =>
        if t'.handle = t.handle then { t with due := s.now + current, rest := t.rest - current }
        else t' }
  else runHandler (s.clear t.handle) t.run t.attempt (t.firstTime.getD s.now)

/-! ## Runs of the scheduler -/

/-- What may happen next: a call, by a client or by a handler that runs, the
clock, a timeout that is due, or the answer of a handler. -/
inductive Action (T : Type)
  | call (call : Call T)
  | elapse (time : Nat)
  | fire (handle : Nat)
  | answer (activation : Nat) (success : Bool)

def step (p : Parameters T) (s : State T) : Action T → Option (State T)
  | .call call => some ((perform p call).run s).2
  | .elapse time => some { s with now := s.now + time }
  | .fire handle => do
    let t ← s.pending.find? fun t => t.handle = handle
    if s.now < t.due then none else some (timeoutFires s t)
  | .answer activation success => do
    let r ← s.running.find? fun r => r.activation = activation
    some (handlerEnds p s r success)

/-- A scheduler that is just created at a time. -/
def scheduler (p : Parameters T) (start : Int) : Machine (State T) (Action T) where
  init := { now := start }
  step := step p

end Ez4.Scheduler.Events

import Ez4.State.Apply
import Ez4.Library.PartialMap

/-! # Deploys that share a lock

Any number of runs of `deployCommand` and `destroyCommand` with one lock and
one remote state file (`perform.ts`, `lock.ts`, `state.ts`). A request takes
effect between being sent and being answered, or never. -/
namespace Ez4.Project.Deploy
open Ez4.Library Ez4.State.Entry Ez4.State.Plan Ez4.State.Apply

variable {V Checksum : Type}

/-! ## The state file -/

/-- The object that `packState` writes. -/
structure Contents (V : Type) where
  lastUpdate : Nat
  version : Nat
  state : EntryStates V
deriving DecidableEq

structure LoadedState (V Checksum : Type) where
  state : EntryStates V
  checksum : Option Checksum
deriving DecidableEq

def packState (now : Nat) (state : EntryStates V) : Contents V where
  lastUpdate := now
  version := 1
  state := state

def unpackState (hash : Contents V → Checksum) (buffer : Contents V) : LoadedState V Checksum where
  state := buffer.state
  checksum := some (hash buffer)

/-- What `loadState` makes of the remote file. -/
def loadState (hash : Contents V → Checksum) : Option (Contents V) → LoadedState V Checksum
  | some data => unpackState hash data
  | none => { state := ∅, checksum := none }

def mergeState (newState oldState : EntryStates V) : EntryStates V :=
  newState.mapValues
    (fun entry => { entry with result := (oldState.get? entry.entryId).bind EntryState.result })
    fun _ => rfl

/-! ## The deploy of a run -/

inductive Command (V : Type)
  /-- `deployCommand`, with what it prepared from the metadata. -/
  | deploy (prepared : EntryStates V)
  | destroy

/-- The `newState` that is applied. -/
def Command.newState : Command V → EntryStates V → EntryStates V
  | .deploy prepared, oldState => mergeState prepared oldState
  | .destroy, _ => ∅

/-- What a run is about to apply, and the state it was made from. -/
structure DeployPlan (V Checksum : Type) where
  command : Command V
  options : ApplyOptions V
  loaded : LoadedState V Checksum

/-- `applyDeploy`, with what the handlers do as events: `none` while it has not
resolved, or when it throws. -/
def applyDeploy (newState oldState : EntryStates V) (options : ApplyOptions V)
    (events : List (ApplyEvent V)) : Option (EntryStates V) :=
  match planSteps (some newState) (some oldState)
      { handlers := options.handlers, force := options.force } with
  | .error _ => none
  | .ok stepList =>
    let d : State.Apply.Deploy V :=
      { stepList, newEntries := some newState, oldEntries := some oldState, options }
    match (applySteps d).run events (applySteps d).init with
    | some s =>
      match s.phase with
      | .resolved => some s.result
      | _ => none
    | none => none

def DeployPlan.apply (plan : DeployPlan V Checksum) (events : List (ApplyEvent V)) :
    Option (EntryStates V) :=
  applyDeploy (plan.command.newState plan.loaded.state) plan.loaded.state plan.options events

/-! ## A run -/

/-- Where a run is. The `Option Bool` of `acquiring` is what the put of the lock
came to when it took effect, the `Bool` of the others whether theirs did. -/
inductive Phase (V Checksum : Type)
  | loading
  | ready (loaded : LoadedState V Checksum)
  | acquiring (plan : DeployPlan V Checksum) (lock : Option Bool)
  /-- In `assertStateUnchanged`. -/
  | checking (plan : DeployPlan V Checksum)
  | applying (plan : DeployPlan V Checksum)
  /-- In `saveState`. -/
  | saving (plan : DeployPlan V Checksum) (contents : Contents V) (written : Bool)
  /-- In the `finally` block, with `isLocked`. -/
  | releasing (released : Bool)
  | ended

structure Run (V Checksum : Type) where
  phase : Phase V Checksum := .loading
  /-- The releases that `handleShutdown` sent, and whether each took effect. -/
  shutdowns : List Bool := []
  exited : Bool := false

/-- `handleShutdown` is on. -/
def Phase.handlesSignals : Phase V Checksum → Bool
  | .loading | .ready _ | .ended => false
  | _ => true

/-! ## The system -/

/-- What happened to the file and the lock, for statements only. -/
inductive Entry (V : Type)
  | saved (run : Nat) (before : Option (Contents V)) (after : Contents V)
  | unlocked (run owner : Nat)

/-- A run is known by its `ownerId`. -/
structure System (V Checksum : Type) where
  runs : Nat → Option (Run V Checksum) := fun _ => none
  /-- The owner of the lock. -/
  lock : Option Nat := none
  file : Option (Contents V) := none
  log : List (Entry V) := []

inductive Event (V : Type)
  | start (run : Nat)
  | loads (run : Nat)
  /-- It throws, has no changes or is not confirmed. -/
  | abandons (run : Nat)
  /-- It calls `performDeploy`. -/
  | proceeds (run : Nat) (command : Command V) (options : ApplyOptions V)
  | lockTakesEffect (run : Nat)
  | lockAnswered (run : Nat)
  | lockFails (run : Nat)
  | checks (run : Nat)
  | callbackThrows (run : Nat)
  | applies (run : Nat) (events : List (ApplyEvent V)) (now : Nat)
  | saveTakesEffect (run : Nat)
  | saveAnswered (run : Nat)
  | saveFails (run : Nat)
  | releaseTakesEffect (run : Nat)
  | releaseAnswered (run : Nat)
  | releaseFails (run : Nat)
  /-- SIGINT or SIGTERM. -/
  | signal (run : Nat)
  | shutdownTakesEffect (run request : Nat)
  | shutdownAnswered (run request : Nat)
  | shutdownFails (run request : Nat)

namespace System

variable (s : System V Checksum)

def setRun (r : Nat) (run : Run V Checksum) : System V Checksum :=
  { s with runs := put s.runs r (some run) }

/-- The put of `acquireExclusiveLock`: `attribute_not_exists(lock_id)`. -/
def putLock (r : Nat) : System V Checksum × Bool :=
  match s.lock with
  | none => ({ s with lock := some r }, true)
  | some _ => (s, false)

/-- The delete of `releaseExclusiveLock`: `owner_id = :owner_id`. -/
def deleteLock (r : Nat) : System V Checksum :=
  match s.lock with
  | some owner =>
    if owner = r then { s with lock := none, log := .unlocked r owner :: s.log } else s
  | none => s

def writeFile (r : Nat) (contents : Contents V) : System V Checksum :=
  { s with file := some contents, log := .saved r s.file contents :: s.log }

/-- What a run that did not exit does. -/
def alive (r : Nat) (f : Run V Checksum → Option (System V Checksum)) :
    Option (System V Checksum) :=
  (s.runs r).bind fun run => if run.exited then none else f run

/-- The next phase of a run. -/
def move (r : Nat) (f : Phase V Checksum → Option (Phase V Checksum)) :
    Option (System V Checksum) :=
  s.alive r fun run => (f run.phase).map fun phase => s.setRun r { run with phase }

variable [DecidableEq Checksum] (hash : Contents V → Checksum)

/-- `assertStateUnchanged` throws when the checksums differ. -/
def checkState (plan : DeployPlan V Checksum) : Phase V Checksum :=
  if (loadState hash s.file).checksum = plan.loaded.checksum then .applying plan
  else .releasing false

def step : Event V → Option (System V Checksum)
  | .start r => if (s.runs r).isSome then none else some (s.setRun r {})
  | .loads r => s.move r fun
    | .loading => some (.ready (loadState hash s.file))
    | _ => none
  | .abandons r => s.move r fun
    | .loading | .ready _ => some .ended
    | _ => none
  | .proceeds r command options => s.move r fun
    | .ready loaded => some (.acquiring { command, options, loaded } none)
    | _ => none
  | .lockTakesEffect r => (s.runs r).bind fun run =>
    match run.phase with
    | .acquiring plan none =>
      let (s, taken) := s.putLock r
      some (s.setRun r { run with phase := .acquiring plan (some taken) })
    | _ => none
  | .lockAnswered r => s.move r fun
    | .acquiring plan (some true) => some (.checking plan)
    | .acquiring _ (some false) => some .ended
    | _ => none
  | .lockFails r => s.move r fun
    | .acquiring _ _ => some .ended
    | _ => none
  | .checks r => s.move r fun
    | .checking plan => some (s.checkState hash plan)
    | _ => none
  | .callbackThrows r => s.move r fun
    | .checking _ | .applying _ => some (.releasing false)
    | _ => none
  | .applies r events now => s.move r fun
    | .applying plan =>
      (plan.apply events).map fun result => .saving plan (packState now result) false
    | _ => none
  | .saveTakesEffect r => (s.runs r).bind fun run =>
    match run.phase with
    | .saving plan contents false =>
      some ((s.writeFile r contents).setRun r { run with phase := .saving plan contents true })
    | _ => none
  | .saveAnswered r => s.move r fun
    | .saving _ _ true => some (.releasing false)
    | _ => none
  | .saveFails r => s.move r fun
    | .saving _ _ _ => some (.releasing false)
    | _ => none
  | .releaseTakesEffect r => (s.runs r).bind fun run =>
    match run.phase with
    | .releasing false => some ((s.deleteLock r).setRun r { run with phase := .releasing true })
    | _ => none
  | .releaseAnswered r => s.move r fun
    | .releasing true => some .ended
    | _ => none
  | .releaseFails r => s.move r fun
    | .releasing _ => some .ended
    | _ => none
  | .signal r => s.alive r fun run =>
    if run.phase.handlesSignals then
      some (s.setRun r { run with shutdowns := run.shutdowns ++ [false] })
    else some (s.setRun r { run with exited := true })
  | .shutdownTakesEffect r i => (s.runs r).bind fun run =>
    if run.shutdowns[i]? = some false then
      some ((s.deleteLock r).setRun r { run with shutdowns := run.shutdowns.set i true })
    else none
  | .shutdownAnswered r i => s.alive r fun run =>
    if run.shutdowns[i]? = some true then some (s.setRun r { run with exited := true }) else none
  -- The rejection of `handleShutdown` is not handled, which ends the process.
  | .shutdownFails r i => s.alive r fun run =>
    if i < run.shutdowns.length then some (s.setRun r { run with exited := true }) else none

end System

def machine [DecidableEq Checksum] (hash : Contents V → Checksum) (file : Option (Contents V)) :
    Machine (System V Checksum) (Event V) where
  init := { file }
  step s event := s.step hash event

end Ez4.Project.Deploy

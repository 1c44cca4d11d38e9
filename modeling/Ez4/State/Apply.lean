import Mathlib.Control.Traversable.Basic
import Ez4.State.Plan
import Ez4.Utils.Tasks
import Ez4.Library.Machine

/-! # Applying a plan

`applySteps` (`apply.ts`) as a machine. What is not up to the code is the
choice of events: which running task goes on next, what a handler or a post
action registers, answers or throws. A handler reads its entry and answers
through its result, as its `Readonly` arguments say; what it reads through
its context only shapes its answer. The steps are those of a plan, where no
entry has two, so the `entry` object of a step is filed under its id. -/
namespace Ez4.State.Apply
open Ez4.Library Ez4.State.Entry Ez4.State.Plan Ez4.Utils.Tasks

structure Warning where
  message : String
deriving DecidableEq, Repr

/-- What `applyPendingStep` reports besides the entry. -/
inductive Issues
  | none
  | warnings (list : List Warning)
  | error (error : EntryError)
deriving DecidableEq, Repr

/-- What `applyPendingStep` resolves to. -/
structure StepOutcome (V : Type) where
  entry : Option (EntryState V)
  issues : Issues := .none
deriving DecidableEq, Repr

/-- A registered post action. The callback is the events of its task. -/
structure PostActionEntry where
  requireDependents : Bool
  action : StepAction
  entryId : String
deriving DecidableEq, Repr

structure ApplyOptions (V : Type) where
  handlers : StepHandlers V
  concurrency : Nat := 5
  force : Bool := false

/-- The arguments of `applySteps`. -/
structure Deploy (V : Type) where
  stepList : List StepState
  newEntries : Option (EntryStates V)
  oldEntries : Option (EntryStates V)
  options : ApplyOptions V

/-- What the handlers, the post actions and the steps did. The code keeps no
such record: it is for statements only. -/
inductive Happening (V : Type)
  | handlerCalled (action : StepAction) (entryId : String)
  | handlerReturned (entryId : String) (warned : Bool)
  | handlerThrew (entryId : String) (thrown : Thrown)
  | stepFinished (entryId : String) (outcome : StepOutcome V)
  | postActionRegistered (entryId : String)
  | postActionCalled (entryId : String)
  | postActionReturned (entryId : String)
  /-- The callback threw, or was skipped. -/
  | postActionFailed (entryId : String) (error : EntryError)
deriving DecidableEq, Repr

/-- Where the execution is. -/
inductive Phase (V : Type)
  | steps (order : Nat) (tasks : Pool StepState (List Warning) (StepOutcome V))
  | postActions (tasks : Pool PostActionEntry Unit Unit)
  | resolved
  | rejected (error : EntryError)
deriving DecidableEq, Repr

structure ApplyState (V : Type) where
  allNewEntries : EntryStates V
  succeededEntries : EntryStates V := ∅
  failedEntries : EntryStates V := ∅
  /-- The `entry` objects the called handlers and their post actions share. -/
  stepEntries : EntryStates V := ∅
  /-- The list post actions are registered in: `postActions`, then `stepActions`. -/
  postActions : List PostActionEntry := []
  /-- What is left of `allPostActions`, from `index` on. -/
  allPostActions : List (List PostActionEntry) := []
  warningList : List Warning := []
  errorList : List EntryError := []
  phase : Phase V
  history : List (Happening V) := []
deriving DecidableEq

inductive ApplyEvent (V : Type)
  /-- A free worker takes its next task. -/
  | start
  | addWarning (task : Nat) (message : String)
  | postAction (task : Nat) (requireDependents : Bool)
  | returned (task : Nat) (result : Option V)
  | threw (task : Nat) (thrown : Thrown)
  /-- `Tasks.run` resolves. -/
  | finish
deriving DecidableEq, Repr

variable {V : Type}

/-- `{ ...newEntries }`. -/
def Deploy.allNewEntries (d : Deploy V) : EntryStates V := d.newEntries.getD ∅

/-- `{ ...oldEntries }`. -/
def Deploy.allOldEntries (d : Deploy V) : EntryStates V := d.oldEntries.getD ∅

def findPendingByOrder (stepList : List StepState) (order : Nat) : List StepState :=
  stepList.filter fun step => step.order = order

def getEntryHandler (handlers : StepHandlers V) (entry : EntryState V) :
    Except EntryError (StepHandler V) :=
  match handlers entry.type with
  | some handler => .ok handler
  | none => .error (.handlerNotFound entry.type entry.entryId)

/-- The fuel counts the nested calls. A walk through more entries than there
are meets one twice, and then goes round for ever. -/
def checkAllSucceeded (succeededEntries : EntryStates V) :
    Nat → List String → Except EntryError Bool
  | 0, _ => .error .stackOverflow
  | fuel + 1, dependencies => dependencies.allM fun dependencyId =>
    match succeededEntries.get? dependencyId with
    | some entry => checkAllSucceeded succeededEntries fuel entry.dependencies
    | none => .ok false

/-- `checkAllSucceeded` with all the calls it can need. -/
def allSucceeded (succeededEntries : EntryStates V) (dependencies : List String) :
    Except EntryError Bool :=
  checkAllSucceeded succeededEntries (succeededEntries.values.length + 1) dependencies

/-- The state is `visitedIds`. Each nested call visits an entry, so there are
no more of them than entries. -/
def checkAllDependentsSucceeded (allEntries failedEntries : EntryStates V) :
    Nat → EntryState V → StateM (List String) Bool
  | 0, _ => pure true
  | fuel + 1, entry => (getEntryDependents allEntries entry none).allM fun dependent => do
    let visitedIds ← get
    if visitedIds.contains dependent.entryId then
      pure true
    else
      set (addId visitedIds dependent.entryId)
      if failedEntries.has dependent.entryId then pure false
      else checkAllDependentsSucceeded allEntries failedEntries fuel dependent

/-! ## A step -/

/-- What the first synchronous part of a step comes to. -/
inductive Begun (V : Type)
  /-- The handler is called on the entry. -/
  | called (entry : EntryState V)
  | settled (outcome : StepOutcome V)
deriving DecidableEq, Repr

/-- The `catch` branch. -/
def rollback (d : Deploy V) (entryId : String) (error : EntryError) : StepOutcome V :=
  { entry := d.allOldEntries.get? entryId, issues := .error error }

/-- `step.preview && step.preview.counts > 0`. -/
def hasChanges (step : StepState) : Bool :=
  match step.preview with
  | some preview => 0 < preview.counts
  | none => false

def checkDependencies (s : ApplyState V) (entry : EntryState V) : Except EntryError Unit := do
  let succeeded ← allSucceeded s.succeededEntries entry.dependencies
  if succeeded then .ok () else .error (.skipFailedEntryDependency entry.entryId)

/-- The `try` block of `applyPendingStep`, up to the handler's call. -/
def tryStep (d : Deploy V) (s : ApplyState V) (step : StepState) (entry : EntryState V) :
    Except EntryError (Begun V) :=
  match step.action with
  | .create => do
    checkDependencies s entry
    return .called entry
  | .update => do
    checkDependencies s entry
    let current ← getEntry d.allOldEntries step.entryId
    if !d.options.force && !hasChanges step then
      return .settled { entry := some { current with
        dependencies := entry.dependencies, connections := entry.connections } }
    else
      return .called entry
  | .replace => do
    checkDependencies s entry
    let _ ← getEntry d.allOldEntries step.entryId
    return .called entry
  | .delete =>
    if (getEntryDependents s.failedEntries entry none).isEmpty then .ok (.called entry)
    else .error (.skipFailedEntryDependency step.entryId)

/-- The synchronous part of `applyPendingStep`. An error is one thrown outside
of its `try` block. -/
def beginStep (d : Deploy V) (s : ApplyState V) (step : StepState) :
    Except EntryError (Begun V) := do
  let candidate ← getEntry
    (if step.action ≠ .delete then s.allNewEntries else d.allOldEntries) step.entryId
  let _ ← getEntryHandler d.options.handlers candidate
  match tryStep d s step candidate with
  | .ok begun => return begun
  | .error error => return .settled (rollback d step.entryId error)

def savedOutcome (entry : EntryState V) (warnings : List Warning) : StepOutcome V :=
  { entry := some entry, issues := if warnings.isEmpty then .none else .warnings warnings }

/-- What a step does once its handler returned: the entry as it leaves it, and
the outcome. -/
def endStep (newEntries : EntryStates V) (action : StepAction) (entry : EntryState V)
    (result : Option V) (warnings : List Warning) : EntryState V × StepOutcome V :=
  match action with
  | .create =>
    let entry := { entry with result }
    (entry, savedOutcome entry warnings)
  | .update | .replace =>
    let entry := { entry with result := result.or entry.result }
    (entry, savedOutcome entry warnings)
  | .delete =>
    if warnings.isEmpty then (entry, { entry := none })
    else
      let entry := { entry with
        dependencies := entry.dependencies.filter newEntries.has, connections := none }
      (entry, savedOutcome entry warnings)

/-! ## The loops of `applySteps` -/

/-- One round of the loop over `stepResults`. -/
def recordOutcome (s : ApplyState V) (outcome : StepOutcome V) : ApplyState V :=
  let s := match outcome.entry with
    | none => s
    | some entry =>
      let s := { s with allNewEntries := s.allNewEntries.set entry }
      match outcome.issues with
      | .none => { s with succeededEntries := s.succeededEntries.set entry }
      | _ => { s with failedEntries := s.failedEntries.set entry }
  match outcome.issues with
  | .none => s
  | .warnings list => { s with warningList := s.warningList ++ list }
  | .error error => { s with errorList := s.errorList ++ [error] }

/-- `allPostActions.push`, when there is something to push. -/
def pushPostActions (s : ApplyState V) : ApplyState V :=
  if s.postActions.isEmpty then s
  else { s with allPostActions := s.allPostActions ++ [s.postActions], postActions := [] }

/-- The next round of the loop over `allPostActions`, or its end. -/
def startPostActions (s : ApplyState V) : ApplyState V :=
  match s.allPostActions with
  | [] => { s with phase := .resolved }
  | stepActions :: rest =>
    { s with allPostActions := rest, phase := .postActions (start stepActions) }

/-- The next round of the loop over the orders, or its end. -/
def startOrder (d : Deploy V) (s : ApplyState V) (order : Nat) : ApplyState V :=
  let nextSteps := findPendingByOrder d.stepList order
  if nextSteps.isEmpty then startPostActions s
  else { s with phase := .steps order (start nextSteps) }

def initial (d : Deploy V) : ApplyState V :=
  let s := { allNewEntries := d.allNewEntries, phase := .resolved }
  match d.newEntries, d.oldEntries with
  | none, none => { s with phase := .rejected .entriesNotFound }
  | _, _ => startOrder d s 0

/-! ## Events while the steps run -/

section
variable (d : Deploy V) (s : ApplyState V) (order : Nat)
  (tasks : Pool StepState (List Warning) (StepOutcome V))

/-- The task at `index` comes to `status`. -/
def moveStep (index : Nat) (status : TaskStatus (List Warning) (StepOutcome V))
    (happenings : List (Happening V)) : ApplyState V :=
  { s with
    phase := .steps order (setStatus tasks index status)
    history := s.history ++ happenings }

def startStep (index : Nat) (step : StepState) : ApplyState V :=
  match beginStep d s step with
  | .error error => { s with phase := .rejected error }
  | .ok (.settled outcome) =>
    moveStep s order tasks index (.settled outcome) [.stepFinished step.entryId outcome]
  | .ok (.called entry) =>
    moveStep { s with stepEntries := s.stepEntries.set entry } order tasks index (.running [])
      [.handlerCalled step.action step.entryId]

def handlerReturned (index : Nat) (step : StepState) (warnings : List Warning)
    (entry : EntryState V) (result : Option V) : ApplyState V :=
  let (entry, outcome) := endStep s.allNewEntries step.action entry result warnings
  moveStep { s with stepEntries := s.stepEntries.set entry } order tasks index (.settled outcome)
    [.handlerReturned step.entryId !warnings.isEmpty, .stepFinished step.entryId outcome]

def handlerThrew (index : Nat) (step : StepState) (thrown : Thrown) : ApplyState V :=
  match thrown.toError? with
  | none => { s with phase := .rejected .notConvertible }
  | some error =>
    let outcome := rollback d step.entryId error
    moveStep s order tasks index (.settled outcome)
      [.handlerThrew step.entryId thrown, .stepFinished step.entryId outcome]

def finishOrder : ApplyState V :=
  startOrder d ((results tasks).foldl recordOutcome (pushPostActions s)) (order + 1)

def stepEvent : ApplyEvent V → Option (ApplyState V)
  | .start => do
    let index ← next? tasks d.options.concurrency
    let task ← tasks[index]?
    return startStep d s order tasks index task.item
  | .addWarning index message => do
    let (_, warnings) ← running? tasks index
    return moveStep s order tasks index (.running (warnings ++ [{ message }])) []
  | .postAction index requireDependents => do
    let (step, _) ← running? tasks index
    return { s with
      postActions := s.postActions ++
        [{ requireDependents, action := step.action, entryId := step.entryId }]
      history := s.history ++ [.postActionRegistered step.entryId] }
  | .returned index result => do
    let (step, warnings) ← running? tasks index
    let entry ← s.stepEntries.get? step.entryId
    return handlerReturned s order tasks index step warnings entry result
  | .threw index thrown => do
    let (step, _) ← running? tasks index
    return handlerThrew d s order tasks index step thrown
  | .finish => if done tasks then some (finishOrder d s order tasks) else none

end

/-! ## Events while the post actions run -/

/-- The checks of `applyPostAction`. -/
def checkPostAction (s : ApplyState V) (postAction : PostActionEntry) (entry : EntryState V) :
    Except EntryError Unit := do
  let entryId := entry.entryId
  if s.failedEntries.has entryId ||
      (!s.succeededEntries.has entryId && postAction.action ≠ .delete) then
    .error (.skipFailedEntry entryId)
  if s.succeededEntries.has entryId then
    let succeeded ← allSucceeded s.succeededEntries entry.dependencies
    if !succeeded then .error (.skipFailedEntryDependency entryId)
  if postAction.requireDependents then
    let allEntries := s.succeededEntries.spread s.failedEntries
    let succeeded := (checkAllDependentsSucceeded allEntries s.failedEntries
      (allEntries.values.length + 1) entry).run' []
    if !succeeded then .error (.skipFailedEntryDependent entryId)

section
variable (s : ApplyState V) (tasks : Pool PostActionEntry Unit Unit)

/-- The task at `index` comes to `status`. -/
def movePostAction (index : Nat) (status : TaskStatus Unit Unit)
    (happenings : List (Happening V)) : ApplyState V :=
  { s with
    phase := .postActions (setStatus tasks index status)
    history := s.history ++ happenings }

/-- The `catch` branch of `applyPostAction`. Nothing but the failed entries
reads the entry once it is partial. -/
def failPostAction (index : Nat) (entry : EntryState V) (error : EntryError) : ApplyState V :=
  movePostAction { s with
      errorList := s.errorList ++ [error]
      succeededEntries := s.succeededEntries.erase entry.entryId
      failedEntries := s.failedEntries.set { entry with isPartial := some true } }
    tasks index (.settled ()) [.postActionFailed entry.entryId error]

def startPostAction (index : Nat) (postAction : PostActionEntry) (entry : EntryState V) :
    ApplyState V :=
  match checkPostAction s postAction entry with
  | .error error => failPostAction s tasks index entry error
  | .ok () => movePostAction s tasks index (.running ()) [.postActionCalled postAction.entryId]

def postActionThrew (index : Nat) (entry : EntryState V) (thrown : Thrown) : ApplyState V :=
  match thrown.toError? with
  | none => { s with phase := .rejected .notConvertible }
  | some error => failPostAction s tasks index entry error

/-- A warning added now is not read any more, so it is no event. -/
def postActionEvent (d : Deploy V) : ApplyEvent V → Option (ApplyState V)
  | .start => do
    let index ← next? tasks d.options.concurrency
    let task ← tasks[index]?
    let entry ← s.stepEntries.get? task.item.entryId
    return startPostAction s tasks index task.item entry
  | .addWarning _ _ => none
  | .postAction index requireDependents => do
    let (postAction, _) ← running? tasks index
    return { s with
      postActions := s.postActions ++ [{ postAction with requireDependents }]
      history := s.history ++ [.postActionRegistered postAction.entryId] }
  | .returned index _ => do
    let (postAction, _) ← running? tasks index
    return movePostAction s tasks index (.settled ()) [.postActionReturned postAction.entryId]
  | .threw index thrown => do
    let (postAction, _) ← running? tasks index
    let entry ← s.stepEntries.get? postAction.entryId
    return postActionThrew s tasks index entry thrown
  | .finish => if done tasks then some (startPostActions (pushPostActions s)) else none

end

def applyEvent (d : Deploy V) (s : ApplyState V) (event : ApplyEvent V) : Option (ApplyState V) :=
  match s.phase with
  | .steps order tasks => stepEvent d s order tasks event
  | .postActions tasks => postActionEvent s tasks d event
  | .resolved | .rejected _ => none

/-- `applySteps(d.stepList, d.newEntries, d.oldEntries, d.options)`. -/
def applySteps (d : Deploy V) : Machine (ApplyState V) (ApplyEvent V) where
  init := initial d
  step := applyEvent d

/-- `{ ...succeededEntries, ...failedEntries }`. -/
def ApplyState.result (s : ApplyState V) : EntryStates V :=
  s.succeededEntries.spread s.failedEntries

/-! ## What an event does -/

/-- The transitions of `applySteps`, one for each event that can happen in
each of the two phases. -/
inductive Does (d : Deploy V) (s : ApplyState V) : ApplyEvent V → ApplyState V → Prop
  | startStep {order tasks index step} (hphase : s.phase = .steps order tasks)
      (hi : tasks[index]? = some ⟨step, .waiting⟩) :
      Does d s .start (startStep d s order tasks index step)
  | addWarning {order tasks index step message} {warnings : List Warning} (hphase : s.phase = .steps order tasks)
      (hi : tasks[index]? = some ⟨step, .running warnings⟩) :
      Does d s (.addWarning index message)
        (moveStep s order tasks index (.running (warnings ++ [⟨message⟩])) [])
  | registerInStep {order tasks index step warnings requireDependents}
      (hphase : s.phase = .steps order tasks)
      (hi : tasks[index]? = some ⟨step, .running warnings⟩) :
      Does d s (.postAction index requireDependents) { s with
        postActions := s.postActions ++
          [{ requireDependents, action := step.action, entryId := step.entryId }]
        history := s.history ++ [.postActionRegistered step.entryId] }
  | handlerReturned {order tasks index step warnings entry result}
      (hphase : s.phase = .steps order tasks)
      (hi : tasks[index]? = some ⟨step, .running warnings⟩)
      (he : s.stepEntries.get? step.entryId = some entry) :
      Does d s (.returned index result) (handlerReturned s order tasks index step warnings entry result)
  | handlerThrew {order tasks index step warnings thrown} (hphase : s.phase = .steps order tasks)
      (hi : tasks[index]? = some ⟨step, .running warnings⟩) :
      Does d s (.threw index thrown) (handlerThrew d s order tasks index step thrown)
  | finishOrder {order tasks} (hphase : s.phase = .steps order tasks) (hdone : done tasks = true) :
      Does d s .finish (finishOrder d s order tasks)
  | startPostAction {tasks index postAction entry} (hphase : s.phase = .postActions tasks)
      (hi : tasks[index]? = some ⟨postAction, .waiting⟩)
      (he : s.stepEntries.get? postAction.entryId = some entry) :
      Does d s .start (startPostAction s tasks index postAction entry)
  | registerInPostAction {tasks index postAction work requireDependents}
      (hphase : s.phase = .postActions tasks)
      (hi : tasks[index]? = some ⟨postAction, .running work⟩) :
      Does d s (.postAction index requireDependents) { s with
        postActions := s.postActions ++ [{ postAction with requireDependents }]
        history := s.history ++ [.postActionRegistered postAction.entryId] }
  | postActionReturned {tasks index postAction work result} (hphase : s.phase = .postActions tasks)
      (hi : tasks[index]? = some ⟨postAction, .running work⟩) :
      Does d s (.returned index result)
        (movePostAction s tasks index (.settled ()) [.postActionReturned postAction.entryId])
  | postActionThrew {tasks index postAction work entry thrown}
      (hphase : s.phase = .postActions tasks)
      (hi : tasks[index]? = some ⟨postAction, .running work⟩)
      (he : s.stepEntries.get? postAction.entryId = some entry) :
      Does d s (.threw index thrown) (postActionThrew s tasks index entry thrown)
  | finishPostActions {tasks} (hphase : s.phase = .postActions tasks) (hdone : done tasks = true) :
      Does d s .finish (startPostActions (pushPostActions s))

/-- **An event does one of these.** -/
theorem does_of_step {d : Deploy V} {s t : ApplyState V} {e : ApplyEvent V}
    (h : (applySteps d).step s e = some t) : Does d s e t := by
  simp only [applySteps, applyEvent] at h
  split at h
  · rename_i order tasks hphase
    cases e with
    | start =>
      simp only [stepEvent, Option.bind_eq_bind, Option.bind_eq_some_iff, pure,
        Option.some.injEq] at h
      obtain ⟨index, hnext, task, htask, rfl⟩ := h
      obtain ⟨⟨step, status⟩, htask', rfl⟩ := next?_eq_some hnext
      obtain rfl := Option.some.inj (htask.symm.trans htask')
      exact .startStep hphase htask
    | finish =>
      simp only [stepEvent] at h
      split at h
      · rename_i hdone
        simp only [Option.some.injEq] at h
        exact h ▸ .finishOrder hphase hdone
      · cases h
    | returned index result =>
      simp only [stepEvent, Option.bind_eq_bind, Option.bind_eq_some_iff, pure,
        Option.some.injEq] at h
      obtain ⟨⟨step, warnings⟩, hrun, entry, he, rfl⟩ := h
      exact .handlerReturned hphase (running?_eq_some.mp hrun) he
    | addWarning | postAction | threw =>
      simp only [stepEvent, Option.bind_eq_bind, Option.bind_eq_some_iff, pure,
        Option.some.injEq] at h
      obtain ⟨⟨step, warnings⟩, hrun, rfl⟩ := h
      have hi := running?_eq_some.mp hrun
      first
        | exact .addWarning hphase hi
        | exact .registerInStep hphase hi
        | exact .handlerThrew hphase hi
  · rename_i tasks hphase
    cases e with
    | start =>
      simp only [postActionEvent, Option.bind_eq_bind, Option.bind_eq_some_iff, pure,
        Option.some.injEq] at h
      obtain ⟨index, hnext, task, htask, entry, he, rfl⟩ := h
      obtain ⟨⟨postAction, status⟩, htask', rfl⟩ := next?_eq_some hnext
      obtain rfl := Option.some.inj (htask.symm.trans htask')
      exact .startPostAction hphase htask he
    | finish =>
      simp only [postActionEvent] at h
      split at h
      · rename_i hdone
        simp only [Option.some.injEq] at h
        exact h ▸ .finishPostActions hphase hdone
      · cases h
    | addWarning => cases h
    | threw index thrown =>
      simp only [postActionEvent, Option.bind_eq_bind, Option.bind_eq_some_iff, pure,
        Option.some.injEq] at h
      obtain ⟨⟨postAction, work⟩, hrun, entry, he, rfl⟩ := h
      exact .postActionThrew hphase (running?_eq_some.mp hrun) he
    | postAction | returned =>
      simp only [postActionEvent, Option.bind_eq_bind, Option.bind_eq_some_iff, pure,
        Option.some.injEq] at h
      obtain ⟨⟨postAction, work⟩, hrun, rfl⟩ := h
      have hi := running?_eq_some.mp hrun
      first
        | exact .registerInPostAction hphase hi
        | exact .postActionReturned hphase hi
  · cases h
  · cases h

end Ez4.State.Apply

import Ez4.State.Entry

/-! # Planning a deploy

`planSteps` (`plan.ts`): layers of creations by dependencies, then layers of
deletions by dependents, under one order counter. The handlers are functions
of what they are given; one that throws ends the plan. -/
namespace Ez4.State.Plan
open Ez4.Library Ez4.State.Entry

inductive StepAction
  | create | replace | update | delete
deriving DecidableEq, Repr

/-- What the preview of an entry counted. The changes it lists are for the
deploy log only. -/
structure ObjectComparison where
  counts : Int
deriving DecidableEq, Repr

/-- A step state that contains an action to perform. -/
structure StepState where
  action : StepAction
  preview : Option ObjectComparison := none
  entryId : String
  order : Nat
deriving DecidableEq, Repr

structure StepOptions (V : Type) where
  force : Bool
  getDependencies : Option String → Except EntryError (List (EntryState V))

/-- What `equals` answers: a boolean, or a promise of one. -/
inductive EqualsAnswer
  | now (same : Bool)
  | later (same : Bool)
deriving DecidableEq, Repr

/-- The answer as a condition, where a promise is an object and so holds. -/
def EqualsAnswer.truthy : EqualsAnswer → Bool
  | .now same => same
  | .later _ => true

/-- The part of a step handler that planning calls. -/
structure StepHandler (V : Type) where
  equals : EntryState V → EntryState V → Except Thrown EqualsAnswer
  preview : EntryState V → EntryState V → StepOptions V → Except Thrown (Option ObjectComparison)

/-- All the step handlers mapped by type. -/
abbrev StepHandlers (V : Type) := String → Option (StepHandler V)

structure PlanOptions (V : Type) where
  handlers : StepHandlers V
  force : Bool := false

variable {V : Type}

/-- `set.add(id)`, with a `Set` as its elements in insertion order. -/
def addId (set : List String) (id : String) : List String :=
  if set.contains id then set else set ++ [id]

def findPendingChanges (entryList : List (EntryState V)) (visitSet : List String) :
    List (EntryState V) :=
  Layering.ready EntryState.entryId EntryState.dependencies entryList visitSet

def findPendingRemoval (entryList : List (HydratedEntryState V)) (visitSet : List String) :
    List (HydratedEntryState V) :=
  Layering.ready (·.entryId) HydratedEntryState.dependents entryList visitSet

def getPreviewEntries (newEntries : EntryStates V) (rewrittenSet : List String) : EntryStates V :=
  rewrittenSet.foldl (fun previewEntries entryId =>
    match previewEntries.get? entryId with
    | some entry => previewEntries.set { entry with result := none }
    | none => previewEntries) newEntries

/-- What the creation loop carries: the steps so far and the two sets. -/
structure Changes where
  steps : List StepState := []
  visitSet : List String := []
  rewrittenSet : List String := []
deriving DecidableEq, Repr

/-- One entry of `planPendingChanges`. -/
def planPendingChange (newEntries : EntryStates V) (oldEntries : Option (EntryStates V))
    (handlers : StepHandlers V) (order : Nat) (force : Bool) (changes : Changes)
    (candidate : EntryState V) : Except Thrown Changes :=
  let entryId := candidate.entryId
  match handlers candidate.type with
  | none => .error (.error (.handlerNotFound candidate.type entryId))
  | some handler =>
    let visitSet := addId changes.visitSet entryId
    let rewrite (step : StepState) : Changes :=
      { steps := changes.steps ++ [step], visitSet,
        rewrittenSet := addId changes.rewrittenSet entryId }
    match oldEntries.bind (·.get? entryId) with
    | none => .ok (rewrite { action := .create, entryId, order })
    | some current =>
      if candidate.type ≠ current.type then
        .ok (rewrite { action := .replace, entryId, order })
      else do
        let preview ← handler.preview candidate current {
          force
          getDependencies := fun dependencyType =>
            getEntryDependencies (getPreviewEntries newEntries changes.rewrittenSet) candidate
              dependencyType }
        let same ← handler.equals candidate current
        if !same.truthy then
          .ok (rewrite { action := .replace, entryId, order, preview })
        else
          .ok { changes with
            steps := changes.steps ++ [{ action := .update, entryId, order, preview }], visitSet }

def planPendingChanges (entryList : List (EntryState V)) (newEntries : EntryStates V)
    (oldEntries : Option (EntryStates V)) (handlers : StepHandlers V) (order : Nat) (force : Bool)
    (changes : Changes) : Except Thrown Changes :=
  entryList.foldlM (planPendingChange newEntries oldEntries handlers order force) changes

/-- The creation loop of `planSteps`, a round for each unit of fuel. Every
round visits an entry, so as many rounds as entries end it. -/
def planChanges (newEntryList : List (EntryState V)) (newEntries : EntryStates V)
    (oldEntries : Option (EntryStates V)) (options : PlanOptions V) :
    Nat → Nat → Changes → Except Thrown (Changes × Nat)
  | 0, actionOrder, changes => .ok (changes, actionOrder)
  | fuel + 1, actionOrder, changes =>
    let entries := findPendingChanges newEntryList changes.visitSet
    if entries.isEmpty then .ok (changes, actionOrder)
    else do
      let changes ← planPendingChanges entries newEntries oldEntries options.handlers actionOrder
        options.force changes
      planChanges newEntryList newEntries oldEntries options fuel (actionOrder + 1) changes

def planPendingRemoval (entryList : List (HydratedEntryState V)) (order : Nat) : List StepState :=
  entryList.map fun entry => { action := .delete, entryId := entry.entryId, order }

/-- The deletion loop of `planSteps`: the steps and the visited ids. -/
def planRemovals (oldEntryList : List (HydratedEntryState V)) :
    Nat → Nat → List String → List StepState × List String
  | 0, _, visitSet => ([], visitSet)
  | fuel + 1, actionOrder, visitSet =>
    let entries := findPendingRemoval oldEntryList visitSet
    if entries.isEmpty then ([], visitSet)
    else
      let (steps, visitSet) := planRemovals oldEntryList fuel (actionOrder + 1)
        ((entries.map (·.entryId)).foldl addId visitSet)
      (planPendingRemoval entries actionOrder ++ steps, visitSet)

/-- One id of `combineEntryMaps`. -/
def combineEntry (targetMap sourceMap tmpEntries : EntryStates V) (entryId : String) :
    EntryStates V :=
  match targetMap.get? entryId, sourceMap.get? entryId with
  | some targetEntry, _ => tmpEntries.set targetEntry
  | none, some sourceEntry => tmpEntries.set sourceEntry
  | none, none => tmpEntries

/-- Entries from both maps, with the `target` entry where both have one. -/
def combineEntryMaps (targetMap sourceMap : EntryStates V) : EntryStates V :=
  ((targetMap.keys ++ sourceMap.keys).foldl addId []).foldl (combineEntry targetMap sourceMap) ∅

def combinedEntryMap (newEntries : Option (EntryStates V)) (oldEntries : EntryStates V) :
    EntryStates V :=
  match newEntries with
  | some newEntries => combineEntryMaps newEntries oldEntries
  | none => oldEntries

/-- The creation half of `planSteps`: the changes and the next order. -/
def planCreationSteps (newEntries : EntryStates V) (oldEntries : Option (EntryStates V))
    (options : PlanOptions V) : Except Thrown (Changes × Nat) := do
  let newEntryList := newEntries.values
  let (changes, actionOrder) ← planChanges newEntryList newEntries oldEntries options
    newEntryList.length 0 {}
  if newEntryList.length ≠ changes.visitSet.length then
    .error (.error (.corruptedStateReferences newEntryList.length changes.visitSet.length))
  else
    .ok (changes, actionOrder)

/-- The deletion half of `planSteps`. -/
def planDeletionSteps (newEntries : Option (EntryStates V)) (oldEntries : EntryStates V)
    (newEntrySet : List String) (actionOrder : Nat) : Except Thrown (List StepState) := do
  let hydratedEntryMap ← (hydrateState (combinedEntryMap newEntries oldEntries)).mapError .error
  let oldEntryList := hydratedEntryMap.values.filter fun entry =>
    !newEntrySet.contains entry.entryId
  let (steps, oldEntrySet) := planRemovals oldEntryList oldEntryList.length actionOrder []
  if oldEntryList.length ≠ oldEntrySet.length then
    .error (.error (.corruptedStateReferences oldEntryList.length oldEntrySet.length))
  else
    .ok steps

def planSteps (newEntries oldEntries : Option (EntryStates V)) (options : PlanOptions V) :
    Except Thrown (List StepState) :=
  match newEntries, oldEntries with
  | none, none => .error (.error .entriesNotFound)
  | some newEntries, none => do
    let (changes, _) ← planCreationSteps newEntries none options
    return changes.steps
  | none, some oldEntries => planDeletionSteps none oldEntries [] 0
  | some newEntries, some oldEntries => do
    let (changes, actionOrder) ← planCreationSteps newEntries (some oldEntries) options
    let deletionSteps ← planDeletionSteps (some newEntries) oldEntries changes.visitSet actionOrder
    return changes.steps ++ deletionSteps

end Ez4.State.Plan

import Ez4.State.ApplyInvariant

/-! # The state a deploy leaves

What `applySteps` returns when it resolves: which entries are in it, what a
failed step leaves, and when the result can be planned again. -/
namespace Ez4.State.ApplyResult
open Ez4.Library Ez4.State.Entry Ez4.State.Plan Ez4.State.PlanSoundness Ez4.State.Apply
  Ez4.State.ApplyInvariant Ez4.Utils.Tasks

variable {V : Type}

/-- The steps of the deploy are a plan of its maps. -/
def Planned (d : Deploy V) (options : PlanOptions V) : Prop :=
  planSteps d.newEntries d.oldEntries options = .ok d.stepList

theorem Planned.isPlan {d : Deploy V} {options : PlanOptions V} (h : Planned d options) :
    IsPlan d.allNewEntries d.allOldEntries d.stepList := (planSteps_ok h).1

/-- The deploy resolved in this state. -/
structure Resolves (d : Deploy V) (s : ApplyState V) : Prop where
  reachable : (applySteps d).Reachable s
  phase : s.phase = .resolved

theorem Resolves.inv {d : Deploy V} {s : ApplyState V} {options : PlanOptions V}
    (h : Resolves d s) (hplan : Planned d options) : PostActionsInv d s [] := by
  have := inv_of_reachable hplan.isPlan h.reachable
  unfold ApplyInvariant.Inv at this
  rw [h.phase] at this
  exact this

/-! ## Sample deploys -/

/-- The state after some events, for those that can happen. -/
def stateAfter (d : Deploy V) (events : List (ApplyEvent V)) : ApplyState V :=
  ((applySteps d).run events (initial d)).getD (initial d)

theorem reachable_stateAfter {d : Deploy V} {events : List (ApplyEvent V)}
    (h : ((applySteps d).run events (initial d)).isSome) :
    (applySteps d).Reachable (stateAfter d events) := by
  obtain ⟨s, hs⟩ := Option.isSome_iff_exists.mp h
  exact ⟨events, by rw [stateAfter, hs]; exact hs⟩

/-- A handler that never finds a change. -/
def quietHandler : StepHandler Nat :=
  { equals := fun _ _ => .ok (.now true), preview := fun _ _ _ => .ok none }

def quietHandlers : PlanOptions Nat := { handlers := fun _ => some quietHandler }

def sampleEntry (entryId : String) (dependencies : List String) : EntryState Nat :=
  { type := "bucket", entryId, dependencies, parameters := 0 }

/-- Removes `b` and then `a`, which it rests on. -/
def removal : Deploy Nat where
  stepList := [{ action := .delete, entryId := "b", order := 0 },
    { action := .delete, entryId := "a", order := 1 }]
  newEntries := some ∅
  oldEntries := some (((∅ : EntryStates Nat).set (sampleEntry "a" [])).set (sampleEntry "b" ["a"]))
  options := { handlers := quietHandlers.handlers }

theorem removal_planned : Planned removal quietHandlers := by
  unfold Planned
  decide

theorem removal_old : Closed removal.allOldEntries ∧ Acyclic removal.allOldEntries :=
  (planSteps_again_iff quietHandlers).mp ⟨removal.stepList, by decide⟩

/-- Both handlers return, and nothing else happens. -/
def quietRemoval : List (ApplyEvent Nat) :=
  [.start, .returned 0 none, .finish, .start, .returned 0 none, .finish]

theorem quietRemoval_resolves : Resolves removal (stateAfter removal quietRemoval) :=
  ⟨reachable_stateAfter (by decide), by decide⟩

/-- Creates `a`. -/
def creation : Deploy Nat where
  stepList := [{ action := .create, entryId := "a", order := 0 }]
  newEntries := some ((∅ : EntryStates Nat).set (sampleEntry "a" []))
  oldEntries := none
  options := { handlers := quietHandlers.handlers }

theorem creation_planned : Planned creation quietHandlers := by
  unfold Planned
  decide

/-! ## The calls of the handlers -/

/-- **Handlers only run when what they rest on is in place**, in every run. -/
theorem handlers_called_in_turn {d : Deploy V} {s : ApplyState V} {options : PlanOptions V}
    (hplan : Planned d options) (hs : (applySteps d).Reachable s) (past : List (Happening V))
    (action : StepAction) (id : String) (future : List (Happening V))
    (hcall : s.history = past ++ .handlerCalled action id :: future) : CallOk d past action id :=
  callsOk_of_reachable hplan.isPlan hs past action id future hcall

/-- The handler of `a` is called once that of `b` returned. -/
theorem removal_called_in_turn :
    CallOk removal ((stateAfter removal quietRemoval).history.take 3) .delete "a" :=
  handlers_called_in_turn removal_planned quietRemoval_resolves.reachable _ _ _
    ((stateAfter removal quietRemoval).history.drop 4) (by decide)

/-! ## What the steps leave -/

section
variable {d : Deploy V} {s : ApplyState V} {pending : List PostActionEntry}

/-- Every step settled: what it left is in the result, unless a failed post
action put its entry back. -/
theorem result_of_step (h : PostActionsInv d s pending) {step : StepState} (hs : step ∈ d.stepList) :
    ∃ candidate outcome, StatusOk d s step (.settled outcome) candidate ∧
      (¬ PostActionFailed s.history step.entryId → s.result.get? step.entryId = outcome.entry) ∧
      (PostActionFailed s.history step.entryId → ∃ entry,
        s.stepEntries.get? step.entryId = some entry ∧
          s.result.get? step.entryId = some { entry with isPartial := some true }) := by
  obtain ⟨c, o, hok, hrec⟩ := h.recorded step hs
  refine ⟨c, o, hok, fun hf => ?_, fun hf => ?_⟩
  · obtain ⟨hsucceeded, hfailed⟩ := hrec.kept hf
    rw [ApplyState.result, KeyedMap.get?_spread, hsucceeded, hfailed]
    obtain ⟨entry, issues⟩ := o
    cases issues <;> simp [StepOutcome.succeeded, StepOutcome.failed]
  · obtain ⟨-, entry, he, hfailed⟩ := hrec.putBack hf
    exact ⟨entry, he, by rw [ApplyState.result, KeyedMap.get?_spread, hfailed, Option.some_or]⟩

theorem result_of_no_step (h : PostActionsInv d s pending) {id : String}
    (hid : id ∉ d.stepList.map StepState.entryId) : s.result.get? id = none := by
  obtain ⟨h1, h2⟩ := h.unrecorded id hid
  rw [ApplyState.result, KeyedMap.get?_spread, h1, h2]
  rfl

/-- A registered post action was called or failed by the end. -/
theorem called_or_failed (h : PostActionsInv d s []) {id : String}
    (hr : .postActionRegistered id ∈ s.history) :
    .postActionCalled id ∈ s.history ∨ PostActionFailed s.history id := by
  rcases h.postActions.processed id hr with ⟨p, hp, -⟩ | h
  · cases hp
  · exact h

/-- What a step's own log tells, in the whole history. -/
theorem mem_history_iff {history log : List (Happening V)} {id : String} {x : Happening V}
    (hlog : stepLog history id = log) (hx : isStepOf id x = true) : x ∈ history ↔ x ∈ log := by
  rw [← hlog, mem_stepLog, and_iff_left hx]

/-- The step of an id has post actions only if its handler was called. -/
theorem called_of_postActionFailed (h : PostActionsInv d s pending) {id : String}
    (hf : PostActionFailed s.history id) : ∃ a, .handlerCalled a id ∈ s.history :=
  h.postActions.handler id (h.postActions.failed id hf)

/-! ## A failed step -/

/-- **What a failed step leaves.** -/
theorem result_of_failed (h : PostActionsInv d s []) {step : StepState} {candidate : EntryState V}
    (hs : step ∈ d.stepList) (hc : candidate? d step = some candidate)
    {saved : Option (EntryState V)} {error : EntryError}
    (hm : .stepFinished step.entryId { entry := saved, issues := .error error } ∈ s.history) :
    (.postActionRegistered step.entryId ∉ s.history →
      s.result.get? step.entryId = d.allOldEntries.get? step.entryId) ∧
    (.postActionRegistered step.entryId ∈ s.history →
      s.result.get? step.entryId = some { candidate with isPartial := some true }) := by
  obtain ⟨c, o, hok, hkept, hput⟩ := result_of_step h hs
  obtain rfl : c = candidate := Option.some.inj (hok.starts.symm.trans hc)
  have hrolled := hok.rolledBack hm
  have hout := hok.finished_iff.mp hm
  constructor
  · intro hnot
    rw [hkept fun hf => hnot (h.postActions.failed _ hf), ← hout, hrolled]
  · intro hr
    have hf : PostActionFailed s.history step.entryId := by
      rcases called_or_failed h hr with hcalled | hf
      · exact absurd hm (h.called _ hcalled saved error)
      · exact hf
    obtain ⟨entry, hentry, hresult⟩ := hput hf
    obtain ⟨a, ha⟩ := h.postActions.handler _ hr
    rw [hresult]
    obtain ⟨-, -, hl⟩ := hok
    subst hout
    generalize hlog : stepLog s.history step.entryId = log at hl
    have hcalled := (mem_history_iff hlog (by simp [isStepOf])).mp ha
    generalize hst : (TaskStatus.settled { entry := saved, issues := Issues.error error } :
      TaskStatus (List Warning) (StepOutcome V)) = status at hl
    cases hl with
    | threw _ he =>
      rw [hentry, Option.some.injEq] at he
      rw [he]
    | skipped => simp at hcalled
    | waiting | running | unchanged | deleted => simp at hst
    | saved | notDeleted =>
      simp only [savedOutcome, TaskStatus.settled.injEq, StepOutcome.mk.injEq] at hst
      have := hst.2
      split at this <;> cases this

/-- The handler of the entry's step threw, or the step was skipped. -/
def StepFailed (history : List (Happening V)) (id : String) : Prop :=
  ∃ saved error, .stepFinished id { entry := saved, issues := .error error } ∈ history

/-- **A failed step is rolled back exactly** when its handler registered no
post action, or the old entry is what the post action leaves. -/
theorem result_eq_old_iff {options : PlanOptions V} (hplan : Planned d options)
    (hs : Resolves d s) (step : StepState) (hstep : step ∈ d.stepList)
    (hfailed : StepFailed s.history step.entryId) :
    s.result.get? step.entryId = d.allOldEntries.get? step.entryId ↔
      .postActionRegistered step.entryId ∉ s.history ∨
        d.allOldEntries.get? step.entryId =
          (candidate? d step).map fun candidate => { candidate with isPartial := some true } := by
  obtain ⟨saved, error, hm⟩ := hfailed
  obtain ⟨candidate, hc⟩ := candidate?_isSome hplan.isPlan hstep
  obtain ⟨hnot, hreg⟩ := result_of_failed (hs.inv hplan) hstep hc hm
  rw [hc, Option.map_some]
  constructor
  · intro he
    by_cases hr : .postActionRegistered step.entryId ∈ s.history
    · exact .inr (he.symm.trans (hreg hr))
    · exact .inl hr
  · rintro (hr | he)
    · exact hnot hr
    · by_cases hr : .postActionRegistered step.entryId ∈ s.history
      · exact (hreg hr).trans he.symm
      · exact hnot hr

/-- A handler that throws leaves nothing of a new entry. -/
theorem creation_rolled_back :
    (stateAfter creation [.start, .threw 0 (.error (.custom "denied")), .finish]).result.get? "a" =
      creation.allOldEntries.get? "a" :=
  (result_eq_old_iff creation_planned ⟨reachable_stateAfter (by decide), by decide⟩
    { action := .create, entryId := "a", order := 0 } (by decide)
    ⟨none, .custom "denied", by decide⟩).mpr (.inl (by decide))

/-- One that registers a post action before it throws leaves a partial entry. -/
theorem creation_not_rolled_back : Planned creation quietHandlers ∧
    ∃ s, Resolves creation s ∧ .handlerThrew "a" (.error (.custom "denied")) ∈ s.history ∧
      creation.allOldEntries.get? "a" = none ∧
      s.result.get? "a" = some { sampleEntry "a" [] with isPartial := some true } :=
  ⟨creation_planned,
    stateAfter creation [.start, .postAction 0 false, .threw 0 (.error (.custom "denied")),
      .finish, .start, .finish],
    ⟨reachable_stateAfter (by decide), by decide⟩, by decide, by decide, by decide⟩

end

/-! ## What the log of a settled step tells -/

section
variable {d : Deploy V} {s : ApplyState V} {step : StepState} {candidate : EntryState V}
  {outcome : StepOutcome V}

theorem returned_unique (h : StatusOk d s step (.settled outcome) candidate) {w w' : Bool}
    (hw : .handlerReturned step.entryId w ∈ s.history)
    (hw' : .handlerReturned step.entryId w' ∈ s.history) : w = w' := by
  obtain ⟨-, -, hl⟩ := h
  generalize hlog : stepLog s.history step.entryId = log at hl
  rw [mem_history_iff hlog (by simp [isStepOf])] at hw hw'
  cases hl <;> simp_all

theorem not_threw_of_returned (h : StatusOk d s step (.settled outcome) candidate) {w : Bool}
    (hw : .handlerReturned step.entryId w ∈ s.history) (thrown : Thrown) :
    .handlerThrew step.entryId thrown ∉ s.history := by
  intro ht
  obtain ⟨-, -, hl⟩ := h
  generalize hlog : stepLog s.history step.entryId = log at hl
  rw [mem_history_iff hlog (by simp [isStepOf])] at hw ht
  cases hl <;> simp_all

theorem called_of_returned (h : StatusOk d s step (.settled outcome) candidate) {w : Bool}
    (hw : .handlerReturned step.entryId w ∈ s.history) :
    .handlerCalled step.action step.entryId ∈ s.history := by
  obtain ⟨-, -, hl⟩ := h
  generalize hlog : stepLog s.history step.entryId = log at hl
  rw [mem_history_iff hlog (by simp [isStepOf])] at hw ⊢
  cases hl <;> simp_all

theorem action_of_called (h : StatusOk d s step (.settled outcome) candidate) {a : StepAction}
    (ha : .handlerCalled a step.entryId ∈ s.history) : a = step.action := by
  obtain ⟨-, -, hl⟩ := h
  generalize hlog : stepLog s.history step.entryId = log at hl
  rw [mem_history_iff hlog (by simp [isStepOf])] at ha
  cases hl <;> simp_all

theorem not_returned_of_failed (h : StatusOk d s step (.settled outcome) candidate)
    (hf : StepFailed s.history step.entryId) (w : Bool) :
    .handlerReturned step.entryId w ∉ s.history := by
  intro hw
  obtain ⟨saved, error, hm⟩ := hf
  obtain ⟨-, -, hl⟩ := h
  generalize hlog : stepLog s.history step.entryId = log at hl
  rw [mem_history_iff hlog (by simp [isStepOf])] at hw hm
  cases hl with
  | unchanged | skipped | threw => simp at hw
  | deleted => simp at hm
  | saved | notDeleted =>
    simp only [savedOutcome, List.mem_cons, Happening.stepFinished.injEq, StepOutcome.mk.injEq,
      reduceCtorEq, List.not_mem_nil, true_and, false_or, or_false] at hm
    have := hm.2
    split at this <;> cases this

end

/-! ## The fate of an entry -/

/-- What becomes of the entry of a step. -/
inductive Fate (d : Deploy V) (s : ApplyState V) (step : StepState) (candidate : EntryState V) : Prop
  /-- It has its new dependencies, all of them clean. -/
  | current {entry : EntryState V} (ha : step.action ≠ .delete)
      (he : s.result.get? step.entryId = some entry)
      (hdependencies : entry.dependencies = candidate.dependencies)
      (hclean : ∀ x ∈ candidate.dependencies, Clean s.history x)
  /-- It is as it was, up to the mark of a partial apply. -/
  | rolledBack (hfailed : StepFailed s.history step.entryId)
      (hsame : (s.result.get? step.entryId).map EntryState.dependencies =
        (d.allOldEntries.get? step.entryId).map EntryState.dependencies)
  | gone (ha : step.action = .delete) (hreturned : .handlerReturned step.entryId false ∈ s.history)
      (hnot : ¬ PostActionFailed s.history step.entryId)
      (he : s.result.get? step.entryId = none)
  /-- It was deleted, and a failed post action put it back. -/
  | putBack (ha : step.action = .delete)
      (hreturned : .handlerReturned step.entryId false ∈ s.history)
      (hf : PostActionFailed s.history step.entryId)
      (he : s.result.get? step.entryId = some { candidate with isPartial := some true })
  | notDeleted {entry : EntryState V} (ha : step.action = .delete)
      (hreturned : .handlerReturned step.entryId true ∈ s.history)
      (he : s.result.get? step.entryId = some entry)
      (hdependencies : ∀ x ∈ entry.dependencies, x ∈ candidate.dependencies ∧
        (d.allNewEntries.has x = true ∨ Kept s.history x))

theorem fate_of_step {d : Deploy V} {s : ApplyState V} {pending : List PostActionEntry}
    (h : PostActionsInv d s pending) {step : StepState} (hs : step ∈ d.stepList) :
    ∃ candidate, candidate? d step = some candidate ∧ Fate d s step candidate := by
  obtain ⟨c, o, hok, hkept, hput⟩ := result_of_step h hs
  refine ⟨c, hok.starts, ?_⟩
  have hfin := hok.finished_iff.mpr rfl
  have hstarts := hok.starts
  obtain ⟨-, -, hl⟩ := hok
  generalize hlog : stepLog s.history step.entryId = log at hl
  have hmem : ∀ x ∈ log, x ∈ s.history := fun x hx => (mem_stepLog.mp (hlog ▸ hx)).1
  -- a step whose handler was not called has no post action
  have hquiet : (∀ a, .handlerCalled a step.entryId ∉ log) →
      ¬ PostActionFailed s.history step.entryId := by
    intro hnot hf
    obtain ⟨a, ha⟩ := called_of_postActionFailed h hf
    exact hnot a ((mem_history_iff hlog (by simp [isStepOf])).mp ha)
  cases hl with
  | unchanged ha hid hd hclean => exact .current ha (hkept (hquiet (by simp))) hd hclean
  | @saved entry warnings ha hentry hid hd hclean =>
    by_cases hf : PostActionFailed s.history step.entryId
    · obtain ⟨e, he, hresult⟩ := hput hf
      obtain rfl := Option.some.inj (he.symm.trans hentry)
      exact .current ha hresult hd hclean
    · exact .current ha (hkept hf) hd hclean
  | deleted ha hentry =>
    by_cases hf : PostActionFailed s.history step.entryId
    · obtain ⟨e, he, hresult⟩ := hput hf
      obtain rfl := Option.some.inj (he.symm.trans hentry)
      exact .putBack ha (hmem _ (by simp)) hf hresult
    · exact .gone ha (hmem _ (by simp)) hf (hkept hf)
  | notDeleted ha hw hentry hid hd =>
    by_cases hf : PostActionFailed s.history step.entryId
    · obtain ⟨e, he, hresult⟩ := hput hf
      obtain rfl := Option.some.inj (he.symm.trans hentry)
      exact .notDeleted ha (hmem _ (by simp)) hresult hd
    · exact .notDeleted ha (hmem _ (by simp)) (hkept hf) hd
  | skipped => exact .rolledBack ⟨_, _, hfin⟩ (by rw [hkept (hquiet (by simp))]; rfl)
  | threw ht hentry hclean =>
    by_cases hf : PostActionFailed s.history step.entryId
    · obtain ⟨e, he, hresult⟩ := hput hf
      obtain rfl := Option.some.inj (he.symm.trans hentry)
      by_cases ha : step.action = .delete
      · rw [candidate?, if_neg (not_not.mpr ha)] at hstarts
        exact .rolledBack ⟨_, _, hfin⟩ (by rw [hresult, hstarts]; rfl)
      · exact .current ha hresult rfl (hclean ha)
    · exact .rolledBack ⟨_, _, hfin⟩ (by rw [hkept hf]; rfl)

/-! ## No resource is forgotten and none is invented -/

/-- What the result keeps of the handlers' work. -/
structure ResourcesKept (d : Deploy V) (s : ApplyState V) : Prop where
  /-- What a handler created, updated or replaced is there. -/
  saved : ∀ id action warned, action ≠ .delete → .handlerCalled action id ∈ s.history →
    .handlerReturned id warned ∈ s.history → s.result.has id = true
  /-- What may still exist is there. -/
  notDeleted : ∀ id, d.allOldEntries.has id = true →
    (.handlerCalled .delete id ∉ s.history ∨ (∃ thrown, .handlerThrew id thrown ∈ s.history) ∨
      .handlerReturned id true ∈ s.history) → s.result.has id = true
  deleted : ∀ id, d.allOldEntries.has id = true → d.allNewEntries.has id = false →
    .handlerReturned id false ∈ s.history → ¬ PostActionFailed s.history id →
    s.result.has id = false
  known : ∀ id, s.result.has id = true →
    d.allOldEntries.has id = true ∨ d.allNewEntries.has id = true

section
variable {d : Deploy V} {s : ApplyState V} {pending : List PostActionEntry}
  (hplan : IsPlan d.allNewEntries d.allOldEntries d.stepList) (h : PostActionsInv d s pending)
include hplan

theorem step_of_old {id : String} (ho : d.allOldEntries.has id = true) :
    ∃ step ∈ d.stepList, step.entryId = id := by
  cases hn : d.allNewEntries.has id with
  | true =>
    obtain ⟨step, hs, hid, -⟩ := (hplan.saves id).mpr hn
    exact ⟨step, hs, hid⟩
  | false =>
    obtain ⟨step, hs, hid, -⟩ := (hplan.removes id).mpr ⟨ho, hn⟩
    exact ⟨step, hs, hid⟩

include h

/-- An old entry is gone exactly when its handler deleted it for good. -/
theorem result_has_eq_false_iff {id : String} (ho : d.allOldEntries.has id = true) :
    s.result.has id = false ↔ d.allNewEntries.has id = false ∧
      .handlerReturned id false ∈ s.history ∧ ¬ PostActionFailed s.history id := by
  obtain ⟨step, hs, rfl⟩ := step_of_old hplan ho
  obtain ⟨_, outcome, hok, _⟩ := h.recorded step hs
  obtain ⟨c, hc, hfate⟩ := fate_of_step h hs
  have hnew : step.action ≠ .delete → d.allNewEntries.has step.entryId = true :=
    fun ha => (hplan.saves _).mp ⟨step, hs, rfl, ha⟩
  cases hfate with
  | current ha he =>
    rw [hnew ha, KeyedMap.has, he]
    simp
  | rolledBack hfailed hsame =>
    have hhas : s.result.has step.entryId = true := by
      have := congrArg Option.isSome hsame
      rw [Option.isSome_map, Option.isSome_map] at this
      exact this.trans ho
    have hnot := not_returned_of_failed hok hfailed false
    rw [hhas]
    simp [hnot]
  | gone ha hreturned hnot he =>
    have := ((hplan.removes _).mp ⟨step, hs, rfl, ha⟩).2
    rw [KeyedMap.has, he]
    simp [this, hreturned, hnot]
  | putBack ha _ hf he =>
    rw [KeyedMap.has, he]
    simp [hf]
  | notDeleted ha hreturned he =>
    have hnot : .handlerReturned step.entryId false ∉ s.history := fun hw => by
      have := returned_unique hok hw hreturned
      cases this
    rw [KeyedMap.has, he]
    simp [hnot]

theorem resourcesKept : ResourcesKept d s := by
  have hstep : ∀ id x, x ∈ s.history → isStepOf id x = true →
      ∃ step ∈ d.stepList, step.entryId = id := fun id x hx hi =>
    List.mem_map.mp (h.about _ (List.ne_nil_of_mem (mem_stepLog.mpr ⟨hx, hi⟩)))
  refine ⟨fun id action warned ha hcalled hreturned => ?_, fun id ho hcase => ?_,
    fun id ho hn hreturned hf => ?_, fun id hid => ?_⟩
  · obtain ⟨step, hs, rfl⟩ := hstep id _ hcalled (by simp [isStepOf])
    obtain ⟨_, outcome, hok, _⟩ := h.recorded step hs
    have hact := action_of_called hok hcalled
    obtain ⟨c, -, hfate⟩ := fate_of_step h hs
    cases hfate with
    | current _ he => exact KeyedMap.has_iff.mpr ⟨_, he⟩
    | rolledBack hfailed => exact absurd hreturned (not_returned_of_failed hok hfailed warned)
    | gone hd | putBack hd | notDeleted hd => exact absurd (hact.trans hd) ha
  · obtain ⟨step, hs, rfl⟩ := step_of_old hplan ho
    obtain ⟨_, outcome, hok, _⟩ := h.recorded step hs
    by_contra hnot
    obtain ⟨hn, hreturned, -⟩ := (result_has_eq_false_iff hplan h ho).mp (by simpa using hnot)
    rcases hcase with hcase | ⟨thrown, hcase⟩ | hcase
    · have ha : step.action = .delete := by
        by_contra ha
        have := (hplan.saves _).mp ⟨step, hs, rfl, ha⟩
        rw [hn] at this
        cases this
      exact hcase (ha ▸ called_of_returned hok hreturned)
    · exact not_threw_of_returned hok hreturned thrown hcase
    · have := returned_unique hok hreturned hcase
      cases this
  · exact (result_has_eq_false_iff hplan h ho).mpr ⟨hn, hreturned, hf⟩
  · by_cases hm : id ∈ d.stepList.map StepState.entryId
    · obtain ⟨step, hs, rfl⟩ := List.mem_map.mp hm
      by_cases ha : step.action = .delete
      · exact .inl ((hplan.removes _).mp ⟨step, hs, rfl, ha⟩).1
      · exact .inr ((hplan.saves _).mp ⟨step, hs, rfl, ha⟩)
    · rw [KeyedMap.has, result_of_no_step h hm] at hid
      cases hid

end

/-- **No resource is forgotten and none is invented.** -/
theorem applySteps_keeps_resources {d : Deploy V} {s : ApplyState V} {options : PlanOptions V}
    (hplan : Planned d options) (hs : Resolves d s) : ResourcesKept d s :=
  resourcesKept hplan.isPlan (hs.inv hplan)

theorem removal_keeps_resources : ResourcesKept removal (stateAfter removal quietRemoval) :=
  applySteps_keeps_resources removal_planned quietRemoval_resolves

/-! ## The result can be planned again -/

/-- The handler deleted the entry, without a warning. -/
structure Deleted (d : Deploy V) (s : ApplyState V) (id : String) : Prop where
  removed : d.allNewEntries.has id = false
  returned : .handlerReturned id false ∈ s.history

/-- The entry is in the result with its new dependencies, all of them clean. -/
def Current (d : Deploy V) (s : ApplyState V) (id : String) : Prop :=
  ∃ entry candidate, s.result.get? id = some entry ∧ d.allNewEntries.get? id = some candidate ∧
    entry.dependencies = candidate.dependencies ∧ ∀ x ∈ candidate.dependencies, Clean s.history x

section
variable {d : Deploy V} {s : ApplyState V} {pending : List PostActionEntry}
  (hplan : IsPlan d.allNewEntries d.allOldEntries d.stepList) (h : PostActionsInv d s pending)

include h in
theorem current_of_clean {id : String} (hc : Clean s.history id) : Current d s id := by
  obtain ⟨entry, hm⟩ := hc
  obtain ⟨step, hs, rfl⟩ := List.mem_map.mp (h.about id (mem_stepLog_of_finished hm))
  obtain ⟨_, outcome, hok, _⟩ := h.recorded step hs
  obtain ⟨ha, -⟩ := hok.clean ⟨entry, hm⟩
  obtain ⟨c, hcand, hfate⟩ := fate_of_step h hs
  rw [candidate?, if_pos ha] at hcand
  cases hfate with
  | current _ he hd hclean => exact ⟨_, c, he, hcand, hd, hclean⟩
  | rolledBack hfailed =>
    obtain ⟨saved, error, hm'⟩ := hfailed
    have := (hok.finished_iff.mp hm).trans (hok.finished_iff.mp hm').symm
    simp at this
  | gone hd | putBack hd | notDeleted hd => exact absurd hd ha

include h in
/-- A dependency in the result is a clean one of a current entry, or an old one. -/
theorem dependsOn_result {x y : String} (hd : DependsOn s.result x y) :
    (Current d s x ∧ Clean s.history y ∧ DependsOn d.allNewEntries x y) ∨
      DependsOn d.allOldEntries x y := by
  obtain ⟨entry, hentry, hy⟩ := dependsOn_iff.mp hd
  have hm : x ∈ d.stepList.map StepState.entryId := by
    by_contra hm
    rw [result_of_no_step h hm] at hentry
    cases hentry
  obtain ⟨step, hs, rfl⟩ := List.mem_map.mp hm
  obtain ⟨c, hcand, hfate⟩ := fate_of_step h hs
  unfold candidate? at hcand
  cases hfate with
  | current ha he hdeps hclean =>
    rw [if_pos ha] at hcand
    obtain rfl := Option.some.inj (hentry.symm.trans he)
    rw [hdeps] at hy
    exact .inl ⟨⟨_, c, he, hcand, hdeps, hclean⟩, hclean y hy, dependsOn_iff.mpr ⟨c, hcand, hy⟩⟩
  | rolledBack hfailed hsame =>
    rw [hentry, Option.map_some] at hsame
    obtain ⟨old, hold, hdeps⟩ := Option.map_eq_some_iff.mp hsame.symm
    exact .inr (dependsOn_iff.mpr ⟨old, hold, hdeps ▸ hy⟩)
  | gone ha _ _ he => rw [he] at hentry; cases hentry
  | putBack ha _ _ he =>
    rw [if_neg (not_not.mpr ha)] at hcand
    obtain rfl := Option.some.inj (hentry.symm.trans he)
    exact .inr (dependsOn_iff.mpr ⟨c, hcand, hy⟩)
  | notDeleted ha _ he hdeps =>
    rw [if_neg (not_not.mpr ha)] at hcand
    obtain rfl := Option.some.inj (hentry.symm.trans he)
    exact .inr (dependsOn_iff.mpr ⟨c, hcand, (hdeps y hy).1⟩)

include h in
/-- From a current entry the result only leads to current entries, over new
dependencies. -/
theorem current_of_transGen (hdisjoint : ∀ x, Current d s x → ∀ y, DependsOn s.result x y →
      Clean s.history y ∧ DependsOn d.allNewEntries x y) {x y : String}
    (hx : Current d s x) (hxy : Relation.TransGen (DependsOn s.result) x y) :
    Current d s y ∧ Relation.TransGen (DependsOn d.allNewEntries) x y := by
  induction hxy with
  | single hd =>
    obtain ⟨hclean, hnew⟩ := hdisjoint x hx _ hd
    exact ⟨current_of_clean h hclean, .single hnew⟩
  | tail _ hd ih =>
    obtain ⟨hclean, hnew⟩ := hdisjoint _ ih.1 _ hd
    exact ⟨current_of_clean h hclean, ih.2.tail hnew⟩

include h in
/-- **No mixture of old and new dependencies makes a cycle.** -/
theorem result_acyclic (hnew : Acyclic d.allNewEntries) (hold : Acyclic d.allOldEntries) :
    Acyclic s.result := by
  have hcurrent : ∀ x, Current d s x → ∀ y, DependsOn s.result x y →
      Clean s.history y ∧ DependsOn d.allNewEntries x y := by
    rintro x ⟨entry, c, he, hc, hdeps, hclean⟩ y hd
    obtain ⟨e, he', hy⟩ := dependsOn_iff.mp hd
    obtain rfl := Option.some.inj (he.symm.trans he')
    rw [hdeps] at hy
    exact ⟨hclean y hy, dependsOn_iff.mpr ⟨c, hc, hy⟩⟩
  intro x hcycle
  by_cases hx : Current d s x
  · exact hnew x (current_of_transGen h hcurrent hx hcycle).2
  · -- nothing on the cycle is current, so all of it is old
    have hpath : ∀ a, Relation.TransGen (DependsOn s.result) a x →
        Relation.TransGen (DependsOn d.allOldEntries) a x := by
      intro a ha
      induction ha using Relation.TransGen.head_induction_on with
      | single hd =>
        rcases dependsOn_result h hd with ⟨hcur, hclean, -⟩ | hold
        · exact absurd (current_of_clean h hclean) hx
        · exact .single hold
      | head hd hrest ih =>
        rcases dependsOn_result h hd with ⟨hcur, hclean, -⟩ | hold
        · exact absurd (current_of_transGen h hcurrent (current_of_clean h hclean) hrest).1 hx
        · exact .head hold ih
    exact hold x (hpath x hcycle)

include hplan h

/-- A rolled back entry lists nothing that was deleted. -/
theorem not_dependsOn_deleted {x y : String} (hx : StepFailed s.history x)
    (hy : Deleted d s y) : ¬ DependsOn d.allOldEntries x y := by
  intro hd
  obtain ⟨saved, error, hfin⟩ := hx
  obtain ⟨e, he, -⟩ := dependsOn_iff.mp hd
  obtain ⟨stepX, hsX, rfl⟩ := List.mem_map.mp (h.about x (mem_stepLog_of_finished hfin))
  obtain ⟨_, outcomeX, hokX, _⟩ := h.recorded stepX hsX
  obtain ⟨stepY, hsY, rfl⟩ := List.mem_map.mp (h.about y (List.ne_nil_of_mem
    (mem_stepLog.mpr ⟨hy.returned, by simp [isStepOf]⟩)))
  obtain ⟨_, outcomeY, hokY, _⟩ := h.recorded stepY hsY
  have haY : stepY.action = .delete := by
    by_contra ha
    have := (hplan.saves _).mp ⟨stepY, hsY, rfl, ha⟩
    rw [hy.removed] at this
    cases this
  obtain ⟨past, future, hhistory⟩ := List.mem_iff_append.mp (called_of_returned hokY hy.returned)
  have hcall := h.calls past _ _ future hhistory
  have hsub : ∀ z ∈ past, z ∈ s.history := fun z hz => by
    rw [hhistory]
    exact List.mem_append_left _ hz
  by_cases haX : stepX.action = .delete
  · have hremoved := ((hplan.removes _).mp ⟨stepX, hsX, rfl, haX⟩).2
    obtain ⟨-, warned, hreturned⟩ := hcall.dependents haY _ hremoved hd
    exact not_returned_of_failed hokX ⟨saved, error, hfin⟩ warned (hsub _ hreturned)
  · obtain ⟨outcome, hpast⟩ := hcall.changes haY stepX hsX haX
    obtain rfl := (hokX.finished_iff.mp (hsub _ hpast)).trans (hokX.finished_iff.mp hfin).symm
    exact hcall.rolledBack haY _ _ _ hpast hd

/-- What a handler deleted was not kept. -/
theorem not_kept_of_deleted {y : String} (hy : Deleted d s y) : ¬ Kept s.history y := by
  rintro ⟨entry, issues, hm⟩
  obtain ⟨step, hs, rfl⟩ := List.mem_map.mp (h.about y (mem_stepLog_of_finished hm))
  obtain ⟨_, outcome, hok, _⟩ := h.recorded step hs
  have hreturned := hy.returned
  have ha : step.action = .delete := by
    by_contra ha
    have := (hplan.saves _).mp ⟨step, hs, rfl, ha⟩
    rw [hy.removed] at this
    cases this
  obtain ⟨-, -, hl⟩ := hok
  generalize hlog : stepLog s.history step.entryId = log at hl
  rw [mem_history_iff hlog (by simp [isStepOf])] at hm hreturned
  cases hl with
  | unchanged | skipped | threw => simp at hreturned
  | deleted => simp at hm
  | saved hne => exact absurd ha hne
  | notDeleted => simp at hreturned

/-- **The result is closed** exactly when no entry is put back over a
dependency that is gone. -/
theorem result_closed_iff (hold : Closed d.allOldEntries) :
    Closed s.result ↔ ∀ x y, DependsOn d.allOldEntries x y → Deleted d s x →
      PostActionFailed s.history x → Deleted d s y → PostActionFailed s.history y := by
  have hgone : ∀ {y}, d.allOldEntries.has y = true →
      (s.result.has y = false ↔ Deleted d s y ∧ ¬ PostActionFailed s.history y) := by
    intro y ho
    rw [result_has_eq_false_iff hplan h ho]
    exact ⟨fun ⟨h1, h2, h3⟩ => ⟨⟨h1, h2⟩, h3⟩, fun ⟨⟨h1, h2⟩, h3⟩ => ⟨h1, h2, h3⟩⟩
  have holdHas : ∀ {x y}, DependsOn d.allOldEntries x y → d.allOldEntries.has y = true := by
    intro x y hd
    obtain ⟨e, he, hy⟩ := dependsOn_iff.mp hd
    exact closed_iff.mp hold x e he y hy
  constructor
  · intro hclosed x y hd hx hpx hy
    by_contra hpy
    have hnot := (hgone (holdHas hd)).mpr ⟨hy, hpy⟩
    obtain ⟨step, hs, rfl⟩ := List.mem_map.mp (h.about x (List.ne_nil_of_mem
      (mem_stepLog.mpr ⟨hx.returned, by simp [isStepOf]⟩)))
    obtain ⟨_, outcome, hok, _⟩ := h.recorded step hs
    obtain ⟨c, hcand, hfate⟩ := fate_of_step h hs
    unfold candidate? at hcand
    cases hfate with
    | current ha =>
      have := (hplan.saves _).mp ⟨step, hs, rfl, ha⟩
      rw [hx.removed] at this
      cases this
    | rolledBack hfailed => exact not_returned_of_failed hok hfailed false hx.returned
    | gone _ _ hf => exact hf hpx
    | notDeleted _ hreturned =>
      have := returned_unique hok hx.returned hreturned
      cases this
    | putBack ha _ _ he =>
      rw [if_neg (not_not.mpr ha)] at hcand
      obtain ⟨e, he', hye⟩ := dependsOn_iff.mp hd
      obtain rfl := Option.some.inj (hcand.symm.trans he')
      have := closed_iff.mp hclosed _ _ he y hye
      rw [hnot] at this
      cases this
  · intro hcond
    refine closed_iff.mpr fun x entry hentry y hy => ?_
    by_contra hnot
    have hnot : s.result.has y = false := by simpa using hnot
    have hd : DependsOn s.result x y := dependsOn_iff.mpr ⟨entry, hentry, hy⟩
    have hm : x ∈ d.stepList.map StepState.entryId := by
      by_contra hm
      rw [result_of_no_step h hm] at hentry
      cases hentry
    obtain ⟨step, hs, rfl⟩ := List.mem_map.mp hm
    obtain ⟨c, hcand, hfate⟩ := fate_of_step h hs
    have hcurrent : Clean s.history y → False := by
      intro hclean
      obtain ⟨e, -, he, -⟩ := current_of_clean h hclean
      rw [KeyedMap.has, he] at hnot
      cases hnot
    rcases dependsOn_result h hd with ⟨-, hclean, -⟩ | hdold
    · exact hcurrent hclean
    obtain ⟨hy', hpy⟩ := (hgone (holdHas hdold)).mp hnot
    cases hfate with
    | current ha he hdeps hclean =>
      obtain rfl := Option.some.inj (hentry.symm.trans he)
      exact hcurrent (hclean y (hdeps ▸ hy))
    | rolledBack hfailed => exact not_dependsOn_deleted hplan h hfailed hy' hdold
    | gone _ _ _ he => rw [he] at hentry; cases hentry
    | putBack ha hreturned hf =>
      have hremoved := ((hplan.removes _).mp ⟨step, hs, rfl, ha⟩).2
      exact hpy (hcond _ _ hdold ⟨hremoved, hreturned⟩ hf hy')
    | notDeleted _ _ he hdeps =>
      obtain rfl := Option.some.inj (hentry.symm.trans he)
      rcases (hdeps y hy).2 with hnew | hkept
      · rw [hy'.removed] at hnew
        cases hnew
      · exact not_kept_of_deleted hplan h hy' hkept

end

/-- **A deploy leaves a state that can be planned again** exactly when every
failed post action that puts a deleted entry back comes with one for each
dependency that was deleted as well. -/
theorem result_plannable_iff {d : Deploy V} {s : ApplyState V} {options : PlanOptions V}
    (hplan : Planned d options) (hclosed : Closed d.allOldEntries)
    (hacyclic : Acyclic d.allOldEntries) (hs : Resolves d s) (again : PlanOptions V) :
    ((Closed s.result ∧ Acyclic s.result) ∧
        ∃ steps, planSteps none (some s.result) again = .ok steps) ↔
      ∀ x y, DependsOn d.allOldEntries x y → Deleted d s x → PostActionFailed s.history x →
        Deleted d s y → PostActionFailed s.history y := by
  rw [planSteps_again_iff again, and_self_iff, ← result_closed_iff hplan.isPlan (hs.inv hplan) hclosed]
  refine and_iff_left ?_
  exact result_acyclic (hs.inv hplan) (planSteps_ok hplan).2.1.newAcyclic hacyclic

/-- Without a failed post action the state can be planned again. -/
theorem removal_plannable : ∃ steps,
    planSteps none (some (stateAfter removal quietRemoval).result) quietHandlers = .ok steps := by
  refine ((result_plannable_iff removal_planned removal_old.1 removal_old.2 quietRemoval_resolves
    quietHandlers).mpr ?_).2
  rintro x y - - ⟨error, hf⟩ -
  have hhistory : (stateAfter removal quietRemoval).history =
      [.handlerCalled .delete "b", .handlerReturned "b" false, .stepFinished "b" { entry := none },
        .handlerCalled .delete "a", .handlerReturned "a" false,
        .stepFinished "a" { entry := none }] := by decide
  rw [hhistory] at hf
  simp at hf

/-- The post action of `b` fails once `a` is deleted, and `b` is put back. -/
theorem removal_not_plannable : Planned removal quietHandlers ∧
    (Closed removal.allOldEntries ∧ Acyclic removal.allOldEntries) ∧
    ∃ s, Resolves removal s ∧ planSteps none (some s.result) quietHandlers =
      .error (.error (.dependencyNotFound "b" "a")) :=
  ⟨removal_planned, removal_old,
    stateAfter removal [.start, .postAction 0 false, .returned 0 none, .finish, .start,
      .returned 0 none, .finish, .start, .threw 0 (.error (.custom "denied")), .finish],
    ⟨reachable_stateAfter (by decide), by decide⟩, by decide⟩

end Ez4.State.ApplyResult

import Ez4.State.Apply
import Ez4.State.PlanSoundness

/-! # What holds while a plan is applied

The invariant of `applySteps` over a plan (`StepsInv` while the steps run,
`PostActionsInv` afterwards): what the history tells of each step (`Life`),
and what the two result maps hold of it once its order is recorded
(`Recorded`). -/
namespace Ez4.State.ApplyInvariant
open Ez4.Library Ez4.State.Entry Ez4.State.Plan Ez4.State.PlanSoundness Ez4.State.Apply
  Ez4.Utils.Tasks

variable {V : Type}

/-! ## Reading the history -/

/-- Whether this is about the step of the entry itself, not a post action. -/
def isStepOf (id : String) : Happening V → Bool
  | .handlerCalled _ entryId => entryId = id
  | .handlerReturned entryId _ => entryId = id
  | .handlerThrew entryId _ => entryId = id
  | .stepFinished entryId _ => entryId = id
  | _ => false

/-- What happened to the step of an entry. -/
def stepLog (history : List (Happening V)) (id : String) : List (Happening V) :=
  history.filter (isStepOf id)

/-- The step finished without an error and without a warning, and saved its
entry. -/
def Clean (history : List (Happening V)) (id : String) : Prop :=
  ∃ entry, .stepFinished id { entry := some entry } ∈ history

/-- The step finished and left an entry, saved or not. -/
def Kept (history : List (Happening V)) (id : String) : Prop :=
  ∃ entry issues, .stepFinished id { entry := some entry, issues } ∈ history

@[simp] theorem stepLog_append (history more : List (Happening V)) (id : String) :
    stepLog (history ++ more) id = stepLog history id ++ stepLog more id :=
  List.filter_append ..

theorem mem_stepLog {history : List (Happening V)} {id : String} {x : Happening V} :
    x ∈ stepLog history id ↔ x ∈ history ∧ isStepOf id x = true := List.mem_filter

theorem stepLog_of_mem {history : List (Happening V)} {id : String} {x : Happening V}
    (hm : x ∈ history) (hi : isStepOf id x = true) : x ∈ stepLog history id :=
  mem_stepLog.mpr ⟨hm, hi⟩

theorem stepLog_eq_nil {history : List (Happening V)} {id : String}
    (h : ∀ x ∈ history, isStepOf id x = false) : stepLog history id = [] := by
  rw [stepLog, List.filter_eq_nil_iff]
  intro x hx
  simp [h x hx]

theorem Clean.mono {h h' : List (Happening V)} (hsub : h ⊆ h') {id : String} (hc : Clean h id) :
    Clean h' id := hc.imp fun _ hm => hsub hm

theorem Kept.mono {h h' : List (Happening V)} (hsub : h ⊆ h') {id : String} (hc : Kept h id) :
    Kept h' id := by
  obtain ⟨entry, issues, hm⟩ := hc
  exact ⟨entry, issues, hsub hm⟩

/-! ## The life of a step -/

/-- The entry a step starts from. -/
def candidate? (d : Deploy V) (step : StepState) : Option (EntryState V) :=
  if step.action ≠ .delete then d.allNewEntries.get? step.entryId
  else d.allOldEntries.get? step.entryId

/-- What the log of a step and the entry it works on are, by its status. A
step that runs or ran its handler has succeeded dependencies, unless it
deletes. -/
inductive Life (d : Deploy V) (history : List (Happening V)) (stepEntry : Option (EntryState V))
    (step : StepState) (candidate : EntryState V) :
    TaskStatus (List Warning) (StepOutcome V) → List (Happening V) → Prop
  | waiting : Life d history stepEntry step candidate .waiting []
  | running {warnings : List Warning}
      (hentry : stepEntry = some candidate)
      (hclean : step.action ≠ .delete → ∀ x ∈ candidate.dependencies, Clean history x) :
      Life d history stepEntry step candidate (.running warnings)
        [.handlerCalled step.action step.entryId]
  /-- There was nothing to update. -/
  | unchanged {entry : EntryState V} (ha : step.action ≠ .delete)
      (hid : entry.entryId = step.entryId)
      (hdependencies : entry.dependencies = candidate.dependencies)
      (hclean : ∀ x ∈ candidate.dependencies, Clean history x) :
      Life d history stepEntry step candidate (.settled { entry := some entry })
        [.stepFinished step.entryId { entry := some entry }]
  | saved {entry : EntryState V} {warnings : List Warning} (ha : step.action ≠ .delete)
      (hentry : stepEntry = some entry)
      (hid : entry.entryId = step.entryId)
      (hdependencies : entry.dependencies = candidate.dependencies)
      (hclean : ∀ x ∈ candidate.dependencies, Clean history x) :
      Life d history stepEntry step candidate (.settled (savedOutcome entry warnings))
        [.handlerCalled step.action step.entryId,
          .handlerReturned step.entryId !warnings.isEmpty,
          .stepFinished step.entryId (savedOutcome entry warnings)]
  | deleted (ha : step.action = .delete) (hentry : stepEntry = some candidate) :
      Life d history stepEntry step candidate (.settled { entry := none })
        [.handlerCalled step.action step.entryId, .handlerReturned step.entryId false,
          .stepFinished step.entryId { entry := none }]
  | notDeleted {entry : EntryState V} {warnings : List Warning} (ha : step.action = .delete)
      (hwarnings : warnings ≠ [])
      (hentry : stepEntry = some entry)
      (hid : entry.entryId = step.entryId)
      (hdependencies : ∀ x ∈ entry.dependencies, x ∈ candidate.dependencies ∧
        (d.allNewEntries.has x = true ∨ Kept history x)) :
      Life d history stepEntry step candidate (.settled (savedOutcome entry warnings))
        [.handlerCalled step.action step.entryId, .handlerReturned step.entryId true,
          .stepFinished step.entryId (savedOutcome entry warnings)]
  | skipped {error : EntryError} :
      Life d history stepEntry step candidate (.settled (rollback d step.entryId error))
        [.stepFinished step.entryId (rollback d step.entryId error)]
  | threw {thrown : Thrown} {error : EntryError} (hthrown : thrown.toError? = some error)
      (hentry : stepEntry = some candidate)
      (hclean : step.action ≠ .delete → ∀ x ∈ candidate.dependencies, Clean history x) :
      Life d history stepEntry step candidate (.settled (rollback d step.entryId error))
        [.handlerCalled step.action step.entryId, .handlerThrew step.entryId thrown,
          .stepFinished step.entryId (rollback d step.entryId error)]

/-- A step is in this status. -/
structure StatusOk (d : Deploy V) (s : ApplyState V) (step : StepState)
    (status : TaskStatus (List Warning) (StepOutcome V)) (candidate : EntryState V) : Prop where
  starts : candidate? d step = some candidate
  handler : status ≠ .waiting → (d.options.handlers candidate.type).isSome
  life : Life d s.history (s.stepEntries.get? step.entryId) step candidate status
    (stepLog s.history step.entryId)

theorem Life.mono {d : Deploy V} {h h' : List (Happening V)} {stepEntry : Option (EntryState V)}
    {step : StepState} {candidate : EntryState V}
    {status : TaskStatus (List Warning) (StepOutcome V)} {log : List (Happening V)}
    (hsub : h ⊆ h') (hl : Life d h stepEntry step candidate status log) :
    Life d h' stepEntry step candidate status log := by
  cases hl with
  | waiting => exact .waiting
  | running hentry hclean => exact .running hentry fun ha x hx => (hclean ha x hx).mono hsub
  | unchanged ha hid hd hclean => exact .unchanged ha hid hd fun x hx => (hclean x hx).mono hsub
  | saved ha hentry hid hd hclean =>
    exact .saved ha hentry hid hd fun x hx => (hclean x hx).mono hsub
  | deleted ha hentry => exact .deleted ha hentry
  | notDeleted ha hw hentry hid hd =>
    exact .notDeleted ha hw hentry hid fun x hx => ⟨(hd x hx).1, (hd x hx).2.imp_right (·.mono hsub)⟩
  | skipped => exact .skipped
  | threw ht hentry hclean => exact .threw ht hentry fun ha x hx => (hclean ha x hx).mono hsub

/-- What happens to other steps and to post actions leaves a step as it is. -/
theorem StatusOk.frame {d : Deploy V} {s s' : ApplyState V} {step : StepState}
    {status : TaskStatus (List Warning) (StepOutcome V)} {candidate : EntryState V}
    (hsub : s.history ⊆ s'.history)
    (hlog : stepLog s'.history step.entryId = stepLog s.history step.entryId)
    (hentry : s'.stepEntries.get? step.entryId = s.stepEntries.get? step.entryId)
    (h : StatusOk d s step status candidate) : StatusOk d s' step status candidate :=
  ⟨h.starts, h.handler, by rw [hlog, hentry]; exact h.life.mono hsub⟩

section
variable {d : Deploy V} {s : ApplyState V} {step : StepState} {candidate : EntryState V}
  {outcome : StepOutcome V}

theorem StatusOk.finished_iff (h : StatusOk d s step (.settled outcome) candidate)
    {other : StepOutcome V} :
    .stepFinished step.entryId other ∈ s.history ↔ other = outcome := by
  have hlog : .stepFinished step.entryId other ∈ stepLog s.history step.entryId ↔
      .stepFinished step.entryId other ∈ s.history := by simp [mem_stepLog, isStepOf]
  rw [← hlog]
  obtain ⟨-, -, hl⟩ := h
  generalize stepLog s.history step.entryId = log at hl ⊢
  cases hl <;> simp

theorem StatusOk.entryId (h : StatusOk d s step (.settled outcome) candidate)
    {entry : EntryState V} (he : outcome.entry = some entry) : entry.entryId = step.entryId := by
  obtain ⟨-, -, hl⟩ := h
  generalize stepLog s.history step.entryId = log at hl
  cases hl with
  | unchanged _ hid | saved _ _ hid | notDeleted _ _ _ hid =>
    simp only [savedOutcome, Option.some.injEq] at he
    exact he ▸ hid
  | deleted => cases he
  | skipped | threw => exact KeyedMap.key_of_get? he

end

/-! ## What the maps hold of a recorded step -/

/-- The entry the step puts among the succeeded ones. -/
def StepOutcome.succeeded (outcome : StepOutcome V) : Option (EntryState V) :=
  match outcome.issues with
  | .none => outcome.entry
  | _ => none

/-- The entry the step puts among the failed ones. -/
def StepOutcome.failed (outcome : StepOutcome V) : Option (EntryState V) :=
  match outcome.issues with
  | .none => none
  | _ => outcome.entry

/-- A post action of the entry failed. -/
def PostActionFailed (history : List (Happening V)) (id : String) : Prop :=
  ∃ error, .postActionFailed id error ∈ history

/-- The maps hold what the step left, or what a failed post action put back
of it. -/
structure Recorded (s : ApplyState V) (id : String) (outcome : StepOutcome V) : Prop where
  kept : ¬ PostActionFailed s.history id →
    s.succeededEntries.get? id = StepOutcome.succeeded outcome ∧
      s.failedEntries.get? id = StepOutcome.failed outcome
  putBack : PostActionFailed s.history id →
    s.succeededEntries.get? id = none ∧ ∃ entry, s.stepEntries.get? id = some entry ∧
      s.failedEntries.get? id = some { entry with isPartial := some true }
  errors : ∀ error, outcome.issues = .error error → error ∈ s.errorList

/-- Neither map has the id. -/
def Unrecorded (s : ApplyState V) (id : String) : Prop :=
  s.succeededEntries.get? id = none ∧ s.failedEntries.get? id = none

/-- The steps of a list are recorded, and nothing else is. -/
structure RecordedAll (d : Deploy V) (s : ApplyState V) (steps : List StepState) : Prop where
  recorded : ∀ step ∈ steps, ∃ candidate outcome,
    StatusOk d s step (.settled outcome) candidate ∧ Recorded s step.entryId outcome
  unrecorded : ∀ id, id ∉ steps.map StepState.entryId →
    Unrecorded s id ∧ s.allNewEntries.get? id = d.allNewEntries.get? id
  allNew : ∀ id, s.allNewEntries.has id = true →
    d.allNewEntries.has id = true ∨ Kept s.history id

section
variable {d : Deploy V} {s : ApplyState V} {outcome : StepOutcome V}

@[simp] theorem history_recordOutcome : (recordOutcome s outcome).history = s.history := by
  unfold recordOutcome
  cases outcome.entry <;> cases outcome.issues <;> rfl

@[simp] theorem stepEntries_recordOutcome :
    (recordOutcome s outcome).stepEntries = s.stepEntries := by
  unfold recordOutcome
  cases outcome.entry <;> cases outcome.issues <;> rfl

@[simp] theorem postActions_recordOutcome :
    (recordOutcome s outcome).postActions = s.postActions := by
  unfold recordOutcome
  cases outcome.entry <;> cases outcome.issues <;> rfl

@[simp] theorem allPostActions_recordOutcome :
    (recordOutcome s outcome).allPostActions = s.allPostActions := by
  unfold recordOutcome
  cases outcome.entry <;> cases outcome.issues <;> rfl

theorem errorList_recordOutcome (error : EntryError) :
    error ∈ (recordOutcome s outcome).errorList ↔
      error ∈ s.errorList ∨ outcome.issues = .error error := by
  unfold recordOutcome
  cases outcome.entry <;> cases outcome.issues <;> simp [eq_comm]

/-- Recording writes the maps and the lists of issues only. -/
theorem foldl_recordOutcome (outcomes : List (StepOutcome V)) (s : ApplyState V) :
    (outcomes.foldl recordOutcome s).history = s.history ∧
      (outcomes.foldl recordOutcome s).stepEntries = s.stepEntries ∧
      (outcomes.foldl recordOutcome s).postActions = s.postActions ∧
      (outcomes.foldl recordOutcome s).allPostActions = s.allPostActions := by
  induction outcomes generalizing s with
  | nil => exact ⟨rfl, rfl, rfl, rfl⟩
  | cons outcome rest ih =>
    obtain ⟨h1, h2, h3, h4⟩ := ih (recordOutcome s outcome)
    rw [List.foldl_cons, h1, h2, h3, h4]
    exact ⟨history_recordOutcome, stepEntries_recordOutcome, postActions_recordOutcome,
      allPostActions_recordOutcome⟩

/-- What recording an outcome whose entry is filed under `id` writes. -/
theorem recordOutcome_maps {id : String}
    (hid : ∀ entry, outcome.entry = some entry → entry.entryId = id) (x : String) :
    (recordOutcome s outcome).succeededEntries.get? x =
        (if id = x then (StepOutcome.succeeded outcome).or (s.succeededEntries.get? x)
          else s.succeededEntries.get? x) ∧
      (recordOutcome s outcome).failedEntries.get? x =
        (if id = x then (StepOutcome.failed outcome).or (s.failedEntries.get? x)
          else s.failedEntries.get? x) ∧
      (recordOutcome s outcome).allNewEntries.get? x =
        (if id = x then outcome.entry.or (s.allNewEntries.get? x)
          else s.allNewEntries.get? x) := by
  obtain ⟨entry, issues⟩ := outcome
  cases entry with
  | none =>
    cases issues <;>
      simp [recordOutcome, StepOutcome.succeeded, StepOutcome.failed]
  | some entry =>
    obtain rfl := hid entry rfl
    cases issues <;>
      by_cases hx : entry.entryId = x <;>
      simp [recordOutcome, StepOutcome.succeeded, StepOutcome.failed, hx]

end

/-- Recording one more step. -/
theorem RecordedAll.record {d : Deploy V} {s : ApplyState V} {steps : List StepState}
    {step : StepState} {outcome : StepOutcome V} {candidate : EntryState V}
    (h : RecordedAll d s steps) (hstep : StatusOk d s step (.settled outcome) candidate)
    (hnew : step.entryId ∉ steps.map StepState.entryId)
    (hfail : ¬ PostActionFailed s.history step.entryId) :
    RecordedAll d (recordOutcome s outcome) (steps ++ [step]) := by
  have hmaps := recordOutcome_maps (s := s) fun entry he => hstep.entryId he
  have hstatus : ∀ other status c, StatusOk d s other status c →
      StatusOk d (recordOutcome s outcome) other status c := fun other status c ho =>
    ho.frame (by simp) (by simp) (by simp)
  refine ⟨fun other ho => ?_, fun id hid => ?_, fun id hid => ?_⟩
  · rcases List.mem_append.mp ho with ho | ho
    · obtain ⟨c, o, hok, hrec⟩ := h.recorded other ho
      have hne : step.entryId ≠ other.entryId := fun he =>
        hnew (he ▸ List.mem_map_of_mem ho)
      obtain ⟨hs, hf, -⟩ := hmaps other.entryId
      rw [if_neg hne] at hs hf
      refine ⟨c, o, hstatus _ _ _ hok, ⟨fun hnf => ?_, fun hpf => ?_, fun error he => ?_⟩⟩
      · rw [hs, hf]
        exact hrec.kept (by simpa using hnf)
      · rw [hs, hf, stepEntries_recordOutcome]
        exact hrec.putBack (by simpa using hpf)
      · exact (errorList_recordOutcome error).mpr (.inl (hrec.errors error he))
    · obtain rfl := List.mem_singleton.mp ho
      obtain ⟨hs, hf, -⟩ := hmaps other.entryId
      obtain ⟨⟨hs', hf'⟩, -⟩ := h.unrecorded _ hnew
      rw [if_pos rfl] at hs hf
      rw [hs', Option.or_none] at hs
      rw [hf', Option.or_none] at hf
      refine ⟨candidate, outcome, hstatus _ _ _ hstep, ⟨fun _ => ⟨hs, hf⟩, fun hpf => ?_,
        fun error he => (errorList_recordOutcome error).mpr (.inr he)⟩⟩
      exact absurd (by simpa using hpf) hfail
  · rw [List.map_append, List.mem_append, not_or] at hid
    obtain ⟨hid, hne⟩ := hid
    have hne : step.entryId ≠ id := by simpa [eq_comm] using hne
    obtain ⟨hs, hf, hn⟩ := hmaps id
    rw [if_neg hne] at hs hf hn
    obtain ⟨⟨hs', hf'⟩, hn'⟩ := h.unrecorded id hid
    exact ⟨⟨hs.trans hs', hf.trans hf'⟩, hn.trans hn'⟩
  · rw [KeyedMap.has, (hmaps id).2.2] at hid
    rw [history_recordOutcome]
    split at hid
    · rename_i he
      subst he
      cases hentry : outcome.entry with
      | none =>
        rw [hentry, Option.none_or] at hid
        exact h.allNew _ hid
      | some entry =>
        right
        refine ⟨entry, outcome.issues, ?_⟩
        rw [← hentry]
        exact hstep.finished_iff.mpr rfl
    · exact h.allNew _ hid

/-- Recording all the steps of an order. -/
theorem RecordedAll.recordResults {d : Deploy V} {s : ApplyState V} {steps : List StepState}
    {tasks : Pool StepState (List Warning) (StepOutcome V)} (h : RecordedAll d s steps)
    (hdone : done tasks = true)
    (hcurrent : ∀ task ∈ tasks, ∃ candidate, StatusOk d s task.item task.status candidate)
    (hn : ((steps ++ tasks.map Task.item).map StepState.entryId).Nodup)
    (hfail : ∀ id, ¬ PostActionFailed s.history id) :
    RecordedAll d ((results tasks).foldl recordOutcome s) (steps ++ tasks.map Task.item) := by
  induction tasks generalizing s steps with
  | nil => simpa [results] using h
  | cons task rest ih =>
    obtain ⟨outcome, hs⟩ := settled_of_done hdone List.mem_cons_self
    obtain ⟨candidate, hok⟩ := hcurrent task List.mem_cons_self
    rw [hs] at hok
    have hresults : results (task :: rest) = outcome :: results rest := by
      simp [results, hs, TaskStatus.result?]
    have hnew : task.item.entryId ∉ steps.map StepState.entryId := by
      rw [List.map_append, List.nodup_append] at hn
      exact fun hm => hn.2.2 _ hm task.item.entryId (by simp) rfl
    have hrec := h.record hok hnew (hfail _)
    have hrest := ih hrec (by simp only [done, List.all_cons, Bool.and_eq_true] at hdone ⊢; exact hdone.2)
      (fun other ho => by
        obtain ⟨c, hc⟩ := hcurrent other (List.mem_cons_of_mem _ ho)
        exact ⟨c, hc.frame (by simp) (by simp) (by simp)⟩)
      (by simpa using hn) (by simpa using hfail)
    rw [hresults, List.foldl_cons]
    simpa using hrest

theorem RecordedAll.congr {d : Deploy V} {s : ApplyState V} {steps steps' : List StepState}
    (he : ∀ step, step ∈ steps ↔ step ∈ steps') (h : RecordedAll d s steps) :
    RecordedAll d s steps' := by
  refine ⟨fun step hs => h.recorded step ((he step).mpr hs), fun id hid => ?_, h.allNew⟩
  refine h.unrecorded id fun hm => hid ?_
  obtain ⟨step, hs, rfl⟩ := List.mem_map.mp hm
  exact List.mem_map_of_mem ((he step).mp hs)

/-- What does not touch the maps, the history of the steps and their entries
leaves the record as it is. -/
theorem RecordedAll.frame {d : Deploy V} {s s' : ApplyState V} {steps : List StepState}
    (h : RecordedAll d s steps) (hsub : s.history ⊆ s'.history)
    (hlog : ∀ step ∈ steps, stepLog s'.history step.entryId = stepLog s.history step.entryId)
    (hentries : ∀ step ∈ steps,
      s'.stepEntries.get? step.entryId = s.stepEntries.get? step.entryId)
    (hfail : ∀ id, PostActionFailed s'.history id ↔ PostActionFailed s.history id)
    (hnew : s'.allNewEntries = s.allNewEntries)
    (hsucceeded : s'.succeededEntries = s.succeededEntries)
    (hfailed : s'.failedEntries = s.failedEntries) (herrors : s'.errorList = s.errorList) :
    RecordedAll d s' steps := by
  refine ⟨fun step hs => ?_, fun id hid => ?_, fun id hid => ?_⟩
  · obtain ⟨c, o, hok, hrec⟩ := h.recorded step hs
    refine ⟨c, o, hok.frame hsub (hlog step hs) (hentries step hs), ?_⟩
    constructor
    · rw [hfail, hsucceeded, hfailed]; exact hrec.kept
    · rw [hfail, hsucceeded, hfailed, hentries step hs]; exact hrec.putBack
    · rw [herrors]; exact hrec.errors
  · rw [Unrecorded, hnew, hsucceeded, hfailed]
    exact h.unrecorded id hid
  · rw [hnew] at hid
    exact (h.allNew id hid).imp_right (·.mono hsub)

/-! ## What handlers may rely on -/

/-- What held when a step handler was called. -/
structure CallOk (d : Deploy V) (history : List (Happening V)) (action : StepAction)
    (id : String) : Prop where
  first : ∀ a, .handlerCalled a id ∉ history
  dependencies : action ≠ .delete → ∀ x, Relation.TransGen (DependsOn d.allNewEntries) id x →
    Clean history x
  dependents : action = .delete → ∀ x, d.allNewEntries.has x = false →
    DependsOn d.allOldEntries x id →
      .handlerCalled .delete x ∈ history ∧ ∃ warned, .handlerReturned x warned ∈ history
  changes : action = .delete → ∀ step ∈ d.stepList, step.action ≠ .delete →
    ∃ outcome, .stepFinished step.entryId outcome ∈ history
  rolledBack : action = .delete → ∀ x entry error,
    .stepFinished x { entry, issues := .error error } ∈ history → ¬ DependsOn d.allOldEntries x id

/-- Every handler was called in its turn. -/
def CallsOk (d : Deploy V) (history : List (Happening V)) : Prop :=
  ∀ past action id future, history = past ++ .handlerCalled action id :: future →
    CallOk d past action id

theorem CallsOk.append {d : Deploy V} {history more : List (Happening V)} (h : CallsOk d history)
    (hmore : ∀ past action id future, more = past ++ .handlerCalled action id :: future →
      CallOk d (history ++ past) action id) : CallsOk d (history ++ more) := by
  intro past action id future he
  rcases List.append_eq_append_iff.mp he with ⟨mid, rfl, hm⟩ | ⟨mid, rfl, hm⟩
  · exact hmore mid action id future hm
  · cases mid with
    | nil =>
      have := hmore [] action id future (by simpa using hm.symm)
      simpa using this
    | cons x rest =>
      simp only [List.cons_append, List.cons.injEq] at hm
      obtain ⟨rfl, -⟩ := hm
      exact h past action id rest rfl

/-! ## The invariant -/

/-- How far the registered post actions are. -/
structure PostActionsOk (d : Deploy V) (history : List (Happening V))
    (pending : List PostActionEntry) : Prop where
  registered : ∀ p ∈ pending, .postActionRegistered p.entryId ∈ history
  step : ∀ p ∈ pending, ∃ step ∈ d.stepList, step.entryId = p.entryId ∧ step.action = p.action
  handler : ∀ id, .postActionRegistered id ∈ history → ∃ a, .handlerCalled a id ∈ history
  processed : ∀ id, .postActionRegistered id ∈ history → (∃ p ∈ pending, p.entryId = id) ∨
    .postActionCalled id ∈ history ∨ PostActionFailed history id
  failed : ∀ id, PostActionFailed history id → .postActionRegistered id ∈ history

/-- While the steps of an order run. -/
structure StepsInv (d : Deploy V) (s : ApplyState V) (order : Nat)
    (tasks : Pool StepState (List Warning) (StepOutcome V)) : Prop where
  items : tasks.map Task.item = findPendingByOrder d.stepList order
  current : ∀ task ∈ tasks, ∃ candidate, StatusOk d s task.item task.status candidate
  later : ∀ step ∈ d.stepList, order < step.order → ∃ candidate, StatusOk d s step .waiting candidate
  recorded : RecordedAll d s (d.stepList.filter fun step => step.order < order)
  about : ∀ id, stepLog s.history id ≠ [] → id ∈ d.stepList.map StepState.entryId
  postActions : PostActionsOk d s.history (s.postActions ++ s.allPostActions.flatten)
  noPostActions : ∀ id, .postActionCalled id ∉ s.history ∧ ¬ PostActionFailed s.history id
  calls : CallsOk d s.history

/-- Once the steps are done, with some post actions pending. -/
structure PostActionsInv (d : Deploy V) (s : ApplyState V) (pending : List PostActionEntry) :
    Prop where
  recorded : ∀ step ∈ d.stepList, ∃ candidate outcome,
    StatusOk d s step (.settled outcome) candidate ∧ Recorded s step.entryId outcome
  unrecorded : ∀ id, id ∉ d.stepList.map StepState.entryId → Unrecorded s id
  about : ∀ id, stepLog s.history id ≠ [] → id ∈ d.stepList.map StepState.entryId
  postActions : PostActionsOk d s.history pending
  /-- A post action of a failed step is not called. -/
  called : ∀ id, .postActionCalled id ∈ s.history → ∀ entry error,
    .stepFinished id { entry, issues := .error error } ∉ s.history
  errors : ∀ id error, .postActionFailed id error ∈ s.history → error ∈ s.errorList
  calls : CallsOk d s.history

/-- The invariant of `applySteps`. -/
def Inv (d : Deploy V) (s : ApplyState V) : Prop :=
  match s.phase with
  | .steps order tasks => StepsInv d s order tasks
  | .postActions tasks =>
    PostActionsInv d s (tasks.map Task.item ++ s.postActions ++ s.allPostActions.flatten) ∧
      ∀ task ∈ tasks, task.status ≠ .waiting → .postActionCalled task.item.entryId ∈ s.history ∨
        PostActionFailed s.history task.item.entryId
  | .resolved => PostActionsInv d s []
  | .rejected _ => CallsOk d s.history

/-! ## Events of a step -/

theorem isStepOf_of_ne {x : Happening V} {id other : String} (h : isStepOf id x = true)
    (hne : other ≠ id) : isStepOf other x = false := by
  cases x <;> simp_all [isStepOf, eq_comm]

theorem stepLog_of_ne {happenings : List (Happening V)} {id other : String}
    (h : ∀ x ∈ happenings, isStepOf id x = true) (hne : other ≠ id) :
    stepLog happenings other = [] :=
  stepLog_eq_nil fun x hx => isStepOf_of_ne (h x hx) hne

theorem stepLog_of_all {happenings : List (Happening V)} {id : String}
    (h : ∀ x ∈ happenings, isStepOf id x = true) : stepLog happenings id = happenings :=
  List.filter_eq_self.mpr h

/-- What happens to a step registers, calls and fails no post action. -/
theorem PostActionsOk.append {d : Deploy V} {history happenings : List (Happening V)}
    {pending : List PostActionEntry} {id : String} (h : PostActionsOk d history pending)
    (hs : ∀ x ∈ happenings, isStepOf id x = true) :
    PostActionsOk d (history ++ happenings) pending := by
  have hreg : ∀ other, .postActionRegistered other ∈ history ++ happenings ↔
      (.postActionRegistered other : Happening V) ∈ history := by
    intro other
    rw [List.mem_append, or_iff_left]
    exact fun hx => by simpa [isStepOf] using hs _ hx
  have hfail : ∀ other, PostActionFailed (history ++ happenings) other ↔
      PostActionFailed history other := by
    intro other
    refine exists_congr fun error => ?_
    rw [List.mem_append, or_iff_left]
    exact fun hx => by simpa [isStepOf] using hs _ hx
  refine ⟨fun p hp => (hreg _).mpr (h.registered p hp), h.step, fun other ho => ?_,
    fun other ho => ?_, fun other ho => ?_⟩
  · obtain ⟨a, ha⟩ := h.handler other ((hreg _).mp ho)
    exact ⟨a, List.mem_append_left _ ha⟩
  · rcases h.processed other ((hreg _).mp ho) with hp | hp | hp
    · exact .inl hp
    · exact .inr (.inl (List.mem_append_left _ hp))
    · exact .inr (.inr ((hfail _).mpr hp))
  · exact (hreg _).mpr (h.failed other ((hfail _).mp ho))

section
variable {d : Deploy V} {s : ApplyState V} {order : Nat}
  {tasks : Pool StepState (List Warning) (StepOutcome V)}

theorem StepsInv.mem_stepList (h : StepsInv d s order tasks)
    {task : Task StepState (List Warning) (StepOutcome V)} (ht : task ∈ tasks) :
    task.item ∈ d.stepList ∧ task.item.order = order := by
  have : task.item ∈ findPendingByOrder d.stepList order := h.items ▸ List.mem_map_of_mem ht
  simpa [findPendingByOrder] using this

/-- Two steps of a plan with one id are one step. -/
theorem step_unique (hn : (d.stepList.map StepState.entryId).Nodup) {step other : StepState}
    (hs : step ∈ d.stepList) (ho : other ∈ d.stepList) (he : step.entryId = other.entryId) :
    step = other := List.inj_on_of_nodup_map hn hs ho he

/-- The status of the step that moves on. -/
theorem statusOk_move {index : Nat} {step : StepState} {candidate : EntryState V}
    {new : TaskStatus (List Warning) (StepOutcome V)} {stepEntries : EntryStates V}
    {log happenings : List (Happening V)} (hc : candidate? d step = some candidate)
    (hhandler : (d.options.handlers candidate.type).isSome)
    (hlog : stepLog s.history step.entryId = log)
    (hs : ∀ x ∈ happenings, isStepOf step.entryId x = true)
    (hlife : Life d (s.history ++ happenings) (stepEntries.get? step.entryId) step candidate new
      (log ++ happenings)) :
    StatusOk d (moveStep { s with stepEntries } order tasks index new happenings) step new
      candidate := by
  refine ⟨hc, fun _ => hhandler, ?_⟩
  simp only [moveStep, stepLog_append, hlog, stepLog_of_all hs]
  exact hlife

/-- **One step moves on**, and nothing else does. -/
theorem StepsInv.move (hn : (d.stepList.map StepState.entryId).Nodup)
    (h : StepsInv d s order tasks) {index : Nat} {step : StepState}
    {old new : TaskStatus (List Warning) (StepOutcome V)} (hi : tasks[index]? = some ⟨step, old⟩)
    {stepEntries : EntryStates V}
    (hentries : ∀ id ≠ step.entryId, stepEntries.get? id = s.stepEntries.get? id)
    {happenings : List (Happening V)} (hs : ∀ x ∈ happenings, isStepOf step.entryId x = true)
    (hcalls : ∀ past action id future, happenings = past ++ .handlerCalled action id :: future →
      CallOk d (s.history ++ past) action id)
    (hstatus : ∃ candidate,
      StatusOk d (moveStep { s with stepEntries } order tasks index new happenings) step new
        candidate) :
    StepsInv d (moveStep { s with stepEntries } order tasks index new happenings) order
      (setStatus tasks index new) := by
  have hmem : (⟨step, old⟩ : Task _ _ _) ∈ tasks := List.mem_of_getElem? hi
  obtain ⟨hstep, horder⟩ := h.mem_stepList hmem
  have hsub : s.history ⊆ s.history ++ happenings := List.subset_append_left _ _
  have hlog : ∀ id ≠ step.entryId, stepLog (s.history ++ happenings) id = stepLog s.history id :=
    fun id hne => by rw [stepLog_append, stepLog_of_ne hs hne, List.append_nil]
  have hframe : ∀ other status candidate, other.entryId ≠ step.entryId →
      StatusOk d s other status candidate →
      StatusOk d (moveStep { s with stepEntries } order tasks index new happenings) other status
        candidate := fun other status candidate hne hok =>
    hok.frame hsub (hlog _ hne) (hentries _ hne)
  have hfail : ∀ id, PostActionFailed (s.history ++ happenings) id ↔ PostActionFailed s.history id := by
    intro id
    refine exists_congr fun error => ?_
    rw [List.mem_append, or_iff_left]
    exact fun hx => by simpa [isStepOf] using hs _ hx
  refine ⟨by rw [map_item_setStatus]; exact h.items, fun task ht => ?_, fun other ho hlt => ?_,
    ?_, fun id hid => ?_, h.postActions.append hs, fun id => ⟨fun hc => ?_, ?_⟩,
    h.calls.append hcalls⟩
  · obtain ⟨i, hi'⟩ := List.getElem?_of_mem ht
    rw [getElem?_setStatus] at hi'
    split at hi'
    · rename_i he
      subst he
      rw [hi] at hi'
      simp only [Option.map_some, Option.some.injEq] at hi'
      subst hi'
      exact hstatus
    · rename_i hne
      have htask := List.mem_of_getElem? hi'
      obtain ⟨candidate, hok⟩ := h.current task htask
      refine ⟨candidate, hframe _ _ _ (fun he => hne ?_) hok⟩
      have hsame := step_unique hn (h.mem_stepList htask).1 hstep he
      have hnodup : (tasks.map Task.item).Nodup := by
        rw [h.items]
        exact (List.Nodup.of_map _ hn).filter _
      have hlt : index < (tasks.map Task.item).length := by
        rw [List.length_map]
        exact (List.getElem?_eq_some_iff.mp hi).1
      refine (List.getElem?_inj hlt hnodup).mp ?_
      rw [List.getElem?_map, List.getElem?_map, hi, hi']
      simp [hsame]
  · obtain ⟨candidate, hok⟩ := h.later other ho hlt
    refine ⟨candidate, hframe _ _ _ (fun he => ?_) hok⟩
    rw [step_unique hn ho hstep he] at hlt
    omega
  · have hne : ∀ other ∈ d.stepList.filter (fun other => other.order < order),
        other.entryId ≠ step.entryId := by
      intro other ho he
      simp only [List.mem_filter, decide_eq_true_eq] at ho
      rw [step_unique hn ho.1 hstep he] at ho
      omega
    exact h.recorded.frame hsub (fun other ho => hlog _ (hne other ho))
      (fun other ho => hentries _ (hne other ho)) hfail rfl rfl rfl rfl
  · by_cases he : id = step.entryId
    · exact he ▸ List.mem_map_of_mem hstep
    · refine h.about id ?_
      rwa [← hlog id he]
  · rcases List.mem_append.mp hc with hc | hc
    · exact (h.noPostActions id).1 hc
    · simpa [isStepOf] using hs _ hc
  · rw [moveStep, hfail]
    exact (h.noPostActions id).2

/-- Every step of the plan has a status. -/
theorem StepsInv.status (h : StepsInv d s order tasks) {step : StepState}
    (hs : step ∈ d.stepList) : ∃ status candidate, StatusOk d s step status candidate ∧
      (∀ outcome, status = .settled outcome → step.order < order →
        Recorded s step.entryId outcome) ∧ (status ≠ .waiting → step.order ≤ order) := by
  rcases Nat.lt_trichotomy step.order order with hlt | heq | hgt
  · obtain ⟨c, o, hok, hrec⟩ := h.recorded.recorded step (by simpa using ⟨hs, hlt⟩)
    exact ⟨_, c, hok, fun outcome he _ => by cases he; exact hrec, fun _ => hlt.le⟩
  · have : step ∈ tasks.map Task.item := by
      rw [h.items]
      simpa [findPendingByOrder] using ⟨hs, heq⟩
    obtain ⟨task, ht, rfl⟩ := List.mem_map.mp this
    obtain ⟨c, hok⟩ := h.current task ht
    exact ⟨_, c, hok, fun _ _ hlt => absurd heq hlt.ne, fun _ => heq.le⟩
  · obtain ⟨c, hok⟩ := h.later step hs hgt
    exact ⟨_, c, hok, fun _ he => by (cases he), fun hne => absurd rfl hne⟩

end

/-! ## What the checks of a step tell -/

theorem allM_ok_true {α : Type} {p : α → Except EntryError Bool} {l : List α}
    (h : l.allM p = .ok true) : ∀ x ∈ l, p x = .ok true := by
  induction l with
  | nil => simp
  | cons a rest ih =>
    rw [List.allM] at h
    obtain ⟨b, hb, h⟩ := Except.bind_ok.mp h
    cases b with
    | false => simp [pure, Except.pure] at h
    | true =>
      intro x hx
      rcases List.mem_cons.mp hx with rfl | hx
      · exact hb
      · exact ih h x hx

/-- Succeeded dependencies are among the succeeded entries. -/
theorem has_of_allSucceeded {succeededEntries : EntryStates V} {dependencies : List String}
    (h : allSucceeded succeededEntries dependencies = .ok true) :
    ∀ x ∈ dependencies, succeededEntries.has x = true := by
  intro x hx
  have := allM_ok_true h x hx
  rw [KeyedMap.has]
  cases hget : succeededEntries.get? x with
  | some entry => rfl
  | none => simp [hget] at this

theorem checkDependencies_ok {s : ApplyState V} {entry : EntryState V}
    (h : checkDependencies s entry = .ok ()) :
    ∀ x ∈ entry.dependencies, s.succeededEntries.has x = true := by
  obtain ⟨succeeded, hs, h⟩ := Except.bind_ok.mp h
  cases succeeded with
  | false => simp at h
  | true => exact has_of_allSucceeded hs

/-- What `tryStep` comes to when it does not throw. -/
theorem tryStep_ok {d : Deploy V} {s : ApplyState V} {step : StepState} {entry : EntryState V}
    {begun : Begun V} (h : tryStep d s step entry = .ok begun) :
    (step.action ≠ .delete ∧ (∀ x ∈ entry.dependencies, s.succeededEntries.has x = true) ∧
      (begun = .called entry ∨ ∃ current, d.allOldEntries.get? step.entryId = some current ∧
        begun = .settled { entry := some { current with
          dependencies := entry.dependencies, connections := entry.connections } })) ∨
    (step.action = .delete ∧ getEntryDependents s.failedEntries entry none = [] ∧
      begun = .called entry) := by
  unfold tryStep at h
  have hold : ∀ {current}, getEntry d.allOldEntries step.entryId = .ok current →
      d.allOldEntries.get? step.entryId = some current := by
    intro current hc
    unfold getEntry at hc
    split at hc
    · rename_i hget
      simp only [Except.ok.injEq] at hc
      exact hc ▸ hget
    · cases hc
  split at h
  · rename_i ha
    obtain ⟨_, hdeps, h⟩ := Except.bind_ok.mp h
    simp only [pure, Except.pure, Except.ok.injEq] at h
    exact .inl ⟨by simp [ha], checkDependencies_ok hdeps, .inl h.symm⟩
  · rename_i ha
    obtain ⟨_, hdeps, h⟩ := Except.bind_ok.mp h
    obtain ⟨current, hcurrent, h⟩ := Except.bind_ok.mp h
    refine .inl ⟨by simp [ha], checkDependencies_ok hdeps, ?_⟩
    split at h
    · simp only [pure, Except.pure, Except.ok.injEq] at h
      exact .inr ⟨current, hold hcurrent, h.symm⟩
    · simp only [pure, Except.pure, Except.ok.injEq] at h
      exact .inl h.symm
  · rename_i ha
    obtain ⟨_, hdeps, h⟩ := Except.bind_ok.mp h
    obtain ⟨_, _, h⟩ := Except.bind_ok.mp h
    simp only [pure, Except.pure, Except.ok.injEq] at h
    exact .inl ⟨by simp [ha], checkDependencies_ok hdeps, .inl h.symm⟩
  · rename_i ha
    split at h
    · rename_i he
      simp only [Except.ok.injEq] at h
      exact .inr ⟨ha, List.isEmpty_iff.mp he, h.symm⟩
    · cases h

/-- What `beginStep` comes to, for a step with a candidate. -/
theorem beginStep_cases {d : Deploy V} {s : ApplyState V} {step : StepState}
    {candidate : EntryState V}
    (hc : (if step.action ≠ .delete then s.allNewEntries else d.allOldEntries).get? step.entryId =
      some candidate) :
    (d.options.handlers candidate.type = none ∧
      beginStep d s step = .error (.handlerNotFound candidate.type candidate.entryId)) ∨
    ((d.options.handlers candidate.type).isSome ∧
      ((∃ error, beginStep d s step = .ok (.settled (rollback d step.entryId error))) ∨
        ∃ begun, tryStep d s step candidate = .ok begun ∧ beginStep d s step = .ok begun)) := by
  have hget : getEntry (if step.action ≠ .delete then s.allNewEntries else d.allOldEntries)
      step.entryId = .ok candidate := by rw [getEntry, hc]
  cases hh : d.options.handlers candidate.type with
  | none =>
    have hnone : getEntryHandler d.options.handlers candidate =
        .error (.handlerNotFound candidate.type candidate.entryId) := by rw [getEntryHandler, hh]
    exact .inl ⟨rfl, by simp only [beginStep, hget, bind, Except.bind, hnone]⟩
  | some handler =>
    have hsome : getEntryHandler d.options.handlers candidate = .ok handler := by
      rw [getEntryHandler, hh]
    refine .inr ⟨rfl, ?_⟩
    cases ht : tryStep d s step candidate with
    | error error =>
      exact .inl ⟨error, by simp only [beginStep, hget, bind, Except.bind, hsome, ht, pure, Except.pure]⟩
    | ok begun =>
      exact .inr ⟨begun, rfl,
        by simp only [beginStep, hget, bind, Except.bind, hsome, ht, pure, Except.pure]⟩

/-! ## What the result maps tell -/

section
variable {d : Deploy V} {s : ApplyState V} {step : StepState} {candidate : EntryState V}
  {status : TaskStatus (List Warning) (StepOutcome V)} {outcome : StepOutcome V}

/-- A clean step saved a new entry, over dependencies that are clean too. -/
theorem StatusOk.clean (h : StatusOk d s step status candidate)
    (hc : Clean s.history step.entryId) :
    step.action ≠ .delete ∧ ∀ x ∈ candidate.dependencies, Clean s.history x := by
  obtain ⟨entry, hm⟩ := hc
  have hlog : .stepFinished step.entryId { entry := some entry } ∈ stepLog s.history step.entryId :=
    mem_stepLog.mpr ⟨hm, by simp [isStepOf]⟩
  obtain ⟨-, -, hl⟩ := h
  generalize stepLog s.history step.entryId = log at hl hlog
  cases hl with
  | unchanged ha _ _ hclean => exact ⟨ha, hclean⟩
  | saved ha _ _ _ hclean => exact ⟨ha, hclean⟩
  | notDeleted _ hw => simp [savedOutcome, hw] at hlog
  | waiting | running | deleted | skipped | threw => simp [rollback] at hlog

/-- A step that failed rolled its entry back. -/
theorem StatusOk.rolledBack (h : StatusOk d s step status candidate) {entry : Option (EntryState V)}
    {error : EntryError}
    (hm : .stepFinished step.entryId { entry, issues := .error error } ∈ s.history) :
    entry = d.allOldEntries.get? step.entryId := by
  have hlog : .stepFinished step.entryId { entry, issues := .error error } ∈
      stepLog s.history step.entryId := mem_stepLog.mpr ⟨hm, by simp [isStepOf]⟩
  obtain ⟨-, -, hl⟩ := h
  generalize stepLog s.history step.entryId = log at hl hlog
  cases hl with
  | skipped | threw =>
    simp only [rollback, List.mem_cons, Happening.stepFinished.injEq, StepOutcome.mk.injEq,
      reduceCtorEq, List.not_mem_nil, true_and, false_or, or_false] at hlog
    exact hlog.1
  | saved | notDeleted =>
    simp only [savedOutcome, List.mem_cons, Happening.stepFinished.injEq, StepOutcome.mk.injEq,
      reduceCtorEq, List.not_mem_nil, true_and, false_or, or_false] at hlog
    have := hlog.2
    split at this <;> cases this
  | waiting | running | unchanged | deleted => simp at hlog

/-- The entry of a failed step is among the failed ones. -/
theorem Recorded.failed_of_error (hrec : Recorded s step.entryId outcome)
    (hfail : ¬ PostActionFailed s.history step.entryId) {error : EntryError}
    (he : outcome.issues = .error error) :
    s.failedEntries.get? step.entryId = outcome.entry := by
  rw [(hrec.kept hfail).2, StepOutcome.failed, he]

end

theorem mem_dependents_of_failed {s : ApplyState V} {entry dependent : EntryState V} {x : String}
    (hx : s.failedEntries.get? x = some dependent) (hd : entry.entryId ∈ dependent.dependencies) :
    getEntryDependents s.failedEntries entry none ≠ [] :=
  List.ne_nil_of_mem (mem_getEntryDependents.mpr ⟨KeyedMap.mem_of_get? hx, hd⟩)

section
variable {d : Deploy V} {s : ApplyState V} {order : Nat}
  {tasks : Pool StepState (List Warning) (StepOutcome V)}

theorem mem_stepLog_of_finished {history : List (Happening V)} {id : String}
    {outcome : StepOutcome V} (h : .stepFinished id outcome ∈ history) : stepLog history id ≠ [] :=
  List.ne_nil_of_mem (mem_stepLog.mpr ⟨h, by simp [isStepOf]⟩)

theorem StepsInv.clean_of_succeeded (h : StepsInv d s order tasks) {x : String}
    (hx : s.succeededEntries.has x = true) : Clean s.history x := by
  obtain ⟨entry, hget⟩ := KeyedMap.has_iff.mp hx
  by_cases hm : x ∈ (d.stepList.filter fun step => step.order < order).map StepState.entryId
  · obtain ⟨step, hstep, rfl⟩ := List.mem_map.mp hm
    obtain ⟨_, ⟨e, issues⟩, hok, hrec⟩ := h.recorded.recorded step hstep
    rw [(hrec.kept (h.noPostActions _).2).1] at hget
    cases issues with
    | none =>
      obtain rfl : e = some entry := hget
      exact ⟨entry, hok.finished_iff.mpr rfl⟩
    | warnings list => cases hget
    | error error => cases hget
  · rw [(h.recorded.unrecorded x hm).1.1] at hget
    cases hget

/-- What depends on what, among clean steps. -/
theorem StepsInv.clean_of_dependsOn (h : StepsInv d s order tasks) {x y : String}
    (hx : Clean s.history x) (hd : DependsOn d.allNewEntries x y) : Clean s.history y := by
  obtain ⟨entry, hm⟩ := hx
  obtain ⟨step, hs, rfl⟩ := List.mem_map.mp (h.about x (mem_stepLog_of_finished hm))
  obtain ⟨status, candidate, hok, -⟩ := h.status hs
  obtain ⟨ha, hclean⟩ := hok.clean ⟨entry, hm⟩
  obtain ⟨e, he, hy⟩ := dependsOn_iff.mp hd
  have hc := hok.starts
  rw [candidate?, if_pos ha, he] at hc
  cases hc
  exact hclean y hy

theorem StepsInv.lookup (hn : (d.stepList.map StepState.entryId).Nodup)
    (h : StepsInv d s order tasks) {step : StepState} {candidate : EntryState V}
    (hs : step ∈ d.stepList) (ho : step.order = order) (hc : candidate? d step = some candidate) :
    (if step.action ≠ .delete then s.allNewEntries else d.allOldEntries).get? step.entryId =
      some candidate := by
  unfold candidate? at hc
  split
  · rename_i ha
    rw [if_pos ha] at hc
    rw [(h.recorded.unrecorded step.entryId fun hm => ?_).2, hc]
    obtain ⟨other, hother, he⟩ := List.mem_map.mp hm
    simp only [List.mem_filter, decide_eq_true_eq] at hother
    rw [step_unique hn hother.1 hs he] at hother
    omega
  · rename_i ha
    rwa [if_neg ha] at hc

/-- A handler that saves is called on clean dependencies. -/
theorem StepsInv.callOk_save (h : StepsInv d s order tasks) {step : StepState}
    {candidate : EntryState V} (ha : step.action ≠ .delete)
    (hc : candidate? d step = some candidate) (hlog : stepLog s.history step.entryId = [])
    (hclean : ∀ x ∈ candidate.dependencies, Clean s.history x) :
    CallOk d s.history step.action step.entryId := by
  refine ⟨fun a hm => ?_, fun _ x hx => ?_, fun hd => absurd hd ha, fun hd => absurd hd ha,
    fun hd => absurd hd ha⟩
  · have : _ ∈ stepLog s.history step.entryId := stepLog_of_mem hm (by simp [isStepOf])
    simp [hlog] at this
  · induction hx with
    | single hd =>
      obtain ⟨e, he, hy⟩ := dependsOn_iff.mp hd
      rw [candidate?, if_pos ha, he] at hc
      cases hc
      exact hclean _ hy
    | tail _ hd ih => exact h.clean_of_dependsOn ih hd

/-- A handler that deletes is called after those of the entries that depend
on its own, and on nothing that stays. -/
theorem StepsInv.callOk_delete (hplan : IsPlan d.allNewEntries d.allOldEntries d.stepList)
    (h : StepsInv d s order tasks) {step : StepState} {candidate : EntryState V}
    (hs : step ∈ d.stepList) (ho : step.order = order) (ha : step.action = .delete)
    (hc : candidate? d step = some candidate) (hlog : stepLog s.history step.entryId = [])
    (hdependents : getEntryDependents s.failedEntries candidate none = []) :
    CallOk d s.history step.action step.entryId := by
  have hid : candidate.entryId = step.entryId := by
    rw [candidate?, if_neg (not_not.mpr ha)] at hc
    exact KeyedMap.key_of_get? hc
  -- an entry rolled back before this step does not list it
  have hrolled : ∀ other ∈ d.stepList, other.order < order → ∀ entry error,
      .stepFinished other.entryId { entry, issues := .error error } ∈ s.history →
      ¬ DependsOn d.allOldEntries other.entryId step.entryId := by
    intro other hother hlt entry error hm hd
    obtain ⟨c, o, hok, hrec⟩ := h.recorded.recorded other (by simpa using ⟨hother, hlt⟩)
    obtain ⟨e, he, hy⟩ := dependsOn_iff.mp hd
    have hout := hok.finished_iff.mp hm
    rw [← hout] at hrec
    have hfailed := hrec.failed_of_error (h.noPostActions _).2 rfl
    rw [hok.rolledBack hm, he] at hfailed
    exact mem_dependents_of_failed hfailed (hid ▸ hy) hdependents
  refine ⟨fun a hm => ?_, fun hd => absurd ha hd, fun _ x hx hd => ?_, fun _ other hother ha' => ?_,
    fun _ x entry error hm hd => ?_⟩
  · have : _ ∈ stepLog s.history step.entryId := stepLog_of_mem hm (by simp [isStepOf])
    simp [hlog] at this
  · obtain ⟨e, he, hy⟩ := dependsOn_iff.mp hd
    obtain ⟨other, hother, rfl, ha'⟩ := (hplan.removes x).mpr ⟨KeyedMap.has_iff.mpr ⟨e, he⟩, hx⟩
    have hlt := hplan.dependents step hs ha other hother ha' hd
    rw [ho] at hlt
    obtain ⟨c, o, hok, hrec⟩ := h.recorded.recorded other (by simpa using ⟨hother, hlt⟩)
    have hnot := hrolled other hother hlt
    have hsub : ∀ y ∈ stepLog s.history other.entryId, y ∈ s.history :=
      fun y hy => (mem_stepLog.mp hy).1
    have hfin := hok.finished_iff.mpr rfl
    obtain ⟨-, -, hl⟩ := hok
    generalize stepLog s.history other.entryId = log at hl hsub
    cases hl with
    | unchanged hne | saved hne => exact absurd ha' hne
    | deleted => exact ⟨ha' ▸ hsub _ (by simp), false, hsub _ (by simp)⟩
    | notDeleted => exact ⟨ha' ▸ hsub _ (by simp), true, hsub _ (by simp)⟩
    | skipped | threw => exact absurd hd (hnot _ _ hfin)
  · have hlt := hplan.deletesLast step hs ha other hother ha'
    rw [ho] at hlt
    obtain ⟨c, o, hok, -⟩ := h.recorded.recorded other (by simpa using ⟨hother, hlt⟩)
    exact ⟨o, hok.finished_iff.mpr rfl⟩
  · obtain ⟨other, hother, rfl⟩ := List.mem_map.mp (h.about x (mem_stepLog_of_finished hm))
    refine hrolled other hother ?_ entry error hm hd
    rw [← ho]
    by_cases ha' : other.action = .delete
    · exact hplan.dependents step hs ha other hother ha' hd
    · exact hplan.deletesLast step hs ha other hother ha'

end

/-! ## The events keep the invariant while the steps run -/

section
variable {d : Deploy V} {s : ApplyState V} {order : Nat}
  {tasks : Pool StepState (List Warning) (StepOutcome V)} {index : Nat} {step : StepState}
  {old : TaskStatus (List Warning) (StepOutcome V)}

theorem StepsInv.at (h : StepsInv d s order tasks) (hi : tasks[index]? = some ⟨step, old⟩) :
    step ∈ d.stepList ∧ step.order = order ∧ ∃ candidate, StatusOk d s step old candidate := by
  have hm := List.mem_of_getElem? hi
  exact ⟨(h.mem_stepList hm).1, (h.mem_stepList hm).2, h.current _ hm⟩

theorem not_called_of_finished {history : List (Happening V)} {outcome : StepOutcome V} {id : String}
    (past : List (Happening V)) (action : StepAction) (x : String) (future : List (Happening V))
    (h : [.stepFinished id outcome] = past ++ .handlerCalled action x :: future) :
    CallOk d (history ++ past) action x := by
  have : .handlerCalled action x ∈ [Happening.stepFinished id outcome] := by rw [h]; simp
  simp at this

theorem StepsInv.startStep (hplan : IsPlan d.allNewEntries d.allOldEntries d.stepList)
    (h : StepsInv d s order tasks) (hi : tasks[index]? = some ⟨step, .waiting⟩) :
    Inv d (startStep d s order tasks index step) := by
  obtain ⟨hs, ho, candidate, hok⟩ := h.at hi
  have hlog : stepLog s.history step.entryId = [] := by
    obtain ⟨-, -, hl⟩ := hok
    generalize stepLog s.history step.entryId = log at hl
    cases hl
    rfl
  have hcand := hok.starts
  have hid : candidate.entryId = step.entryId := by
    unfold candidate? at hcand
    split at hcand <;> exact KeyedMap.key_of_get? hcand
  -- the handler is called on the candidate
  have hcalled : (d.options.handlers candidate.type).isSome →
      (step.action ≠ .delete → ∀ x ∈ candidate.dependencies, Clean s.history x) →
      CallOk d s.history step.action step.entryId →
      Inv d (moveStep { s with stepEntries := s.stepEntries.set candidate } order tasks index
        (.running []) [.handlerCalled step.action step.entryId]) := by
    intro hhandler hclean hcall
    have hsteps : ∀ x ∈ [(.handlerCalled step.action step.entryId : Happening V)],
        isStepOf step.entryId x = true := by simp [isStepOf]
    refine h.move hplan.nodup hi (fun id hne => KeyedMap.get?_set_of_ne (hid ▸ hne.symm)) hsteps
      (fun past action id future he => ?_)
      ⟨candidate, statusOk_move hcand hhandler hlog hsteps (.running ?_ fun ha x hx => ?_)⟩
    · obtain ⟨rfl, hx⟩ : past = [] ∧ _ := by
        cases past with
        | nil => exact ⟨rfl, he⟩
        | cons x rest => simp at he
      simp only [List.nil_append, List.cons.injEq, Happening.handlerCalled.injEq] at hx
      obtain ⟨⟨rfl, rfl⟩, -⟩ := hx
      simpa using hcall
    · rw [← hid]
      exact KeyedMap.get?_set_self _ _
    · exact (hclean ha x hx).mono (List.subset_append_left _ _)
  -- the step settles without its handler
  have hsettled : ∀ outcome, (d.options.handlers candidate.type).isSome →
      (∀ more, Life d (s.history ++ more) (s.stepEntries.get? step.entryId) step candidate
        (.settled outcome) [.stepFinished step.entryId outcome]) →
      Inv d (moveStep s order tasks index (.settled outcome) [.stepFinished step.entryId outcome]) := by
    intro outcome hhandler hlife
    have hsteps : ∀ x ∈ [(.stepFinished step.entryId outcome : Happening V)],
        isStepOf step.entryId x = true := by simp [isStepOf]
    exact h.move hplan.nodup hi (fun _ _ => rfl) hsteps not_called_of_finished
      ⟨candidate, statusOk_move hcand hhandler hlog hsteps (hlife _)⟩
  unfold Apply.startStep
  rcases beginStep_cases (h.lookup hplan.nodup hs ho hcand) with ⟨-, hb⟩ | ⟨hhandler, hb⟩
  · rw [hb]
    exact h.calls
  rcases hb with ⟨error, hb⟩ | ⟨begun, ht, hb⟩
  · rw [hb]
    exact hsettled _ hhandler fun more => .skipped
  rw [hb]
  rcases tryStep_ok ht with ⟨ha, hdeps, hbegun⟩ | ⟨ha, hdependents, rfl⟩
  · have hclean : ∀ x ∈ candidate.dependencies, Clean s.history x :=
      fun x hx => h.clean_of_succeeded (hdeps x hx)
    rcases hbegun with rfl | ⟨current, hcurrent, rfl⟩
    · exact hcalled hhandler (fun _ => hclean) (h.callOk_save ha hcand hlog hclean)
    · refine hsettled _ hhandler fun more => ?_
      have hkey := KeyedMap.key_of_get? hcurrent
      exact .unchanged ha hkey rfl fun x hx => (hclean x hx).mono (List.subset_append_left _ _)
  · exact hcalled hhandler (fun hne => absurd ha hne)
      (h.callOk_delete hplan hs ho ha hcand hlog hdependents)

/-- What is known of a step whose handler runs. -/
theorem StepsInv.running (h : StepsInv d s order tasks) {warnings : List Warning}
    (hi : tasks[index]? = some ⟨step, .running warnings⟩) :
    ∃ candidate, candidate? d step = some candidate ∧
      (d.options.handlers candidate.type).isSome ∧
      s.stepEntries.get? step.entryId = some candidate ∧
      (step.action ≠ .delete → ∀ x ∈ candidate.dependencies, Clean s.history x) ∧
      stepLog s.history step.entryId = [.handlerCalled step.action step.entryId] := by
  obtain ⟨-, -, candidate, hc, hhandler, hl⟩ := h.at hi
  refine ⟨candidate, hc, hhandler (by simp), ?_⟩
  generalize stepLog s.history step.entryId = log at hl ⊢
  cases hl with
  | running hentry hclean => exact ⟨hentry, hclean, rfl⟩

theorem not_called {history happenings : List (Happening V)}
    (hno : ∀ action id, .handlerCalled action id ∉ happenings)
    (past : List (Happening V)) (action : StepAction) (x : String) (future : List (Happening V))
    (h : happenings = past ++ .handlerCalled action x :: future) :
    CallOk d (history ++ past) action x :=
  absurd (by rw [h]; simp) (hno action x)

theorem StepsInv.addWarning (hplan : IsPlan d.allNewEntries d.allOldEntries d.stepList)
    (h : StepsInv d s order tasks) {warnings more : List Warning}
    (hi : tasks[index]? = some ⟨step, .running warnings⟩) :
    Inv d (moveStep s order tasks index (.running (warnings ++ more)) []) := by
  obtain ⟨candidate, hc, hhandler, hentry, hclean, hlog⟩ := h.running hi
  have hlife : Life d (s.history ++ []) (s.stepEntries.get? step.entryId) step candidate
      (.running (warnings ++ more)) ([.handlerCalled step.action step.entryId] ++ []) :=
    .running hentry fun ha x hx => (hclean ha x hx).mono (List.subset_append_left _ _)
  exact h.move hplan.nodup hi (fun _ _ => rfl) (by simp) (not_called (by simp))
    ⟨candidate, statusOk_move hc hhandler hlog (by simp) hlife⟩

theorem StepsInv.handlerReturned (hplan : IsPlan d.allNewEntries d.allOldEntries d.stepList)
    (h : StepsInv d s order tasks) {warnings : List Warning} {entry : EntryState V}
    {result : Option V} (hi : tasks[index]? = some ⟨step, .running warnings⟩)
    (he : s.stepEntries.get? step.entryId = some entry) :
    Inv d (handlerReturned s order tasks index step warnings entry result) := by
  obtain ⟨candidate, hc, hhandler, hentry, hclean, hlog⟩ := h.running hi
  obtain rfl : entry = candidate := Option.some.inj (he.symm.trans hentry)
  have hkey := KeyedMap.key_of_get? hentry
  unfold Apply.handlerReturned
  -- the entry keeps its id, and the step its log
  have hmove : ∀ ended : EntryState V × StepOutcome V,
      ended.1.entryId = entry.entryId →
      (∀ more, Life d (s.history ++ more) ((s.stepEntries.set ended.1).get? step.entryId) step
        entry (.settled ended.2)
        [.handlerCalled step.action step.entryId, .handlerReturned step.entryId !warnings.isEmpty,
          .stepFinished step.entryId ended.2]) →
      Inv d (moveStep { s with stepEntries := s.stepEntries.set ended.1 } order tasks index
        (.settled ended.2) [.handlerReturned step.entryId !warnings.isEmpty,
          .stepFinished step.entryId ended.2]) := by
    intro ended hid hlife
    have hsteps : ∀ x ∈ [.handlerReturned step.entryId !warnings.isEmpty,
        (.stepFinished step.entryId ended.2 : Happening V)], isStepOf step.entryId x = true := by
      simp [isStepOf]
    exact h.move hplan.nodup hi
      (fun id hne => KeyedMap.get?_set_of_ne (by rw [hid, hkey]; exact hne.symm)) hsteps
      (not_called (by simp)) ⟨entry, statusOk_move hc hhandler hlog hsteps (hlife _)⟩
  have hself : ∀ saved : EntryState V, saved.entryId = entry.entryId →
      (s.stepEntries.set saved).get? step.entryId = some saved := by
    intro saved hid
    rw [KeyedMap.get?_set, if_pos (hid.trans hkey)]
  have hsaved : ∀ saved : EntryState V, saved.entryId = entry.entryId →
      saved.dependencies = entry.dependencies → step.action ≠ .delete →
      endStep s.allNewEntries step.action entry result warnings =
        (saved, savedOutcome saved warnings) →
      let ended := endStep s.allNewEntries step.action entry result warnings
      Inv d (moveStep { s with stepEntries := s.stepEntries.set ended.1 } order tasks index
        (.settled ended.2) [.handlerReturned step.entryId !warnings.isEmpty,
          .stepFinished step.entryId ended.2]) := by
    intro saved hid hdeps ha hended ended
    rw [show ended = endStep s.allNewEntries step.action entry result warnings from rfl]
    rw [hended]
    exact hmove (saved, savedOutcome saved warnings) hid fun more =>
      .saved ha (hself saved hid) (hid.trans hkey) hdeps fun x hx =>
        (hclean ha x hx).mono (List.subset_append_left _ _)
  cases ha : step.action with
  | create => exact ha ▸ hsaved { entry with result } rfl rfl (by simp [ha]) (by rw [ha]; rfl)
  | update =>
    exact ha ▸ hsaved { entry with result := result.or entry.result } rfl rfl (by simp [ha])
      (by rw [ha]; rfl)
  | replace =>
    exact ha ▸ hsaved { entry with result := result.or entry.result } rfl rfl (by simp [ha])
      (by rw [ha]; rfl)
  | delete =>
    cases warnings with
    | nil =>
      refine hmove (entry, { entry := none }) rfl fun more => ?_
      exact .deleted ha (hself entry rfl)
    | cons first rest =>
      let saved := { entry with
        dependencies := entry.dependencies.filter s.allNewEntries.has, connections := none }
      refine hmove (saved, savedOutcome saved (first :: rest)) rfl fun more => ?_
      refine .notDeleted ha (by simp) (hself saved rfl) hkey fun x hx => ?_
      obtain ⟨hx, hhas⟩ := List.mem_filter.mp hx
      exact ⟨hx, (h.recorded.allNew x hhas).imp_right (·.mono (List.subset_append_left _ _))⟩

theorem StepsInv.handlerThrew (hplan : IsPlan d.allNewEntries d.allOldEntries d.stepList)
    (h : StepsInv d s order tasks) {warnings : List Warning} {thrown : Thrown}
    (hi : tasks[index]? = some ⟨step, .running warnings⟩) :
    Inv d (handlerThrew d s order tasks index step thrown) := by
  obtain ⟨candidate, hc, hhandler, hentry, hclean, hlog⟩ := h.running hi
  unfold Apply.handlerThrew
  cases ht : thrown.toError? with
  | none => exact h.calls
  | some error =>
    have hsteps : ∀ x ∈ [.handlerThrew step.entryId thrown,
        (.stepFinished step.entryId (rollback d step.entryId error) : Happening V)],
        isStepOf step.entryId x = true := by simp [isStepOf]
    refine h.move hplan.nodup hi (fun _ _ => rfl) hsteps (not_called (by simp))
      ⟨candidate, statusOk_move hc hhandler hlog hsteps (.threw ht hentry fun ha x hx => ?_)⟩
    exact (hclean ha x hx).mono (List.subset_append_left _ _)

end

/-! ## Registering post actions -/

theorem PostActionsOk.congr {d : Deploy V} {history : List (Happening V)}
    {pending pending' : List PostActionEntry} (h : PostActionsOk d history pending)
    (he : ∀ p, p ∈ pending' ↔ p ∈ pending) : PostActionsOk d history pending' := by
  refine ⟨fun p hp => h.registered p ((he p).mp hp), fun p hp => h.step p ((he p).mp hp),
    h.handler, fun id hid => ?_, h.failed⟩
  refine (h.processed id hid).imp_left ?_
  rintro ⟨p, hp, hpid⟩
  exact ⟨p, (he p).mpr hp, hpid⟩

/-- One more registered post action, of an entry whose handler was called. -/
theorem PostActionsOk.register {d : Deploy V} {history : List (Happening V)}
    {pending pending' : List PostActionEntry} {p : PostActionEntry}
    (h : PostActionsOk d history pending)
    (hstep : ∃ step ∈ d.stepList, step.entryId = p.entryId ∧ step.action = p.action)
    (hcalled : ∃ a, .handlerCalled a p.entryId ∈ history)
    (he : ∀ q, q ∈ pending' ↔ q ∈ pending ∨ q = p) :
    PostActionsOk d (history ++ [.postActionRegistered p.entryId]) pending' := by
  have hfail : ∀ id, PostActionFailed (history ++ [.postActionRegistered p.entryId]) id ↔
      PostActionFailed history id := fun id => by simp [PostActionFailed]
  refine ⟨fun q hq => ?_, fun q hq => ?_, fun id hid => ?_, fun id hid => ?_, fun id hid => ?_⟩
  · rcases (he q).mp hq with hq | rfl
    · exact List.mem_append_left _ (h.registered q hq)
    · simp
  · rcases (he q).mp hq with hq | rfl
    · exact h.step q hq
    · exact hstep
  · have hor : .postActionRegistered id ∈ history ∨ id = p.entryId := by simpa using hid
    have : ∃ a, .handlerCalled a id ∈ history := by
      rcases hor with hor | rfl
      · exact h.handler id hor
      · exact hcalled
    exact this.imp fun a ha => List.mem_append_left _ ha
  · have hor : .postActionRegistered id ∈ history ∨ id = p.entryId := by simpa using hid
    rcases hor with hor | rfl
    · rcases h.processed id hor with ⟨q, hq, hqid⟩ | hc | hf
      · exact .inl ⟨q, (he q).mpr (.inl hq), hqid⟩
      · exact .inr (.inl (List.mem_append_left _ hc))
      · exact .inr (.inr ((hfail id).mpr hf))
    · exact .inl ⟨p, (he p).mpr (.inr rfl), rfl⟩
  · exact List.mem_append_left _ (h.failed id ((hfail id).mp hid))

section
variable {d : Deploy V} {s : ApplyState V} {order : Nat}
  {tasks : Pool StepState (List Warning) (StepOutcome V)} {index : Nat} {step : StepState}

theorem StepsInv.register (h : StepsInv d s order tasks) {warnings : List Warning}
    (hi : tasks[index]? = some ⟨step, .running warnings⟩) (requireDependents : Bool) :
    StepsInv d { s with
      postActions := s.postActions ++
        [{ requireDependents, action := step.action, entryId := step.entryId }]
      history := s.history ++ [.postActionRegistered step.entryId] } order tasks := by
  obtain ⟨hs, -, -⟩ := h.at hi
  obtain ⟨-, -, -, -, -, hlog⟩ := h.running hi
  have hcalled : .handlerCalled step.action step.entryId ∈ stepLog s.history step.entryId := by
    rw [hlog]
    exact List.mem_cons_self
  have hcalled := (mem_stepLog.mp hcalled).1
  have hsub := List.subset_append_left s.history [.postActionRegistered step.entryId]
  have hstep : ∀ id, stepLog (s.history ++ [.postActionRegistered step.entryId]) id =
      stepLog s.history id := fun id => by simp [stepLog, isStepOf]
  have hfail : ∀ id, PostActionFailed (s.history ++ [.postActionRegistered step.entryId]) id ↔
      PostActionFailed s.history id := fun id => by simp [PostActionFailed]
  refine ⟨h.items, fun task ht => ?_, fun other ho hlt => ?_, ?_, fun id hid => ?_, ?_,
    fun id => ⟨?_, ?_⟩, h.calls.append (not_called (by simp))⟩
  · obtain ⟨c, hok⟩ := h.current task ht
    exact ⟨c, hok.frame hsub (hstep _) rfl⟩
  · obtain ⟨c, hok⟩ := h.later other ho hlt
    exact ⟨c, hok.frame hsub (hstep _) rfl⟩
  · exact h.recorded.frame hsub (fun _ _ => hstep _) (fun _ _ => rfl) hfail rfl rfl rfl rfl
  · exact h.about id (by rwa [← hstep id])
  · refine h.postActions.register
      (p := { requireDependents, action := step.action, entryId := step.entryId })
      ⟨step, hs, rfl, rfl⟩ ⟨_, hcalled⟩ fun q => ?_
    simp only [List.mem_append, List.mem_singleton]
    tauto
  · simpa using (h.noPostActions id).1
  · rw [hfail]
    exact (h.noPostActions id).2

end

/-! ## Between two orders -/

/-- The orders below this one are done. -/
structure BetweenOrders (d : Deploy V) (s : ApplyState V) (order : Nat) : Prop where
  later : ∀ step ∈ d.stepList, order ≤ step.order → ∃ candidate, StatusOk d s step .waiting candidate
  recorded : RecordedAll d s (d.stepList.filter fun step => step.order < order)
  about : ∀ id, stepLog s.history id ≠ [] → id ∈ d.stepList.map StepState.entryId
  pushed : s.postActions = []
  postActions : PostActionsOk d s.history s.allPostActions.flatten
  noPostActions : ∀ id, .postActionCalled id ∉ s.history ∧ ¬ PostActionFailed s.history id
  calls : CallsOk d s.history

theorem PostActionsInv.frame {d : Deploy V} {s s' : ApplyState V}
    {pending pending' : List PostActionEntry} (h : PostActionsInv d s pending)
    (hhistory : s'.history = s.history) (hentries : s'.stepEntries = s.stepEntries)
    (hsucceeded : s'.succeededEntries = s.succeededEntries)
    (hfailed : s'.failedEntries = s.failedEntries) (herrors : s'.errorList = s.errorList)
    (he : ∀ p, p ∈ pending' ↔ p ∈ pending) : PostActionsInv d s' pending' := by
  refine ⟨fun step hs => ?_, fun id hid => ?_, ?_, ?_, ?_, ?_, ?_⟩
  · obtain ⟨c, o, hok, hrec⟩ := h.recorded step hs
    refine ⟨c, o, hok.frame (by rw [hhistory]; exact fun _ hx => hx) (by rw [hhistory])
      (by rw [hentries]), ?_⟩
    constructor
    · rw [hhistory, hsucceeded, hfailed]; exact hrec.kept
    · rw [hhistory, hsucceeded, hfailed, hentries]; exact hrec.putBack
    · rw [herrors]; exact hrec.errors
  · rw [Unrecorded, hsucceeded, hfailed]
    exact h.unrecorded id hid
  · rw [hhistory]; exact h.about
  · rw [hhistory]; exact h.postActions.congr he
  · rw [hhistory]; exact h.called
  · rw [hhistory, herrors]; exact h.errors
  · rw [hhistory]; exact h.calls

theorem PostActionsInv.startPostActions {d : Deploy V} {s : ApplyState V}
    (h : PostActionsInv d s s.allPostActions.flatten) (hp : s.postActions = []) :
    Inv d (startPostActions s) := by
  unfold Apply.startPostActions
  cases hall : s.allPostActions with
  | nil =>
    rw [hall] at h
    exact h.frame rfl rfl rfl rfl rfl fun p => by simp
  | cons stepActions rest =>
    rw [hall] at h
    refine ⟨h.frame rfl rfl rfl rfl rfl fun p => by simp [hp], fun task ht hne => ?_⟩
    exact absurd (status_of_mem_start ht).1 hne

theorem BetweenOrders.startOrder {d : Deploy V} {s : ApplyState V} {order : Nat}
    (hplan : IsPlan d.allNewEntries d.allOldEntries d.stepList) (h : BetweenOrders d s order) :
    Inv d (startOrder d s order) := by
  unfold Apply.startOrder
  by_cases he : (findPendingByOrder d.stepList order).isEmpty
  · -- no step has this order, so none has a later one
    have hall : ∀ step ∈ d.stepList, step.order < order := by
      intro step hs
      by_contra hle
      obtain ⟨other, ho, horder⟩ := hplan.contiguous step hs order (by omega)
      have : other ∈ findPendingByOrder d.stepList order := by
        simpa [findPendingByOrder] using ⟨ho, horder⟩
      rw [List.isEmpty_iff.mp he] at this
      cases this
    have hfilter : d.stepList.filter (fun step => step.order < order) = d.stepList :=
      List.filter_eq_self.mpr fun step hs => by simpa using hall step hs
    rw [if_pos he]
    have hrec := h.recorded
    rw [hfilter] at hrec
    refine PostActionsInv.startPostActions ?_ h.pushed
    exact ⟨hrec.recorded, fun id hid => (hrec.unrecorded id hid).1, h.about, h.postActions,
      fun id hc => absurd hc (h.noPostActions id).1,
      fun id error hf => absurd ⟨error, hf⟩ (h.noPostActions id).2, h.calls⟩
  · rw [if_neg he]
    have hframe : ∀ {step status candidate}, StatusOk d s step status candidate →
        StatusOk d { s with phase := .steps order (start (findPendingByOrder d.stepList order)) }
          step status candidate := fun hok => hok.frame (by simp) (by simp) (by simp)
    refine ⟨map_item_start, fun task ht => ?_, fun step hs hlt => ?_, ?_, h.about, ?_,
      h.noPostActions, h.calls⟩
    · obtain ⟨hw, hm⟩ := status_of_mem_start ht
      simp only [findPendingByOrder, List.mem_filter, decide_eq_true_eq] at hm
      obtain ⟨c, hok⟩ := h.later task.item hm.1 hm.2.ge
      exact ⟨c, hw ▸ hframe hok⟩
    · obtain ⟨c, hok⟩ := h.later step hs hlt.le
      exact ⟨c, hframe hok⟩
    · exact h.recorded.frame (fun _ hx => hx) (fun _ _ => rfl) (fun _ _ => rfl) (fun _ => .rfl)
        rfl rfl rfl rfl
    · exact h.postActions.congr fun p => by simp [h.pushed]

/-- Pushing moves the registered post actions, and nothing else. -/
theorem pushPostActions_frame (s : ApplyState V) :
    (pushPostActions s).history = s.history ∧ (pushPostActions s).stepEntries = s.stepEntries ∧
      (pushPostActions s).allNewEntries = s.allNewEntries ∧
      (pushPostActions s).succeededEntries = s.succeededEntries ∧
      (pushPostActions s).failedEntries = s.failedEntries ∧
      (pushPostActions s).errorList = s.errorList := by
  unfold pushPostActions
  split <;> exact ⟨rfl, rfl, rfl, rfl, rfl, rfl⟩

theorem postActions_pushPostActions (s : ApplyState V) : (pushPostActions s).postActions = [] := by
  unfold pushPostActions
  split
  · rename_i h
    exact List.isEmpty_iff.mp h
  · rfl

theorem mem_pushPostActions (s : ApplyState V) (p : PostActionEntry) :
    p ∈ (pushPostActions s).allPostActions.flatten ↔
      p ∈ s.postActions ++ s.allPostActions.flatten := by
  unfold pushPostActions
  split
  · rename_i h
    rw [List.isEmpty_iff.mp h, List.nil_append]
  · simp [or_comm]

theorem StepsInv.finishOrder {d : Deploy V} {s : ApplyState V} {order : Nat}
    {tasks : Pool StepState (List Warning) (StepOutcome V)}
    (hplan : IsPlan d.allNewEntries d.allOldEntries d.stepList) (h : StepsInv d s order tasks)
    (hdone : done tasks = true) : Inv d (finishOrder d s order tasks) := by
  refine BetweenOrders.startOrder hplan ?_
  obtain ⟨hhistory, hentries, hpost, hall⟩ :=
    foldl_recordOutcome (results tasks) (pushPostActions s)
  obtain ⟨phistory, pentries, pnew, psucceeded, pfailed, perrors⟩ := pushPostActions_frame s
  rw [phistory] at hhistory
  rw [pentries] at hentries
  have hstatus : ∀ {step status candidate}, StatusOk d s step status candidate →
      StatusOk d (pushPostActions s) step status candidate :=
    fun hok => hok.frame (by simp [phistory]) (by simp [phistory]) (by simp [pentries])
  have hsteps : ∀ step, step ∈ (d.stepList.filter fun step => step.order < order) ++
      tasks.map Task.item ↔ step ∈ d.stepList.filter fun step => step.order < order + 1 := by
    intro step
    rw [h.items, findPendingByOrder]
    simp only [List.mem_append, List.mem_filter, decide_eq_true_eq, ← and_or_left]
    exact and_congr_right fun _ => by omega
  have hn : (((d.stepList.filter fun step => step.order < order) ++ tasks.map Task.item).map
      StepState.entryId).Nodup := by
    rw [h.items, List.map_append, List.nodup_append]
    refine ⟨hplan.nodup.sublist (List.filter_sublist.map _),
      hplan.nodup.sublist (List.filter_sublist.map _), fun x hx y hy hxy => ?_⟩
    obtain ⟨step, hs, rfl⟩ := List.mem_map.mp hx
    obtain ⟨other, ho, rfl⟩ := List.mem_map.mp hy
    simp only [findPendingByOrder, List.mem_filter, decide_eq_true_eq] at hs ho
    rw [step_unique hplan.nodup hs.1 ho.1 hxy] at hs
    omega
  have hpushed : RecordedAll d (pushPostActions s)
      (d.stepList.filter fun step => step.order < order) :=
    h.recorded.frame (by simp [phistory]) (by simp [phistory]) (by simp [pentries])
      (by simp [phistory]) pnew psucceeded pfailed perrors
  have hrec := (hpushed.recordResults hdone
    (fun task ht => (h.current task ht).imp fun _ hok => hstatus hok) hn
    (fun id => by rw [phistory]; exact (h.noPostActions id).2)).congr hsteps
  refine ⟨fun step hs hle => ?_, hrec, ?_, hpost.trans (postActions_pushPostActions s), ?_, ?_, ?_⟩
  · obtain ⟨c, hok⟩ := h.later step hs (by omega)
    exact ⟨c, hok.frame (by simp [hhistory]) (by simp [hhistory]) (by simp [hentries])⟩
  · rw [hhistory]; exact h.about
  · rw [hhistory, hall]; exact h.postActions.congr (mem_pushPostActions s)
  · rw [hhistory]; exact h.noPostActions
  · rw [hhistory]; exact h.calls

theorem candidate?_isSome {d : Deploy V}
    (hplan : IsPlan d.allNewEntries d.allOldEntries d.stepList) {step : StepState}
    (hs : step ∈ d.stepList) : ∃ candidate, candidate? d step = some candidate := by
  unfold candidate?
  split
  · rename_i ha
    exact KeyedMap.has_iff.mp ((hplan.saves step.entryId).mp ⟨step, hs, rfl, ha⟩)
  · rename_i ha
    exact KeyedMap.has_iff.mp
      ((hplan.removes step.entryId).mp ⟨step, hs, rfl, not_not.mp ha⟩).1

/-- **The invariant holds at first.** -/
theorem inv_initial {d : Deploy V} (hplan : IsPlan d.allNewEntries d.allOldEntries d.stepList) :
    Inv d (initial d) := by
  have hstart : BetweenOrders d { allNewEntries := d.allNewEntries, phase := .resolved } 0 := by
    refine ⟨fun step hs _ => ?_, ⟨by simp, fun id _ => ⟨⟨rfl, rfl⟩, rfl⟩, fun id hid => .inl hid⟩,
      by simp [stepLog], rfl, ⟨by simp, by simp, by simp, by simp, by simp [PostActionFailed]⟩,
      by simp [PostActionFailed], fun past action id future he => by simp at he⟩
    obtain ⟨c, hc⟩ := candidate?_isSome hplan hs
    exact ⟨c, hc, fun hne => absurd rfl hne, .waiting⟩
  unfold initial
  dsimp only
  split
  · exact hstart.calls
  · exact hstart.startOrder hplan

/-! ## The events keep the invariant while the post actions run -/

/-- What happens to a registered post action leaves the bookkeeping right. -/
theorem PostActionsOk.proceed {d : Deploy V} {history happenings : List (Happening V)}
    {pending : List PostActionEntry} (h : PostActionsOk d history pending)
    (hreg : ∀ id, .postActionRegistered id ∉ happenings)
    (hfail : ∀ id error, .postActionFailed id error ∈ happenings →
      .postActionRegistered id ∈ history) :
    PostActionsOk d (history ++ happenings) pending := by
  have hsub := List.subset_append_left history happenings
  have hold : ∀ id, .postActionRegistered id ∈ history ++ happenings →
      (.postActionRegistered id : Happening V) ∈ history := fun id hid => by
    rcases List.mem_append.mp hid with hid | hid
    · exact hid
    · exact absurd hid (hreg id)
  refine ⟨fun p hp => hsub (h.registered p hp), h.step, fun id hid => ?_, fun id hid => ?_,
    fun id hid => ?_⟩
  · exact (h.handler id (hold id hid)).imp fun a ha => hsub ha
  · rcases h.processed id (hold id hid) with hp | hc | hf
    · exact .inl hp
    · exact .inr (.inl (hsub hc))
    · exact .inr (.inr (hf.imp fun error he => hsub he))
  · obtain ⟨error, he⟩ := hid
    rcases List.mem_append.mp he with he | he
    · exact hsub (h.failed id ⟨error, he⟩)
    · exact hsub (hfail id error he)

/-- What happens to post actions leaves the steps as they are. -/
theorem PostActionsInv.extend {d : Deploy V} {s s' : ApplyState V}
    {pending pending' : List PostActionEntry} {happenings : List (Happening V)}
    (h : PostActionsInv d s pending) (hhistory : s'.history = s.history ++ happenings)
    (hs : ∀ x ∈ happenings, ∀ id, isStepOf id x = false) (hentries : s'.stepEntries = s.stepEntries)
    (hrecorded : ∀ id outcome, Recorded s id outcome → Recorded s' id outcome)
    (hunrecorded : ∀ id, id ∉ d.stepList.map StepState.entryId → Unrecorded s id → Unrecorded s' id)
    (hpost : PostActionsOk d s'.history pending')
    (hcalled : ∀ id, .postActionCalled id ∈ happenings → ∀ entry error,
      .stepFinished id { entry, issues := .error error } ∉ s.history)
    (herrors : ∀ error, error ∈ s.errorList ∨ (∃ id, .postActionFailed id error ∈ happenings) →
      error ∈ s'.errorList) :
    PostActionsInv d s' pending' := by
  have hsub : s.history ⊆ s'.history := by
    rw [hhistory]
    exact List.subset_append_left _ _
  have hlog : ∀ id, stepLog s'.history id = stepLog s.history id := by
    intro id
    rw [hhistory, stepLog_append, stepLog_eq_nil fun x hx => hs x hx id, List.append_nil]
  have hfinished : ∀ id outcome, .stepFinished id outcome ∈ s'.history →
      .stepFinished id outcome ∈ s.history := by
    intro id outcome hm
    have : _ ∈ stepLog s'.history id := stepLog_of_mem hm (by simp [isStepOf])
    rw [hlog] at this
    exact (mem_stepLog.mp this).1
  refine ⟨fun step hstep => ?_, fun id hid => hunrecorded id hid (h.unrecorded id hid),
    fun id hid => h.about id (by rwa [← hlog]), hpost, fun id hid entry error hm => ?_,
    fun id error hf => ?_, ?_⟩
  · obtain ⟨c, o, hok, hrec⟩ := h.recorded step hstep
    exact ⟨c, o, hok.frame hsub (hlog _) (by rw [hentries]), hrecorded _ _ hrec⟩
  · rw [hhistory, List.mem_append] at hid
    rcases hid with hid | hid
    · exact h.called id hid entry error (hfinished _ _ hm)
    · exact hcalled id hid entry error (hfinished _ _ hm)
  · rw [hhistory, List.mem_append] at hf
    rcases hf with hf | hf
    · exact herrors error (.inl (h.errors id error hf))
    · exact herrors error (.inr ⟨id, hf⟩)
  · rw [hhistory]
    refine h.calls.append (not_called fun action id hm => ?_)
    simpa [isStepOf] using hs _ hm id

theorem Recorded.frame {s s' : ApplyState V} {id : String} {outcome : StepOutcome V}
    (h : Recorded s id outcome)
    (hfail : PostActionFailed s'.history id ↔ PostActionFailed s.history id)
    (hentries : s'.stepEntries = s.stepEntries)
    (hsucceeded : s'.succeededEntries.get? id = s.succeededEntries.get? id)
    (hfailed : s'.failedEntries.get? id = s.failedEntries.get? id)
    (herrors : s.errorList ⊆ s'.errorList) : Recorded s' id outcome := by
  constructor
  · rw [hfail, hsucceeded, hfailed]; exact h.kept
  · rw [hfail, hsucceeded, hfailed, hentries]; exact h.putBack
  · exact fun error he => herrors (h.errors error he)

section
variable {d : Deploy V} {s : ApplyState V} {tasks : Pool PostActionEntry Unit Unit}
  {index : Nat} {p : PostActionEntry} {entry : EntryState V} {pending : List PostActionEntry}

/-- A failed step keeps its post actions from being called. -/
theorem not_failed_of_checkPostAction (hplan : IsPlan d.allNewEntries d.allOldEntries d.stepList)
    (h : PostActionsInv d s pending) (hp : p ∈ pending) (hid : entry.entryId = p.entryId)
    (hcheck : checkPostAction s p entry = .ok ()) (saved : Option (EntryState V))
    (error : EntryError) :
    .stepFinished p.entryId { entry := saved, issues := .error error } ∉ s.history := by
  intro hm
  obtain ⟨step, hs, hstep, haction⟩ := h.postActions.step p hp
  rw [← hstep] at hm
  obtain ⟨c, o, hok, hrec⟩ := h.recorded step hs
  have hrolled := hok.rolledBack hm
  have hout := hok.finished_iff.mp hm
  rw [← hout] at hrec
  have hskip : s.failedEntries.has p.entryId = true ∨
      (s.succeededEntries.has p.entryId = false ∧ p.action ≠ .delete) := by
    rw [← hstep]
    by_cases hf : PostActionFailed s.history step.entryId
    · obtain ⟨-, e, -, he⟩ := hrec.putBack hf
      exact .inl (KeyedMap.has_iff.mpr ⟨_, he⟩)
    · obtain ⟨hsucceeded, hfailed⟩ := hrec.kept hf
      by_cases ha : step.action = .delete
      · obtain ⟨e, he⟩ := KeyedMap.has_iff.mp ((hplan.removes step.entryId).mp ⟨step, hs, rfl, ha⟩).1
        exact .inl (KeyedMap.has_iff.mpr ⟨e, by rw [hfailed, StepOutcome.failed, hrolled, he]⟩)
      · exact .inr ⟨KeyedMap.has_eq_false.mpr hsucceeded, haction ▸ ha⟩
  rw [← hid] at hskip
  simp [checkPostAction, hskip, bind, Except.bind] at hcheck

/-- The tasks a worker took were called or failed. -/
abbrev Taken (s : ApplyState V) (tasks : Pool PostActionEntry Unit Unit) : Prop :=
  ∀ task ∈ tasks, task.status ≠ .waiting → .postActionCalled task.item.entryId ∈ s.history ∨
    PostActionFailed s.history task.item.entryId

theorem Taken.move {status old : TaskStatus Unit Unit} {s' : ApplyState V}
    (h : Taken s tasks) (hsub : s.history ⊆ s'.history) (hi : tasks[index]? = some ⟨p, old⟩)
    (hnew : .postActionCalled p.entryId ∈ s'.history ∨ PostActionFailed s'.history p.entryId) :
    Taken s' (setStatus tasks index status) := by
  intro task ht hne
  obtain ⟨i, hi'⟩ := List.getElem?_of_mem ht
  rw [getElem?_setStatus] at hi'
  split at hi'
  · rename_i he
    subst he
    rw [hi] at hi'
    simp only [Option.map_some, Option.some.injEq] at hi'
    subst hi'
    exact hnew
  · exact (h task (List.mem_of_getElem? hi') hne).imp (fun hc => hsub hc)
      fun hf => hf.imp fun error he => hsub he

/-- A post action that is called, returns or registers another leaves the maps. -/
theorem PostActionsInv.quiet {happenings : List (Happening V)} {s' : ApplyState V}
    {pending' : List PostActionEntry} (h : PostActionsInv d s pending)
    (hhistory : s'.history = s.history ++ happenings)
    (hs : ∀ x ∈ happenings, ∀ id, isStepOf id x = false)
    (hfail : ∀ id error, .postActionFailed id error ∉ happenings)
    (hentries : s'.stepEntries = s.stepEntries)
    (hsucceeded : s'.succeededEntries = s.succeededEntries)
    (hfailed : s'.failedEntries = s.failedEntries) (herrors : s'.errorList = s.errorList)
    (hpost : PostActionsOk d s'.history pending')
    (hcalled : ∀ id, .postActionCalled id ∈ happenings → ∀ entry error,
      .stepFinished id { entry, issues := .error error } ∉ s.history) :
    PostActionsInv d s' pending' := by
  have hsame : ∀ id, PostActionFailed s'.history id ↔ PostActionFailed s.history id := by
    intro id
    refine exists_congr fun error => ?_
    rw [hhistory, List.mem_append, or_iff_left (hfail id error)]
  refine h.extend hhistory hs hentries (fun id outcome hrec => ?_) (fun id _ hun => ?_) hpost
    hcalled fun error he => ?_
  · exact hrec.frame (hsame id) hentries (by rw [hsucceeded]) (by rw [hfailed])
      (by rw [herrors]; exact fun _ hx => hx)
  · rwa [Unrecorded, hsucceeded, hfailed]
  · rw [herrors]
    rcases he with he | ⟨id, he⟩
    · exact he
    · exact absurd he (hfail id error)

/-- **A failed post action puts its entry back**, as partial. -/
theorem PostActionsInv.failPostAction {old : TaskStatus Unit Unit} (h : PostActionsInv d s pending)
    (htaken : Taken s tasks) (hi : tasks[index]? = some ⟨p, old⟩) (hp : p ∈ pending)
    (he : s.stepEntries.get? p.entryId = some entry) (error : EntryError) :
    PostActionsInv d (failPostAction s tasks index entry error) pending ∧
      Taken (failPostAction s tasks index entry error) (setStatus tasks index (.settled ())) := by
  have hid : entry.entryId = p.entryId := KeyedMap.key_of_get? he
  have hfail : ∀ id, PostActionFailed (s.history ++ [.postActionFailed entry.entryId error]) id ↔
      PostActionFailed s.history id ∨ id = entry.entryId := by
    intro id
    simp [PostActionFailed, exists_or]
  have hreg := h.postActions.registered p hp
  refine ⟨h.extend rfl (by simp [isStepOf]) rfl (fun id outcome hrec => ?_) (fun id hnot hun => ?_)
    (h.postActions.proceed (by simp) fun id e hm => ?_) (by simp) (fun e hm => ?_),
    htaken.move (List.subset_append_left _ _) hi (.inr ⟨error, by simp [Apply.failPostAction, movePostAction, hid]⟩)⟩
  · by_cases hx : id = entry.entryId
    · refine ⟨fun hnf => absurd ((hfail id).mpr (.inr hx)) hnf, fun _ => ?_,
        fun e he => List.mem_append_left _ (hrec.errors e he)⟩
      subst hx
      refine ⟨by simp [Apply.failPostAction, movePostAction], entry, ?_, ?_⟩
      · simpa [Apply.failPostAction, movePostAction, hid] using he
      · simp [Apply.failPostAction, movePostAction]
    · refine hrec.frame ?_ rfl ?_ ?_ (List.subset_append_left _ _)
      · exact (hfail id).trans (or_iff_left hx)
      · simp [Apply.failPostAction, movePostAction, hx]
      · simp [Apply.failPostAction, movePostAction, Ne.symm hx]
  · obtain ⟨step, hs, hstep, -⟩ := h.postActions.step p hp
    have hx : id ≠ entry.entryId := by
      rintro rfl
      exact hnot (hid ▸ hstep ▸ List.mem_map_of_mem hs)
    obtain ⟨h1, h2⟩ := hun
    exact ⟨by simp [Apply.failPostAction, movePostAction, h1],
      by simp [Apply.failPostAction, movePostAction, Ne.symm hx, h2]⟩
  · obtain ⟨rfl, -⟩ : id = entry.entryId ∧ e = error := by simpa using hm
    rwa [hid]
  · rcases hm with hm | ⟨id, hm⟩
    · exact List.mem_append_left _ hm
    · obtain ⟨-, rfl⟩ : id = entry.entryId ∧ e = error := by simpa using hm
      simp [Apply.failPostAction, movePostAction]

/-- The pending post actions while a round runs. -/
abbrev pendingPostActions (s : ApplyState V) (tasks : Pool PostActionEntry Unit Unit) :
    List PostActionEntry :=
  tasks.map Task.item ++ s.postActions ++ s.allPostActions.flatten

theorem PostActionsInv.startPostAction
    (hplan : IsPlan d.allNewEntries d.allOldEntries d.stepList)
    (h : PostActionsInv d s (pendingPostActions s tasks)) (htaken : Taken s tasks)
    (hi : tasks[index]? = some ⟨p, .waiting⟩) (hp : p ∈ pendingPostActions s tasks)
    (he : s.stepEntries.get? p.entryId = some entry) :
    Inv d (startPostAction s tasks index p entry) := by
  unfold Apply.startPostAction
  split
  · rename_i error _
    have := h.failPostAction htaken hi hp he error
    simpa only [Inv, Apply.failPostAction, movePostAction, map_item_setStatus] using this
  · rename_i hcheck
    have hnot := not_failed_of_checkPostAction hplan h hp (KeyedMap.key_of_get? he) hcheck
    refine ⟨?_, htaken.move (List.subset_append_left _ _) hi (.inl (by simp [movePostAction]))⟩
    rw [map_item_setStatus]
    refine h.quiet rfl (by simp [isStepOf]) (by simp) rfl rfl rfl rfl
      (h.postActions.proceed (by simp) (by simp)) fun id hid => ?_
    obtain rfl : id = p.entryId := by simpa using hid
    exact hnot

theorem PostActionsInv.register (h : PostActionsInv d s (pendingPostActions s tasks))
    (htaken : Taken s tasks) {work : Unit} (hi : tasks[index]? = some ⟨p, .running work⟩)
    {requireDependents : Bool} :
    PostActionsInv d { s with
        postActions := s.postActions ++ [{ p with requireDependents }]
        history := s.history ++ [.postActionRegistered p.entryId] }
      (tasks.map Task.item ++ (s.postActions ++ [{ p with requireDependents }]) ++
        s.allPostActions.flatten) ∧
    ∀ task ∈ tasks, task.status ≠ .waiting →
      .postActionCalled task.item.entryId ∈ s.history ++ [.postActionRegistered p.entryId] ∨
        PostActionFailed (s.history ++ [.postActionRegistered p.entryId]) task.item.entryId := by
  have hp : p ∈ pendingPostActions s tasks := List.mem_append_left _ (List.mem_append_left _
    (List.mem_map_of_mem (f := Task.item) (List.mem_of_getElem? hi)))
  refine ⟨h.quiet rfl (by simp [isStepOf]) (by simp) rfl rfl rfl rfl ?_ (by simp),
    fun task ht hne => ?_⟩
  · refine h.postActions.register (p := { p with requireDependents }) (h.postActions.step p hp)
      (h.postActions.handler _ (h.postActions.registered p hp)) fun q => ?_
    simp only [List.mem_append, List.mem_singleton]
    tauto
  · exact (htaken task ht hne).imp (List.mem_append_left _)
      fun hf => hf.imp fun _ => List.mem_append_left _

theorem PostActionsInv.postActionReturned (h : PostActionsInv d s (pendingPostActions s tasks))
    (htaken : Taken s tasks) {work : Unit} (hi : tasks[index]? = some ⟨p, .running work⟩) :
    Inv d (movePostAction s tasks index (.settled ()) [.postActionReturned p.entryId]) := by
  refine ⟨?_, htaken.move (List.subset_append_left _ _) hi ?_⟩
  · rw [map_item_setStatus]
    exact h.quiet rfl (by simp [isStepOf]) (by simp) rfl rfl rfl rfl
      (h.postActions.proceed (by simp) (by simp)) (by simp)
  · exact (htaken _ (List.mem_of_getElem? hi) (by simp)).imp (List.mem_append_left _)
      fun hf => hf.imp fun _ => List.mem_append_left _

theorem PostActionsInv.postActionThrew (h : PostActionsInv d s (pendingPostActions s tasks))
    (htaken : Taken s tasks) {work : Unit} (hi : tasks[index]? = some ⟨p, .running work⟩)
    (hp : p ∈ pendingPostActions s tasks) (he : s.stepEntries.get? p.entryId = some entry)
    {thrown : Thrown} : Inv d (postActionThrew s tasks index entry thrown) := by
  unfold Apply.postActionThrew
  split
  · exact h.calls
  · rename_i error _
    have := h.failPostAction htaken hi hp he error
    simpa only [Inv, Apply.failPostAction, movePostAction, map_item_setStatus] using this

theorem PostActionsInv.finishPostActions (h : PostActionsInv d s (pendingPostActions s tasks))
    (htaken : Taken s tasks) (hdone : done tasks = true) :
    Inv d (Apply.startPostActions (pushPostActions s)) := by
  refine PostActionsInv.startPostActions ?_ (postActions_pushPostActions s)
  obtain ⟨p1, p2, -, p4, p5, p6⟩ := pushPostActions_frame s
  have hsub : ∀ q ∈ s.postActions ++ s.allPostActions.flatten, q ∈ pendingPostActions s tasks := by
    intro q hq
    rw [pendingPostActions, List.append_assoc]
    exact List.mem_append_right _ hq
  have hfewer : PostActionsInv d s (s.postActions ++ s.allPostActions.flatten) := by
    refine { h with postActions := ?_ }
    refine ⟨fun q hq => h.postActions.registered q (hsub q hq),
      fun q hq => h.postActions.step q (hsub q hq), h.postActions.handler, fun id hid => ?_,
      h.postActions.failed⟩
    rcases h.postActions.processed id hid with ⟨q, hq, rfl⟩ | hq
    · rw [pendingPostActions, List.append_assoc, List.mem_append] at hq
      rcases hq with hq | hq
      · obtain ⟨task, ht, rfl⟩ := List.mem_map.mp hq
        obtain ⟨result, hr⟩ := settled_of_done hdone ht
        exact .inr (htaken task ht (by rw [hr]; simp))
      · exact .inl ⟨q, hq, rfl⟩
    · exact .inr hq
  exact hfewer.frame p1 p2 p4 p5 p6 (mem_pushPostActions s)

end

/-! ## Every event keeps the invariant -/

section
variable {d : Deploy V} (hplan : IsPlan d.allNewEntries d.allOldEntries d.stepList)
include hplan

/-- **Every event keeps the invariant.** -/
theorem inv_step {s t : ApplyState V} {e : ApplyEvent V} (h : Inv d s)
    (hstep : (applySteps d).step s e = some t) : Inv d t := by
  -- the pending post actions of a round hold the one of each of its tasks
  have hmem : ∀ {tasks : Pool PostActionEntry Unit Unit} {index : Nat} {p : PostActionEntry}
      {status : TaskStatus Unit Unit}, tasks[index]? = some ⟨p, status⟩ →
      p ∈ tasks.map Task.item ++ s.postActions ++ s.allPostActions.flatten := fun hi =>
    List.mem_append_left _ (List.mem_append_left _
      (List.mem_map_of_mem (f := Task.item) (List.mem_of_getElem? hi)))
  unfold Inv at h
  cases does_of_step hstep with
  | startStep hphase hi =>
    rw [hphase] at h
    exact h.startStep hplan hi
  | addWarning hphase hi =>
    rw [hphase] at h
    exact h.addWarning hplan hi
  | registerInStep hphase hi =>
    rw [hphase] at h
    simpa only [Inv, hphase] using h.register hi _
  | handlerReturned hphase hi he =>
    rw [hphase] at h
    exact h.handlerReturned hplan hi he
  | handlerThrew hphase hi =>
    rw [hphase] at h
    exact h.handlerThrew hplan hi
  | finishOrder hphase hdone =>
    rw [hphase] at h
    exact h.finishOrder hplan hdone
  | startPostAction hphase hi he =>
    rw [hphase] at h
    exact PostActionsInv.startPostAction hplan h.1 h.2 hi (hmem hi) he
  | registerInPostAction hphase hi =>
    rw [hphase] at h
    simpa only [Inv, hphase] using h.1.register h.2 hi
  | postActionReturned hphase hi =>
    rw [hphase] at h
    exact h.1.postActionReturned h.2 hi
  | postActionThrew hphase hi he =>
    rw [hphase] at h
    exact h.1.postActionThrew h.2 hi (hmem hi) he
  | finishPostActions hphase hdone =>
    rw [hphase] at h
    exact h.1.finishPostActions h.2 hdone

/-- **Every state of every run is as the invariant says.** -/
theorem inv_of_reachable {s : ApplyState V} (h : (applySteps d).Reachable s) : Inv d s :=
  h.invariant (inv_initial hplan) fun _ _ _ => inv_step hplan

theorem callsOk_of_reachable {s : ApplyState V} (h : (applySteps d).Reachable s) :
    CallsOk d s.history := by
  have hinv := inv_of_reachable hplan h
  unfold Inv at hinv
  split at hinv
  · exact hinv.calls
  · exact hinv.1.calls
  · exact hinv.calls
  · exact hinv

end

end Ez4.State.ApplyInvariant

import Ez4.State.ApplyResult

/-! # A deploy returns

Every run of `applySteps` ends, because each event uses up work (`potential`).
It ends by resolving with every failure among the errors, unless a removed
entry has no handler or something without a text is thrown: the two ways to
leave `applyPendingStep` or `applyPostAction` other than through its `catch`. -/
namespace Ez4.State.ApplyReturns
open Ez4.Library Ez4.State.Entry Ez4.State.Plan Ez4.State.PlanSoundness Ez4.State.Apply
  Ez4.State.ApplyInvariant Ez4.State.ApplyResult Ez4.Utils.Tasks

variable {V : Type}

/-! ## Every event uses up work -/

/-- What is left to do: a step or a post action not taken yet is to be taken
and to settle, and may be the one its round ends with. -/
def potential (d : Deploy V) (s : ApplyState V) : Nat :=
  3 * (s.postActions.length + s.allPostActions.flatten.length) +
    match s.phase with
    | .steps order tasks =>
      left tasks + 1 + 3 * (d.stepList.filter fun step => order < step.order).length
    | .postActions tasks => left tasks + 1
    | .resolved | .rejected _ => 0

/-- The work that an event brings itself. -/
def brings : ApplyEvent V → Nat
  | .addWarning _ _ => 1
  | .postAction _ _ => 4
  | _ => 0

/-- No round of post actions is empty. -/
def NoEmptyRound (s : ApplyState V) : Prop := ∀ round ∈ s.allPostActions, round ≠ []

theorem noEmptyRound_pushPostActions {s : ApplyState V} (h : NoEmptyRound s) :
    NoEmptyRound (pushPostActions s) := by
  unfold pushPostActions
  split
  · exact h
  · rename_i hne
    intro round hr
    rcases List.mem_append.mp hr with hr | hr
    · exact h round hr
    · rw [List.mem_singleton.mp hr]
      exact fun he => hne (List.isEmpty_iff.mpr he)

theorem noEmptyRound_startPostActions {s : ApplyState V} (h : NoEmptyRound s) :
    NoEmptyRound (startPostActions s) := by
  unfold startPostActions
  split
  · exact h
  · rename_i stepActions rest hall
    exact fun round hr => h round (hall ▸ List.mem_cons_of_mem _ hr)

theorem noEmptyRound_startOrder {d : Deploy V} {s : ApplyState V} {order : Nat}
    (h : NoEmptyRound s) : NoEmptyRound (startOrder d s order) := by
  unfold startOrder
  dsimp only
  split
  · exact noEmptyRound_startPostActions h
  · exact h

theorem noEmptyRound_step {d : Deploy V} {s t : ApplyState V} {e : ApplyEvent V}
    (h : NoEmptyRound s) (hstep : (applySteps d).step s e = some t) : NoEmptyRound t := by
  cases does_of_step hstep with
  | startStep =>
    unfold startStep
    split <;> exact h
  | handlerThrew =>
    unfold handlerThrew
    split <;> exact h
  | finishOrder =>
    refine noEmptyRound_startOrder ?_
    rw [NoEmptyRound, (foldl_recordOutcome _ _).2.2.2]
    exact noEmptyRound_pushPostActions h
  | startPostAction =>
    unfold startPostAction
    split <;> exact h
  | postActionThrew =>
    unfold postActionThrew
    split <;> exact h
  | finishPostActions =>
    exact noEmptyRound_startPostActions (noEmptyRound_pushPostActions h)
  | addWarning | registerInStep | handlerReturned | registerInPostAction | postActionReturned =>
    exact h

/-- The registered post actions, in rounds or not. -/
abbrev registeredCount (s : ApplyState V) : Nat :=
  s.postActions.length + s.allPostActions.flatten.length

theorem registeredCount_pushPostActions (s : ApplyState V) :
    registeredCount (pushPostActions s) = registeredCount s := by
  unfold pushPostActions registeredCount
  split
  · rfl
  · simp only [List.flatten_append, List.flatten_singleton, List.length_append, List.length_nil]
    omega

theorem potential_startPostActions {d : Deploy V} {s : ApplyState V} (h : NoEmptyRound s) :
    potential d (startPostActions s) ≤ 3 * registeredCount s := by
  unfold startPostActions
  split
  · simp [potential, registeredCount]
  · rename_i stepActions rest hall
    have hpos : 0 < stepActions.length :=
      List.length_pos_iff.mpr (h stepActions (hall ▸ List.mem_cons_self))
    simp only [potential, left_start, registeredCount, hall, List.flatten_cons, List.length_append]
    omega

theorem potential_startOrder {d : Deploy V} {s : ApplyState V} (h : NoEmptyRound s) (order : Nat) :
    potential d (startOrder d s order) ≤ 3 * registeredCount s +
      3 * (d.stepList.filter fun step => order ≤ step.order).length := by
  unfold startOrder
  dsimp only
  split
  · have := potential_startPostActions (d := d) h
    omega
  · rename_i hne
    have hpos : 0 < (findPendingByOrder d.stepList order).length :=
      List.length_pos_iff.mpr fun he => hne (List.isEmpty_iff.mpr he)
    have hsplit : (d.stepList.filter fun step => order ≤ step.order).length =
        (findPendingByOrder d.stepList order).length +
          (d.stepList.filter fun step => order < step.order).length := by
      unfold findPendingByOrder
      induction d.stepList with
      | nil => rfl
      | cons step rest ih =>
        rcases Nat.lt_trichotomy order step.order with hlt | heq | hgt
        · have hne : step.order ≠ order := by omega
          simp [hlt.le, hlt, hne, ih]
          omega
        · simp [heq.symm, ih]
          omega
        · have hne : step.order ≠ order := by omega
          have h1 : ¬ order ≤ step.order := by omega
          have h2 : ¬ order < step.order := by omega
          simp [h1, h2, hne, ih]
    simp only [potential, left_start, registeredCount]
    omega

/-- **Every event uses up work.** -/
theorem potential_step {d : Deploy V} {s t : ApplyState V} {e : ApplyEvent V}
    (h : NoEmptyRound s) (hstep : (applySteps d).step s e = some t) :
    potential d t + 1 ≤ potential d s + brings e := by
  cases does_of_step hstep with
  | @startStep order tasks index step hphase hi =>
    have hset := left_setStatus hi
    unfold startStep
    split
    · simp only [potential, hphase, brings]
      omega
    · rename_i outcome _
      have := hset (.settled outcome)
      simp only [TaskStatus.left] at this
      simp only [potential, moveStep, hphase, brings]
      omega
    · have := hset (.running [])
      simp only [TaskStatus.left] at this
      simp only [potential, moveStep, hphase, brings]
      omega
  | @addWarning order tasks index step message warnings hphase hi =>
    have := left_setStatus hi (.running (warnings ++ [⟨message⟩]))
    simp only [TaskStatus.left] at this
    simp only [potential, moveStep, hphase, brings]
    omega
  | registerInStep hphase | registerInPostAction hphase =>
    simp only [potential, hphase, brings, List.length_append, List.length_singleton]
    omega
  | @handlerReturned order tasks index step warnings entry result hphase hi =>
    have := left_setStatus hi (.settled
      (endStep s.allNewEntries step.action entry result warnings).2)
    simp only [TaskStatus.left] at this
    simp only [potential, handlerReturned, moveStep, hphase, brings]
    omega
  | @handlerThrew order tasks index step warnings thrown hphase hi =>
    unfold handlerThrew
    split
    · simp only [potential, hphase, brings]
      omega
    · rename_i error _
      have := left_setStatus hi (.settled (rollback d step.entryId error))
      simp only [TaskStatus.left] at this
      simp only [potential, moveStep, hphase, brings]
      omega
  | @finishOrder order tasks hphase hdone =>
    have hne : NoEmptyRound ((results tasks).foldl recordOutcome (pushPostActions s)) := by
      rw [NoEmptyRound, (foldl_recordOutcome _ _).2.2.2]
      exact noEmptyRound_pushPostActions h
    have hle := potential_startOrder (d := d) hne (order + 1)
    have hcount : registeredCount ((results tasks).foldl recordOutcome (pushPostActions s)) =
        registeredCount s := by
      rw [registeredCount, (foldl_recordOutcome _ _).2.2.1, (foldl_recordOutcome _ _).2.2.2]
      exact registeredCount_pushPostActions s
    rw [hcount] at hle
    simp only [potential, hphase, brings, finishOrder, registeredCount] at hle ⊢
    simp only [Nat.lt_iff_add_one_le] at *
    omega
  | @startPostAction tasks index postAction entry hphase hi he =>
    unfold startPostAction
    split
    · have := left_setStatus hi (.settled ())
      simp only [TaskStatus.left] at this
      simp only [potential, failPostAction, movePostAction, hphase, brings]
      omega
    · have := left_setStatus hi (.running ())
      simp only [TaskStatus.left] at this
      simp only [potential, movePostAction, hphase, brings]
      omega
  | @postActionReturned tasks index postAction work result hphase hi =>
    have := left_setStatus hi (.settled ())
    simp only [TaskStatus.left] at this
    simp only [potential, movePostAction, hphase, brings]
    omega
  | @postActionThrew tasks index postAction work entry thrown hphase hi he =>
    unfold postActionThrew
    split
    · simp only [potential, hphase, brings]
      omega
    · have := left_setStatus hi (.settled ())
      simp only [TaskStatus.left] at this
      simp only [potential, failPostAction, movePostAction, hphase, brings]
      omega
  | @finishPostActions tasks hphase hdone =>
    have hle := potential_startPostActions (d := d) (noEmptyRound_pushPostActions h)
    rw [registeredCount_pushPostActions] at hle
    simp only [potential, hphase, brings, registeredCount] at hle ⊢
    omega

theorem noEmptyRound_initial (d : Deploy V) : NoEmptyRound (initial d) := by
  have hnone : NoEmptyRound { allNewEntries := d.allNewEntries, phase := (.resolved : Phase V) } := by
    intro round hr
    cases hr
  unfold initial
  dsimp only
  split
  · exact hnone
  · exact noEmptyRound_startOrder hnone

theorem potential_initial (d : Deploy V) : potential d (initial d) ≤ 3 * d.stepList.length := by
  unfold initial
  dsimp only
  split
  · simp [potential]
  · have hnone : NoEmptyRound
        { allNewEntries := d.allNewEntries, phase := (.resolved : Phase V) } := by
      intro round hr
      cases hr
    have := potential_startOrder (d := d) hnone 0
    simpa [registeredCount] using this

/-- **Every run ends**: a deploy makes at most three events a step, and four
for each registered post action. -/
theorem length_le_of_run {d : Deploy V} {s : ApplyState V} {events : List (ApplyEvent V)}
    (h : (applySteps d).run events (initial d) = some s) :
    events.length ≤ 3 * d.stepList.length + (events.map brings).sum := by
  have := Machine.length_le_of_potential (fun _ _ _ => noEmptyRound_step)
    (fun _ _ _ => potential_step) (noEmptyRound_initial d) h
  have := potential_initial d
  omega

/-! ## No run gets stuck -/

/-- What a post action works on is there. -/
theorem stepEntry_of_pending {d : Deploy V} {s : ApplyState V} {pending : List PostActionEntry}
    (h : PostActionsInv d s pending) {p : PostActionEntry} (hp : p ∈ pending) :
    ∃ entry, s.stepEntries.get? p.entryId = some entry := by
  obtain ⟨a, ha⟩ := h.postActions.handler _ (h.postActions.registered p hp)
  obtain ⟨step, hs, hid, -⟩ := h.postActions.step p hp
  rw [← hid] at ha ⊢
  obtain ⟨_, outcome, hok, _⟩ := h.recorded step hs
  obtain ⟨-, -, hl⟩ := hok
  generalize hlog : stepLog s.history step.entryId = log at hl
  rw [mem_history_iff hlog (by simp [isStepOf])] at ha
  cases hl with
  | saved _ he | deleted _ he | notDeleted _ _ he | threw _ he => exact ⟨_, he⟩
  | unchanged | skipped => simp at ha

/-- **A state where nothing can happen any more is an end.** -/
theorem ended_of_final {d : Deploy V} {s : ApplyState V} (hinv : ApplyInvariant.Inv d s)
    (hc : 0 < d.options.concurrency) (hfinal : (applySteps d).Final s) :
    s.phase = .resolved ∨ ∃ error, s.phase = .rejected error := by
  cases hphase : s.phase with
  | resolved => exact .inl rfl
  | rejected error => exact .inr ⟨error, rfl⟩
  | steps order tasks =>
    exfalso
    have hnone : ∀ e, stepEvent d s order tasks e = none := fun e => by
      simpa [applySteps, applyEvent, hphase] using hfinal e
    cases hdone : done tasks with
    | true => simpa [stepEvent, hdone] using hnone .finish
    | false =>
      rcases running_or_next hc hdone with ⟨i, ⟨step, _⟩, warnings, hi, rfl⟩ | ⟨i, hi⟩
      · have hrun := running?_eq_some.mpr hi
        simpa [stepEvent, hrun] using hnone (.threw i (.error .stackOverflow))
      · obtain ⟨task, ht, -⟩ := next?_eq_some hi
        simpa [stepEvent, hi, ht] using hnone .start
  | postActions tasks =>
    exfalso
    have hnone : ∀ e, postActionEvent s tasks d e = none := fun e => by
      simpa [applySteps, applyEvent, hphase] using hfinal e
    simp only [ApplyInvariant.Inv, hphase] at hinv
    cases hdone : done tasks with
    | true => simpa [postActionEvent, hdone] using hnone .finish
    | false =>
      rcases running_or_next hc hdone with ⟨i, ⟨p, _⟩, work, hi, rfl⟩ | ⟨i, hi⟩
      · have hrun := running?_eq_some.mpr hi
        simpa [postActionEvent, hrun] using hnone (.returned i none)
      · obtain ⟨task, ht, -⟩ := next?_eq_some hi
        obtain ⟨entry, he⟩ := stepEntry_of_pending hinv.1 (List.mem_append_left _
          (List.mem_append_left _ (List.mem_map_of_mem (f := Task.item) (List.mem_of_getElem? ht))))
        simpa [postActionEvent, hi, ht, he] using hnone .start

/-! ## Why a run rejects -/

/-- No rejection comes from going on to the next round. -/
theorem phase_startPostActions (s : ApplyState V) (error : EntryError) :
    (startPostActions s).phase ≠ .rejected error := by
  unfold startPostActions
  split <;> simp

theorem phase_startOrder (d : Deploy V) (s : ApplyState V) (order : Nat) (error : EntryError) :
    (startOrder d s order).phase ≠ .rejected error := by
  unfold startOrder
  dsimp only
  split
  · exact phase_startPostActions s error
  · simp

/-- Some removed entry has a type without a handler. -/
def HandlerMissing (d : Deploy V) : Prop :=
  ∃ entry ∈ (removedEntries d.allNewEntries d.allOldEntries).values,
    d.options.handlers entry.type = none

/-- The event throws a value that no error can be made of. -/
def ThrowsNoText (e : ApplyEvent V) : Prop :=
  ∃ task thrown, e = .threw task thrown ∧ thrown.toError? = none

/-- The new entries have their handlers. -/
def NewHandlers (d : Deploy V) : Prop :=
  ∀ entry ∈ d.allNewEntries.values, (d.options.handlers entry.type).isSome

section
variable {d : Deploy V} {s t : ApplyState V} {e : ApplyEvent V}
  (hplan : IsPlan d.allNewEntries d.allOldEntries d.stepList)

/-- The handler of a step is missing only if the step deletes. -/
theorem handlerMissing_of_step (hnew : NewHandlers d) {step : StepState} {candidate : EntryState V}
    (hc : candidate? d step = some candidate) (hs : step ∈ d.stepList)
    (hh : d.options.handlers candidate.type = none)
    (hplan : IsPlan d.allNewEntries d.allOldEntries d.stepList) : HandlerMissing d := by
  unfold candidate? at hc
  split at hc
  · have := hnew candidate (KeyedMap.mem_of_get? hc)
    rw [hh] at this
    cases this
  · rename_i ha
    have hremoved := ((hplan.removes _).mp ⟨step, hs, rfl, not_not.mp ha⟩).2
    have hget : (removedEntries d.allNewEntries d.allOldEntries).get? step.entryId =
        some candidate := by
      rw [removedEntries, KeyedMap.get?_filterKeys, if_pos (by rw [hremoved]; rfl)]
      exact hc
    exact ⟨candidate, KeyedMap.mem_of_get? hget, hh⟩

include hplan in
theorem rejected_cause (hnew : NewHandlers d) (hinv : ApplyInvariant.Inv d s)
    (hstep : (applySteps d).step s e = some t) {error : EntryError}
    (ht : t.phase = .rejected error) : HandlerMissing d ∨ ThrowsNoText e := by
  cases does_of_step hstep with
  | @startStep order tasks index step hphase hi =>
    left
    simp only [ApplyInvariant.Inv, hphase] at hinv
    obtain ⟨hs, ho, candidate, hok⟩ := hinv.at hi
    have hlookup := hinv.lookup hplan.nodup hs ho hok.starts
    rcases beginStep_cases hlookup with ⟨hh, -⟩ | ⟨-, hb⟩
    · exact handlerMissing_of_step hnew hok.starts hs hh hplan
    · exfalso
      rcases hb with ⟨err, hb⟩ | ⟨begun, -, hb⟩
      · simp [startStep, hb, moveStep] at ht
      · cases begun <;> simp [startStep, hb, moveStep] at ht
  | @handlerThrew order tasks index step warnings thrown hphase hi =>
    right
    refine ⟨index, thrown, rfl, ?_⟩
    cases herror : thrown.toError? with
    | none => rfl
    | some err => simp [handlerThrew, herror, moveStep] at ht
  | @postActionThrew tasks index postAction work entry thrown hphase hi he =>
    right
    refine ⟨index, thrown, rfl, ?_⟩
    cases herror : thrown.toError? with
    | none => rfl
    | some err => simp [postActionThrew, herror, failPostAction, movePostAction] at ht
  | finishOrder => exact absurd ht (phase_startOrder _ _ _ _)
  | finishPostActions => exact absurd ht (phase_startPostActions _ _)
  | @startPostAction tasks index postAction entry hphase hi he =>
    unfold startPostAction at ht
    split at ht <;> simp [failPostAction, movePostAction] at ht
  | addWarning => simp [moveStep] at ht
  | handlerReturned => simp [handlerReturned, moveStep] at ht
  | postActionReturned => simp [movePostAction] at ht
  | registerInStep hphase | registerInPostAction hphase => simp [hphase] at ht

include hplan in
/-- A run rejects only for a missing handler or for a value without a text. -/
theorem rejected_cause_of_run (hnew : NewHandlers d) {events : List (ApplyEvent V)}
    (hinv : ApplyInvariant.Inv d s) (hs : ∀ error, s.phase ≠ .rejected error)
    (hrun : (applySteps d).run events s = some t) {error : EntryError}
    (ht : t.phase = .rejected error) : HandlerMissing d ∨ ∃ e ∈ events, ThrowsNoText e := by
  induction events generalizing s with
  | nil =>
    simp only [Machine.run, Option.some.injEq] at hrun
    exact absurd (hrun ▸ ht) (hs error)
  | cons e rest ih =>
    obtain ⟨u, hstep, hrest⟩ := Machine.run_cons.mp hrun
    by_cases hu : ∃ err, u.phase = .rejected err
    · obtain ⟨err, hu⟩ := hu
      rcases rejected_cause hplan hnew hinv hstep hu with h | h
      · exact .inl h
      · exact .inr ⟨e, List.mem_cons_self, h⟩
    · rcases ih (inv_step hplan hinv hstep) (fun err he => hu ⟨err, he⟩) hrest with h | ⟨e', hm, h⟩
      · exact .inl h
      · exact .inr ⟨e', List.mem_cons_of_mem _ hm, h⟩

/-! ## Every failure is reported -/

theorem history_startPostActions (s : ApplyState V) : (startPostActions s).history = s.history := by
  unfold startPostActions
  split <;> rfl

theorem history_startOrder (d : Deploy V) (s : ApplyState V) (order : Nat) :
    (startOrder d s order).history = s.history := by
  unfold startOrder
  dsimp only
  split
  · exact history_startPostActions s
  · rfl

/-- The history only grows. -/
theorem history_step (hstep : (applySteps d).step s e = some t) : s.history ⊆ t.history := by
  cases does_of_step hstep with
  | startStep =>
    unfold startStep
    split
    · exact List.Subset.refl _
    · exact List.subset_append_left _ _
    · exact List.subset_append_left _ _
  | handlerThrew =>
    unfold handlerThrew
    split
    · exact List.Subset.refl _
    · exact List.subset_append_left _ _
  | postActionThrew =>
    unfold postActionThrew
    split
    · exact List.Subset.refl _
    · exact List.subset_append_left _ _
  | startPostAction =>
    unfold startPostAction
    split <;> exact List.subset_append_left _ _
  | finishOrder =>
    rw [finishOrder, history_startOrder, (foldl_recordOutcome _ _).1, (pushPostActions_frame s).1]
    exact List.Subset.refl _
  | finishPostActions =>
    rw [history_startPostActions, (pushPostActions_frame s).1]
    exact List.Subset.refl _
  | addWarning | registerInStep | handlerReturned | registerInPostAction | postActionReturned =>
    exact List.subset_append_left _ _

theorem history_run {events : List (ApplyEvent V)} (hrun : (applySteps d).run events s = some t) :
    s.history ⊆ t.history :=
  Machine.run_invariant (I := fun u => s.history ⊆ u.history)
    (fun _ _ _ hu hstep => List.Subset.trans hu (history_step hstep)) (List.Subset.refl _) hrun

/-- The failures of a history. -/
inductive FailedWith (history : List (Happening V)) (error : EntryError) : Prop
  | step (id : String) (saved : Option (EntryState V))
      (h : .stepFinished id { entry := saved, issues := .error error } ∈ history)
  | postAction (id : String) (h : .postActionFailed id error ∈ history)

/-- What a handler or a post action throws is a failure. -/
theorem failedWith_of_threw {task : Nat} {thrown : Thrown} {error : EntryError}
    (hstep : (applySteps d).step s (.threw task thrown) = some t)
    (he : thrown.toError? = some error) : FailedWith t.history error := by
  cases does_of_step hstep with
  | @handlerThrew order tasks index step warnings thrown hphase hi =>
    refine .step step.entryId (d.allOldEntries.get? step.entryId) ?_
    simp [handlerThrew, he, moveStep, rollback]
  | @postActionThrew tasks index postAction work entry thrown hphase hi hentry =>
    refine .postAction entry.entryId ?_
    simp [postActionThrew, he, failPostAction, movePostAction]

theorem failedWith_of_run {events : List (ApplyEvent V)} {task : Nat} {thrown : Thrown}
    {error : EntryError} (hrun : (applySteps d).run events s = some t)
    (hm : .threw task thrown ∈ events) (he : thrown.toError? = some error) :
    FailedWith t.history error := by
  obtain ⟨before, after, rfl⟩ := List.mem_iff_append.mp hm
  obtain ⟨u, -, hrun⟩ := Machine.run_append.mp hrun
  obtain ⟨v, hstep, hrest⟩ := Machine.run_cons.mp hrun
  have hsub := history_run hrest
  cases failedWith_of_threw hstep he with
  | step id saved h => exact .step id saved (hsub h)
  | postAction id h => exact .postAction id (hsub h)

/-- When the deploy resolves, the errors have every failure. -/
theorem mem_errorList_of_failedWith (h : PostActionsInv d s []) {error : EntryError}
    (hf : FailedWith s.history error) : error ∈ s.errorList := by
  cases hf with
  | step id saved hm =>
    obtain ⟨step, hs, rfl⟩ := List.mem_map.mp (h.about id (mem_stepLog_of_finished hm))
    obtain ⟨_, outcome, hok, hrec⟩ := h.recorded step hs
    obtain rfl := hok.finished_iff.mp hm
    exact hrec.errors error rfl
  | postAction id hm => exact h.errors id error hm

end

/-- What a deploy that returns gives back: its state, with every failure among
the errors. -/
structure Returned (d : Deploy V) (s : ApplyState V) (events : List (ApplyEvent V)) : Prop where
  resolved : s.phase = .resolved
  /-- Skipped steps and post actions are failures too. -/
  failures : ∀ error, FailedWith s.history error → error ∈ s.errorList
  thrown : ∀ task thrown, .threw task thrown ∈ events →
    ∃ error, thrown.toError? = some error ∧ error ∈ s.errorList
  result : ResourcesKept d s

/-- **A deploy whose plan was accepted ends**, and when it has ended it has
returned its state exactly when the removed entries have their handlers and
nothing without a text was thrown. -/
theorem applySteps_returns_iff {d : Deploy V} {options : PlanOptions V} (hplan : Planned d options)
    (hhandlers : options.handlers = d.options.handlers) (hc : 0 < d.options.concurrency)
    {events : List (ApplyEvent V)} {s : ApplyState V}
    (hrun : (applySteps d).run events (applySteps d).init = some s) :
    events.length ≤ 3 * d.stepList.length + (events.map brings).sum ∧
    ((applySteps d).Final s → (Returned d s events ↔
      (∀ entry ∈ (removedEntries d.allNewEntries d.allOldEntries).values,
        (d.options.handlers entry.type).isSome) ∧
      ∀ task thrown, .threw task thrown ∈ events → thrown.toError?.isSome)) := by
  refine ⟨length_le_of_run hrun, fun hfinal => ?_⟩
  have hnew : NewHandlers d := fun entry he => hhandlers ▸ (planSteps_ok hplan).2.2 entry he
  have hreach : (applySteps d).Reachable s := ⟨events, hrun⟩
  have hinv := inv_of_reachable hplan.isPlan hreach
  have hstart : ∀ error, (initial d).phase ≠ .rejected error := by
    intro error
    unfold initial
    dsimp only
    split
    · rename_i hn ho
      rw [Planned, hn, ho] at hplan
      cases hplan
    · exact phase_startOrder _ _ _ _
  constructor
  · intro hreturned
    have hres : Resolves d s := ⟨hreach, hreturned.resolved⟩
    refine ⟨fun entry he => ?_, fun task thrown hm => ?_⟩
    · have hget := KeyedMap.get?_of_mem he
      rw [removedEntries, KeyedMap.get?_filterKeys] at hget
      split at hget
      · rename_i hnot
        obtain ⟨step, hs, hid, ha⟩ := (hplan.isPlan.removes entry.entryId).mpr
          ⟨KeyedMap.has_iff.mpr ⟨_, hget⟩, by simpa using hnot⟩
        obtain ⟨c, outcome, hok, -⟩ := (hres.inv hplan).recorded step hs
        have hcand := hok.starts
        rw [candidate?, if_neg (not_not.mpr ha), hid, hget] at hcand
        obtain rfl := Option.some.inj hcand
        exact hok.handler (by simp)
      · cases hget
    · obtain ⟨error, he, -⟩ := hreturned.thrown task thrown hm
      rw [he]
      rfl
  · rintro ⟨hremoved, hthrown⟩
    rcases ended_of_final hinv hc hfinal with hphase | ⟨error, hphase⟩
    · have hres : Resolves d s := ⟨hreach, hphase⟩
      have herrors : ∀ error, FailedWith s.history error → error ∈ s.errorList :=
        fun _ => mem_errorList_of_failedWith (hres.inv hplan)
      refine ⟨hphase, herrors, fun task thrown hm => ?_,
        resourcesKept hplan.isPlan (hres.inv hplan)⟩
      obtain ⟨error, he⟩ := Option.isSome_iff_exists.mp (hthrown task thrown hm)
      exact ⟨error, he, herrors error (failedWith_of_run hrun hm he)⟩
    · exfalso
      rcases rejected_cause_of_run hplan.isPlan hnew (inv_initial hplan.isPlan) hstart hrun hphase
        with ⟨entry, hm, hh⟩ | ⟨e, hm, task, thrown, rfl, hnone⟩
      · have := hremoved entry hm
        rw [hh] at this
        cases this
      · have := hthrown task thrown hm
        rw [hnone] at this
        cases this

theorem removal_returns : quietRemoval.length ≤ 3 * removal.stepList.length +
      (quietRemoval.map brings).sum ∧
    ((applySteps removal).Final (stateAfter removal quietRemoval) →
      (Returned removal (stateAfter removal quietRemoval) quietRemoval ↔
        (∀ entry ∈ (removedEntries removal.allNewEntries removal.allOldEntries).values,
          (removal.options.handlers entry.type).isSome) ∧
        ∀ task thrown, .threw task thrown ∈ quietRemoval → thrown.toError?.isSome)) :=
  applySteps_returns_iff removal_planned rfl (by decide) (by decide)

/-- The removal without a handler. -/
def unhandledRemoval : Deploy Nat := { removal with options := { handlers := fun _ => none } }

/-- Its plan is accepted, and applying it rejects. -/
theorem unhandledRemoval_rejects : Planned unhandledRemoval { handlers := fun _ => none } ∧
    (applySteps unhandledRemoval).Reachable (stateAfter unhandledRemoval [.start]) ∧
    (stateAfter unhandledRemoval [.start]).phase =
      .rejected (.handlerNotFound "bucket" "b") := by
  refine ⟨?_, reachable_stateAfter (by decide), by decide⟩
  unfold Planned
  decide

end Ez4.State.ApplyReturns

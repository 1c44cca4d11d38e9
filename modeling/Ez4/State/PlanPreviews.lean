import Ez4.State.PlanSoundness

/-! # What a plan says of each new entry

How `planSteps` classifies the new entries, and what a preview sees of its
dependencies (`PlannedAs`). The layers put every dependency before the
preview, so the rewritten entries it is shown are those of the whole plan.
The classes are those the handlers answer (`PlansAsAnswered`), but for a
promise: the planner does not await it. -/
namespace Ez4.State.PlanPreviews
open Ez4.Library Ez4.State.Entry Ez4.State.Plan Ez4.State.PlanSoundness

variable {V : Type}

/-- What `equals` answers, a promise once it is awaited. -/
def awaited : EqualsAnswer → Bool
  | .now same => same
  | .later same => same

/-- The plan creates or replaces the entry. -/
def rewrites (steps : List StepState) (entryId : String) : Bool :=
  steps.any fun step => step.entryId = entryId && (step.action = .create || step.action = .replace)

/-- The dependencies of an entry as its preview is to see them: without a
result when the plan creates or replaces them. -/
def previewDependencies (newEntries : EntryStates V) (steps : List StepState)
    (candidate : EntryState V) (type : Option String) : List (EntryState V) :=
  ((candidate.dependencies.filterMap newEntries.get?).map fun dependency =>
    if rewrites steps dependency.entryId then { dependency with result := none }
    else dependency).filter fun dependency => isEntryType dependency type

/-- The options of a preview that sees all its dependencies so. -/
structure PreviewOk (newEntries : EntryStates V) (steps : List StepState)
    (candidate : EntryState V) (options : StepOptions V) : Prop where
  complete : ∀ id ∈ candidate.dependencies, newEntries.has id = true
  dependencies : ∀ type, options.getDependencies type =
    .ok (previewDependencies newEntries steps candidate type)

/-- The step of a new entry, where `same` tells whether an answer of `equals`
is a yes. -/
def PlannedAs (same : EqualsAnswer → Bool) (newEntries : EntryStates V)
    (oldEntries : Option (EntryStates V)) (options : PlanOptions V) (steps : List StepState)
    (candidate : EntryState V) (step : StepState) : Prop :=
  match oldEntries.bind (·.get? candidate.entryId) with
  | none => step.action = .create
  | some current =>
    if candidate.type ≠ current.type then step.action = .replace
    else ∃ handler answer stepOptions, options.handlers candidate.type = some handler ∧
      handler.equals candidate current = .ok answer ∧
      step.action = (if same answer then .update else .replace) ∧
      handler.preview candidate current stepOptions = .ok step.preview ∧
      stepOptions.force = options.force ∧ PreviewOk newEntries steps candidate stepOptions

/-- Every new entry has a step that classifies it as its handler answers. -/
def PlansAsAnswered (newEntries : EntryStates V) (oldEntries : Option (EntryStates V))
    (options : PlanOptions V) (steps : List StepState) : Prop :=
  ∀ candidate ∈ newEntries.values, ∃ step ∈ steps, step.entryId = candidate.entryId ∧
    PlannedAs awaited newEntries oldEntries options steps candidate step

/-! ## What a preview sees -/

theorem get?_getPreviewEntries (newEntries : EntryStates V) (rewrittenSet : List String)
    (id : String) :
    (getPreviewEntries newEntries rewrittenSet).get? id =
      (newEntries.get? id).map fun entry =>
        if id ∈ rewrittenSet then { entry with result := none } else entry := by
  unfold getPreviewEntries
  induction rewrittenSet using List.reverseRecOn with
  | nil => simp
  | append_singleton ids last ih =>
    rw [List.foldl_append, List.foldl_cons, List.foldl_nil]
    split
    · rename_i entry hentry
      have hkey := KeyedMap.key_of_get? hentry
      rw [KeyedMap.get?_set]
      split
      · rename_i he
        have hid : last = id := hkey.symm.trans he
        subst hid
        rw [ih, Option.map_eq_some_iff] at hentry
        obtain ⟨e, hget, rfl⟩ := hentry
        rw [hget]
        split <;> simp
      · rename_i hne
        have hid : ¬ id = last := fun he => hne (hkey.trans he.symm)
        rw [ih]
        simp [hid]
    · rename_i hnone
      rw [ih]
      by_cases hid : id = last
      · subst hid
        rw [ih, Option.map_eq_none_iff] at hnone
        simp [hnone]
      · simp [hid]

/-- Dependencies that resolve are found, each in its place. -/
theorem getEntryDependencies_ok {entryMap : EntryStates V} {entry : EntryState V}
    (h : ∀ id ∈ entry.dependencies, entryMap.has id = true) (type : Option String) :
    getEntryDependencies entryMap entry type =
      .ok ((entry.dependencies.filterMap entryMap.get?).filter (isEntryType · type)) := by
  have hall : ∀ (find : String → Except EntryError (EntryState V)),
      (∀ id e, entryMap.get? id = some e → find id = .ok e) → ∀ ids : List String,
      (∀ id ∈ ids, entryMap.has id = true) → ids.mapM find = .ok (ids.filterMap entryMap.get?) := by
    intro find hfind ids hids
    induction ids with
    | nil => rfl
    | cons id rest ih =>
      obtain ⟨e, he⟩ := KeyedMap.has_iff.mp (hids id List.mem_cons_self)
      rw [List.mapM_cons, ih fun x hx => hids x (List.mem_cons_of_mem _ hx), hfind id e he,
        List.filterMap_cons_some he]
      rfl
  unfold getEntryDependencies
  exact Except.bind_ok.mpr ⟨_, hall _ (fun id e he => by rw [he]) _ h, rfl⟩

theorem filterMap_getPreviewEntries (newEntries : EntryStates V) (rewrittenSet ids : List String) :
    ids.filterMap (getPreviewEntries newEntries rewrittenSet).get? =
      (ids.filterMap newEntries.get?).map fun entry =>
        if entry.entryId ∈ rewrittenSet then { entry with result := none } else entry := by
  rw [List.map_filterMap]
  refine List.filterMap_congr fun id _ => ?_
  rw [get?_getPreviewEntries]
  cases hget : newEntries.get? id with
  | none => rfl
  | some entry => simp only [Option.map_some, KeyedMap.key_of_get? hget]

/-- The options a preview is called with. -/
theorem previewOk {newEntries : EntryStates V} {steps : List StepState} {rewrittenSet : List String}
    {candidate : EntryState V} (force : Bool)
    (hcomplete : ∀ id ∈ candidate.dependencies, newEntries.has id = true)
    (hset : ∀ id ∈ candidate.dependencies, id ∈ rewrittenSet ↔ rewrites steps id = true) :
    PreviewOk newEntries steps candidate ⟨force, fun type =>
      getEntryDependencies (getPreviewEntries newEntries rewrittenSet) candidate type⟩ := by
  refine ⟨hcomplete, fun type => ?_⟩
  have hpreview : ∀ id ∈ candidate.dependencies,
      (getPreviewEntries newEntries rewrittenSet).has id = true := fun id hid => by
    have := hcomplete id hid
    rwa [KeyedMap.has, get?_getPreviewEntries, Option.isSome_map]
  show getEntryDependencies _ candidate type = _
  rw [getEntryDependencies_ok hpreview, filterMap_getPreviewEntries, previewDependencies]
  congr 2
  refine List.map_congr_left fun entry hm => ?_
  obtain ⟨id, hid, hget⟩ := List.mem_filterMap.mp hm
  rw [KeyedMap.key_of_get? hget]
  simp only [hset id hid]

theorem PreviewOk.congr {newEntries : EntryStates V} {steps steps' : List StepState}
    {candidate : EntryState V} {options : StepOptions V}
    (h : PreviewOk newEntries steps candidate options)
    (hsame : ∀ id ∈ candidate.dependencies, rewrites steps' id = rewrites steps id) :
    PreviewOk newEntries steps' candidate options := by
  refine ⟨h.complete, fun type => ?_⟩
  rw [h.dependencies, previewDependencies, previewDependencies]
  congr 2
  refine List.map_congr_left fun entry hm => ?_
  obtain ⟨id, hid, hget⟩ := List.mem_filterMap.mp hm
  rw [KeyedMap.key_of_get? hget, hsame id hid]

theorem PlannedAs.congr {same : EqualsAnswer → Bool} {newEntries : EntryStates V}
    {oldEntries : Option (EntryStates V)} {options : PlanOptions V} {steps steps' : List StepState}
    {candidate : EntryState V} {step : StepState}
    (h : PlannedAs same newEntries oldEntries options steps candidate step)
    (hsame : ∀ id ∈ candidate.dependencies, rewrites steps' id = rewrites steps id) :
    PlannedAs same newEntries oldEntries options steps' candidate step := by
  unfold PlannedAs at h ⊢
  cases hc : oldEntries.bind (·.get? candidate.entryId) with
  | none => simpa only [hc] using h
  | some current =>
    simp only [hc] at h ⊢
    split
    · rwa [if_pos ‹_›] at h
    · rw [if_neg ‹_›] at h
      obtain ⟨handler, answer, stepOptions, hhandler, hanswer, haction, hpreview, hforce, hok⟩ := h
      exact ⟨handler, answer, stepOptions, hhandler, hanswer, haction, hpreview, hforce,
        hok.congr hsame⟩

/-! ## One entry, and the loop -/

/-- What the creation loop holds: the sets tell what the steps do, and each
step is that of a new entry whose dependencies were planned before. -/
structure Planning (newEntries : EntryStates V) (oldEntries : Option (EntryStates V))
    (options : PlanOptions V) (changes : Changes) : Prop where
  visited : ∀ id, id ∈ changes.visitSet ↔ id ∈ changes.steps.map StepState.entryId
  rewritten : ∀ id, id ∈ changes.rewrittenSet ↔ rewrites changes.steps id = true
  planned : ∀ step ∈ changes.steps, ∃ candidate ∈ newEntries.values,
    candidate.entryId = step.entryId ∧
    (∀ id ∈ candidate.dependencies, id ∈ changes.visitSet) ∧
    PlannedAs EqualsAnswer.truthy newEntries oldEntries options changes.steps candidate step

section Loop

variable {newEntries : EntryStates V} {oldEntries : Option (EntryStates V)}
  {options : PlanOptions V} {order : Nat} {changes changes' : Changes} {candidate : EntryState V}

theorem planning_init : Planning newEntries oldEntries options {} :=
  ⟨by simp, by simp [rewrites], by simp⟩

theorem rewrites_append (steps : List StepState) (step : StepState) (id : String) :
    rewrites (steps ++ [step]) id = (rewrites steps id ||
      (step.entryId = id && (step.action = .create || step.action = .replace))) := by
  simp [rewrites]

/-- The step of one more entry. -/
theorem Planning.push (h : Planning newEntries oldEntries options changes)
    (hm : candidate ∈ newEntries.values) (hnew : candidate.entryId ∉ changes.visitSet)
    (hdeps : ∀ id ∈ candidate.dependencies, id ∈ changes.visitSet) {step : StepState}
    {rewrittenSet : List String} (hid : step.entryId = candidate.entryId)
    (hset : ∀ id, id ∈ rewrittenSet ↔ id ∈ changes.rewrittenSet ∨
      candidate.entryId = id ∧ (step.action = .create ∨ step.action = .replace))
    (hplanned : PlannedAs EqualsAnswer.truthy newEntries oldEntries options changes.steps candidate
      step) :
    Planning newEntries oldEntries options
      ⟨changes.steps ++ [step], addId changes.visitSet candidate.entryId, rewrittenSet⟩ := by
  have hsame : ∀ id ∈ changes.visitSet, rewrites (changes.steps ++ [step]) id =
      rewrites changes.steps id := fun id hv => by
    have hne : step.entryId ≠ id := fun he => hnew (hid ▸ he ▸ hv)
    rw [rewrites_append]
    simp [hne]
  refine ⟨fun id => ?_, fun id => ?_, fun other ho => ?_⟩
  · rw [mem_addId, h.visited, List.map_append, List.mem_append, List.map_singleton,
      List.mem_singleton, hid]
  · rw [hset, h.rewritten, rewrites_append, hid]
    simp
  · rcases List.mem_append.mp ho with ho | ho
    · obtain ⟨c, hc, hkey, hd, hp⟩ := h.planned other ho
      exact ⟨c, hc, hkey, fun id hi => mem_addId.mpr (.inl (hd id hi)),
        hp.congr fun id hi => hsame id (hd id hi)⟩
    · obtain rfl := List.mem_singleton.mp ho
      exact ⟨candidate, hm, hid.symm, fun id hi => mem_addId.mpr (.inl (hdeps id hi)),
        hplanned.congr fun id hi => hsame id (hdeps id hi)⟩

/-- **Planning one entry.** -/
theorem Planning.change (h : Planning newEntries oldEntries options changes)
    (hm : candidate ∈ newEntries.values) (hnew : candidate.entryId ∉ changes.visitSet)
    (hdeps : ∀ id ∈ candidate.dependencies, id ∈ changes.visitSet)
    (hvisit : ∀ id ∈ changes.visitSet, newEntries.has id = true)
    (hrun : planPendingChange newEntries oldEntries options.handlers order options.force changes
      candidate = .ok changes') :
    Planning newEntries oldEntries options changes' := by
  have hcomplete : ∀ id ∈ candidate.dependencies, newEntries.has id = true := fun id hi =>
    hvisit id (hdeps id hi)
  have hrewrite : ∀ id, id ∈ addId changes.rewrittenSet candidate.entryId ↔
      id ∈ changes.rewrittenSet ∨ candidate.entryId = id := fun id => by
    rw [mem_addId, eq_comm]
  unfold planPendingChange at hrun
  cases hh : options.handlers candidate.type with
  | none => simp [hh] at hrun
  | some handler =>
    simp only [hh] at hrun
    cases hc : oldEntries.bind (·.get? candidate.entryId) with
    | none =>
      simp only [hc, Except.ok.injEq] at hrun
      subst hrun
      refine h.push hm hnew hdeps rfl (fun id => by simp [hrewrite]) ?_
      simp [PlannedAs, hc]
    | some current =>
      simp only [hc] at hrun
      by_cases htype : candidate.type ≠ current.type
      · rw [if_pos htype, Except.ok.injEq] at hrun
        subst hrun
        refine h.push hm hnew hdeps rfl (fun id => by simp [hrewrite]) ?_
        simp [PlannedAs, hc, htype]
      · rw [if_neg htype] at hrun
        obtain ⟨preview, hpreview, hrun⟩ := Except.bind_ok.mp hrun
        obtain ⟨answer, hanswer, hrun⟩ := Except.bind_ok.mp hrun
        have hok := previewOk options.force hcomplete fun id _ => h.rewritten id
        have hplanned : ∀ step : StepState, step.preview = preview →
            step.action = (if answer.truthy then .update else .replace) →
              PlannedAs EqualsAnswer.truthy newEntries oldEntries options changes.steps candidate
                step := fun step hp ha => by
          unfold PlannedAs
          simp only [hc, if_neg htype]
          exact ⟨handler, answer, _, hh, hanswer, ha, hp ▸ hpreview, rfl, hok⟩
        by_cases htruthy : (!answer.truthy) = true
        · rw [if_pos htruthy, Except.ok.injEq] at hrun
          subst hrun
          refine h.push hm hnew hdeps rfl (fun id => by simp [hrewrite]) (hplanned _ rfl ?_)
          simpa using htruthy
        · rw [if_neg htruthy, Except.ok.injEq] at hrun
          subst hrun
          refine h.push hm hnew hdeps rfl (fun id => by simp) (hplanned _ rfl ?_)
          simpa using htruthy

/-- Planning a layer, whose dependencies are all visited. -/
theorem Planning.layer {entries : List (EntryState V)}
    (h : Planning newEntries oldEntries options changes)
    (hn : (entries.map EntryState.entryId).Nodup)
    (hm : ∀ entry ∈ entries, entry ∈ newEntries.values)
    (hnew : ∀ entry ∈ entries, entry.entryId ∉ changes.visitSet)
    (hdeps : ∀ entry ∈ entries, ∀ id ∈ entry.dependencies, id ∈ changes.visitSet)
    (hvisit : ∀ id ∈ changes.visitSet, newEntries.has id = true)
    (hrun : planPendingChanges entries newEntries oldEntries options.handlers order options.force
      changes = .ok changes') :
    Planning newEntries oldEntries options changes' ∧
      ∀ id ∈ changes'.visitSet, newEntries.has id = true := by
  unfold planPendingChanges at hrun
  induction entries generalizing changes with
  | nil =>
    simp only [List.foldlM_nil, pure, Except.pure, Except.ok.injEq] at hrun
    exact hrun ▸ ⟨h, hvisit⟩
  | cons entry rest ih =>
    rw [List.foldlM_cons] at hrun
    obtain ⟨next, hnext, hrun⟩ := Except.bind_ok.mp hrun
    obtain ⟨hentry, hrest⟩ := List.nodup_cons.mp hn
    have hvisited : ∀ id, id ∈ next.visitSet ↔ id ∈ changes.visitSet ∨ id = entry.entryId := by
      intro id
      rw [(planPendingChange_ok hnext).2.1, mem_addId]
    refine ih ?_ hrest (fun e he => hm e (List.mem_cons_of_mem _ he)) (fun e he hv => ?_)
      (fun e he id hi => (hvisited id).mpr (.inl (hdeps e (List.mem_cons_of_mem _ he) id hi)))
      (fun id hi => ?_) hrun
    · exact h.change (hm entry List.mem_cons_self) (hnew entry List.mem_cons_self)
        (hdeps entry List.mem_cons_self) hvisit hnext
    · rcases (hvisited _).mp hv with hv | hv
      · exact hnew e (List.mem_cons_of_mem _ he) hv
      · exact hentry (hv ▸ List.mem_map_of_mem he)
    · rcases (hvisited id).mp hi with hi | rfl
      · exact hvisit id hi
      · exact KeyedMap.has_iff.mpr ⟨entry, KeyedMap.get?_of_mem (hm entry List.mem_cons_self)⟩

theorem Planning.rounds {fuel actionOrder actionOrder' : Nat}
    (h : Planning newEntries oldEntries options changes)
    (hvisit : ∀ id ∈ changes.visitSet, newEntries.has id = true)
    (hrun : planChanges newEntries.values newEntries oldEntries options fuel actionOrder changes =
      .ok (changes', actionOrder')) : Planning newEntries oldEntries options changes' := by
  induction fuel generalizing changes actionOrder with
  | zero =>
    simp only [planChanges, Except.ok.injEq, Prod.mk.injEq] at hrun
    exact hrun.1 ▸ h
  | succ fuel ih =>
    rw [planChanges] at hrun
    split at hrun
    · simp only [Except.ok.injEq, Prod.mk.injEq] at hrun
      exact hrun.1 ▸ h
    · obtain ⟨round, hround, hrun⟩ := Except.bind_ok.mp hrun
      have hready : ∀ entry ∈ findPendingChanges newEntries.values changes.visitSet,
          entry ∈ newEntries.values ∧ entry.entryId ∉ changes.visitSet ∧
            ∀ id ∈ entry.dependencies, id ∈ changes.visitSet := fun entry he =>
        Layering.mem_ready.mp he
      obtain ⟨hplanning, hround⟩ := h.layer (newEntries.nodup.sublist (List.filter_sublist.map _))
        (fun entry he => (hready entry he).1) (fun entry he => (hready entry he).2.1)
        (fun entry he => (hready entry he).2.2) hvisit hround
      exact ih hplanning hround hrun

/-- Each new entry has its step among the creation steps. -/
theorem planned_creations {actionOrder : Nat}
    (h : planCreationSteps newEntries oldEntries options = .ok (changes, actionOrder)) :
    ∀ candidate ∈ newEntries.values, ∃ step ∈ changes.steps, step.entryId = candidate.entryId ∧
      PlannedAs EqualsAnswer.truthy newEntries oldEntries options changes.steps candidate step := by
  have hvisit := (planCreationSteps_ok h).2.2.2.1
  have hplanning : Planning newEntries oldEntries options changes := by
    obtain ⟨⟨c, n⟩, hloop, h⟩ := Except.bind_ok.mp h
    dsimp only at h
    split at h
    · cases h
    · simp only [Except.ok.injEq, Prod.mk.injEq] at h
      exact h.1 ▸ planning_init.rounds (by simp) hloop
  intro candidate hm
  have hid : candidate.entryId ∈ changes.visitSet :=
    (hvisit _).mpr (KeyedMap.has_iff.mpr ⟨candidate, KeyedMap.get?_of_mem hm⟩)
  obtain ⟨step, hs, hkey⟩ := List.mem_map.mp ((hplanning.visited _).mp hid)
  obtain ⟨other, ho, hsame, -, hplanned⟩ := hplanning.planned step hs
  have heq : other = candidate :=
    List.inj_on_of_nodup_map newEntries.nodup ho hm (hsame.trans hkey)
  exact ⟨step, hs, hkey, heq ▸ hplanned⟩

theorem rewrites_deletions (steps : List StepState) (removals : List (String × Nat)) (id : String) :
    rewrites (steps ++ removals.map deleteStep) id = rewrites steps id := by
  have hnone : (removals.map deleteStep).any (fun step => step.entryId = id &&
      (step.action = .create || step.action = .replace)) = false := by
    rw [List.any_eq_false]
    intro step hs
    obtain ⟨stamp, -, rfl⟩ := List.mem_map.mp hs
    simp [deleteStep]
  rw [rewrites, List.any_append, hnone, Bool.or_false]
  rfl

end Loop

/-- **The step of every new entry**, as the code reads the answers of `equals`. -/
theorem planSteps_planned {newEntries oldEntries : Option (EntryStates V)}
    {options : PlanOptions V} {steps : List StepState}
    (h : planSteps newEntries oldEntries options = .ok steps) :
    ∀ candidate ∈ (newEntries.getD ∅).values, ∃ step ∈ steps,
      step.entryId = candidate.entryId ∧ PlannedAs EqualsAnswer.truthy (newEntries.getD ∅)
        oldEntries options steps candidate step := by
  cases newEntries with
  | none => intro candidate hm; cases hm
  | some newEntries =>
    cases oldEntries with
    | none =>
      obtain ⟨⟨changes, actionOrder⟩, hcreate, h⟩ := Except.bind_ok.mp h
      simp only [pure, Except.pure, Except.ok.injEq] at h
      subst h
      exact planned_creations hcreate
    | some oldEntries =>
      obtain ⟨⟨changes, actionOrder⟩, hcreate, h⟩ := Except.bind_ok.mp h
      obtain ⟨deletionSteps, hdelete, h⟩ := Except.bind_ok.mp h
      simp only [pure, Except.pure, Except.ok.injEq] at h
      subst h
      obtain ⟨-, removals, rfl, -⟩ := planDeletionSteps_ok hdelete
      intro candidate hm
      obtain ⟨step, hs, hid, hplanned⟩ := planned_creations hcreate candidate hm
      exact ⟨step, List.mem_append_left _ hs, hid, hplanned.congr fun id _ =>
        rewrites_deletions changes.steps removals id⟩

/-- `equals` answers no entry of the same type with a promise of `false`. -/
def AnswersAwaited (newEntries : EntryStates V) (oldEntries : Option (EntryStates V))
    (options : PlanOptions V) : Prop :=
  ∀ candidate ∈ newEntries.values, ∀ current,
    oldEntries.bind (·.get? candidate.entryId) = some current → candidate.type = current.type →
      ∀ handler, options.handlers candidate.type = some handler →
        handler.equals candidate current ≠ .ok (.later false)

/-- **A plan classifies the entries as their handlers answer, and previews
them against the right dependencies**, exactly when no handler answers with a
promise of `false`. -/
theorem plansAsAnswered_iff {newEntries oldEntries : Option (EntryStates V)}
    {options : PlanOptions V} {steps : List StepState}
    (h : planSteps newEntries oldEntries options = .ok steps) :
    PlansAsAnswered (newEntries.getD ∅) oldEntries options steps ↔
      AnswersAwaited (newEntries.getD ∅) oldEntries options := by
  have hplanned := planSteps_planned h
  have hnodup := (planSteps_ok h).1.nodup
  constructor
  · intro hall candidate hm current hc htype handler hh hanswer
    obtain ⟨step, hs, hid, hcode⟩ := hplanned candidate hm
    obtain ⟨other, ho, hid', hclaim⟩ := hall candidate hm
    obtain rfl := List.inj_on_of_nodup_map hnodup hs ho (hid.trans hid'.symm)
    simp only [PlannedAs, hc, htype, ne_eq, not_true_eq_false, if_false] at hcode hclaim
    obtain ⟨handler₁, answer₁, -, hh₁, ha₁, haction₁, -⟩ := hcode
    obtain ⟨handler₂, answer₂, -, hh₂, ha₂, haction₂, -⟩ := hclaim
    rw [← htype, hh, Option.some.injEq] at hh₁ hh₂
    subst hh₁ hh₂
    rw [hanswer, Except.ok.injEq] at ha₁ ha₂
    subst ha₁ ha₂
    rw [haction₁] at haction₂
    simp [EqualsAnswer.truthy, awaited] at haction₂
  · intro hall candidate hm
    obtain ⟨step, hs, hid, hcode⟩ := hplanned candidate hm
    refine ⟨step, hs, hid, ?_⟩
    unfold PlannedAs at hcode ⊢
    cases hc : oldEntries.bind (·.get? candidate.entryId) with
    | none => simpa only [hc] using hcode
    | some current =>
      simp only [hc] at hcode ⊢
      by_cases htype : candidate.type ≠ current.type
      · rwa [if_pos htype] at hcode ⊢
      · rw [if_neg htype] at hcode ⊢
        obtain ⟨handler, answer, stepOptions, hh, hanswer, haction, hrest⟩ := hcode
        refine ⟨handler, answer, stepOptions, hh, hanswer, ?_, hrest⟩
        rw [haction]
        cases answer with
        | now same => rfl
        | later same =>
          cases same with
          | true => rfl
          | false =>
            exact absurd hanswer (hall candidate hm current hc (not_ne_iff.mp htype) handler hh)

namespace Sample

/-- An entry with a result, or without. -/
def entry (type entryId : String) (dependencies : List String) : EntryState Unit :=
  { type, entryId, dependencies, parameters := (), result := some () }

/-- `equals` answers as given. The preview counts the dependencies that have
no result yet. -/
def options (answer : EqualsAnswer) : PlanOptions Unit where
  handlers _ := some {
    equals := fun _ _ => .ok answer
    preview := fun _ _ stepOptions => do
      let dependencies ← (stepOptions.getDependencies none).mapError .error
      return some { counts := (dependencies.filter fun entry => entry.result.isNone).length } }

def newEntries : EntryStates Unit := ⟨[entry "table" "a" [], entry "api" "b" ["a"]], by decide⟩

/-- The first entry had another type. -/
def oldEntries : EntryStates Unit := ⟨[entry "bucket" "a" [], entry "api" "b" ["a"]], by decide⟩

/-- The second entry is previewed against the first one without its result. -/
theorem replaced_dependency : PlansAsAnswered newEntries (some oldEntries) (options (.now true))
    [{ action := .replace, entryId := "a", order := 0 },
      { action := .update, preview := some { counts := 1 }, entryId := "b", order := 1 }] := by
  have hplan : planSteps (some newEntries) (some oldEntries) (options (.now true)) =
      .ok [{ action := .replace, entryId := "a", order := 0 },
        { action := .update, preview := some { counts := 1 }, entryId := "b", order := 1 }] := rfl
  refine (plansAsAnswered_iff hplan).mpr fun candidate _ current _ _ handler hh hanswer => ?_
  obtain rfl := Option.some.inj hh
  cases hanswer

/-- A promise of `false`: the entry is to be replaced, and is updated. -/
theorem promise_not_awaited : ¬ ∀ (newEntries oldEntries : Option (EntryStates Unit))
    (options : PlanOptions Unit) (steps : List StepState),
    planSteps newEntries oldEntries options = .ok steps →
      PlansAsAnswered (newEntries.getD ∅) oldEntries options steps := by
  intro h
  have hplan : planSteps (some newEntries) (some newEntries) (options (.later false)) =
      .ok [{ action := .update, preview := some { counts := 0 }, entryId := "a", order := 0 },
        { action := .update, preview := some { counts := 0 }, entryId := "b", order := 1 }] := rfl
  obtain ⟨step, hs, hid, hplanned⟩ := h _ _ _ _ hplan (entry "table" "a" []) List.mem_cons_self
  obtain ⟨handler, answer, stepOptions, hh, hanswer, haction, -⟩ := hplanned
  obtain rfl := Option.some.inj hh
  obtain rfl := Except.ok.inj hanswer
  rcases List.mem_cons.mp hs with rfl | hs
  · cases haction
  · obtain rfl := List.mem_singleton.mp hs
    cases haction

end Sample

end Ez4.State.PlanPreviews

import Mathlib.Algebra.GroupWithZero.Nat
import Ez4.Library.Walk
import Ez4.State.ApplyResult

/-! # Post actions that require their dependents

What the `requireDependents` check of a post action comes to. It walks the
dependencies with which the entries were saved, and an entry whose step failed
was saved with its old ones, or not at all. So it sees every failed dependent
exactly when the failures still lead to the entry over the saved dependencies
(`FailuresSeen`). A failed post action is always seen. -/
namespace Ez4.State.Dependents
open Ez4.Library Ez4.State.Entry Ez4.State.Plan Ez4.State.PlanSoundness Ez4.State.Apply
  Ez4.State.ApplyInvariant Ez4.State.ApplyResult Ez4.Utils.Tasks

variable {V : Type}

/-- No entry of the plan that depends on `x`, directly or not, had its step or
one of its post actions fail. -/
def DependentsSucceeded (d : Deploy V) (history : List (Happening V)) (x : String) : Prop :=
  ∀ y, Relation.TransGen (DependsOn d.allNewEntries) y x →
    ¬ StepFailed history y ∧ ¬ PostActionFailed history y

/-- A free worker takes this post action next. -/
structure Takes (d : Deploy V) (s : ApplyState V) (tasks : Pool PostActionEntry Unit Unit)
    (index : Nat) (postAction : PostActionEntry) (entry : EntryState V) : Prop where
  phase : s.phase = .postActions tasks
  next : next? tasks d.options.concurrency = some index
  task : tasks[index]? = some ⟨postAction, .waiting⟩
  entry : s.stepEntries.get? postAction.entryId = some entry

/-- A post action that requires its dependents is called only when they all
went well. -/
def CalledInSafety (d : Deploy V) (s : ApplyState V) (e : ApplyEvent V) : Prop :=
  ∀ tasks index postAction entry t, e = .start → Takes d s tasks index postAction entry →
    postAction.requireDependents = true → (applySteps d).step s e = some t →
    t.history = s.history ++ [.postActionCalled postAction.entryId] →
      DependentsSucceeded d s.history postAction.entryId

/-- Some failed entry leads to `x` over the dependencies of the saved entries. -/
def FailureLeadsTo (s : ApplyState V) (x : String) : Prop :=
  ∃ z, s.failedEntries.has z = true ∧ Relation.TransGen (DependsOn s.result) z x

/-- When a post action that requires its dependents has passed the other
checks and the step of a dependent failed, some failed entry leads to its
entry over the saved dependencies. -/
def FailuresSeen (d : Deploy V) (s : ApplyState V) (e : ApplyEvent V) : Prop :=
  ∀ tasks index postAction entry, e = .start → Takes d s tasks index postAction entry →
    postAction.requireDependents = true →
    checkPostAction s { postAction with requireDependents := false } entry = .ok () →
    (∃ y, Relation.TransGen (DependsOn d.allNewEntries) y postAction.entryId ∧
      StepFailed s.history y) →
      FailureLeadsTo s postAction.entryId

/-! ## The walk through the dependents -/

section
variable {allEntries failedEntries : EntryStates V}

theorem checkAllDependentsSucceeded_eq_walk (fuel : Nat) (entry : EntryState V) :
    checkAllDependentsSucceeded allEntries failedEntries fuel entry =
      Walk.walk EntryState.entryId (fun entry => getEntryDependents allEntries entry none)
        failedEntries.has fuel entry := by
  induction fuel generalizing entry with
  | zero => rfl
  | succ fuel ih =>
    rw [checkAllDependentsSucceeded, Walk.walk]
    congr 1
    funext dependent visitedIds
    rw [ih]
    change StateT.run (if visitedIds.contains dependent.entryId = true then _ else _) visitedIds =
      StateT.run (if visitedIds.contains dependent.entryId = true then _ else _) visitedIds
    by_cases hseen : visitedIds.contains dependent.entryId = true
    · rw [if_pos hseen, if_pos hseen]
    · rw [if_neg hseen, if_neg hseen, addId, if_neg hseen]

/-- A walk through dependents follows the dependencies backwards. -/
theorem leads_iff {x y : EntryState V} :
    Walk.Leads (fun entry => getEntryDependents allEntries entry none) x y ↔
      y ∈ allEntries.values ∧ x.entryId ∈ y.dependencies := mem_getEntryDependents

theorem dependsOn_of_leads {x y : EntryState V}
    (h : Relation.TransGen (Walk.Leads fun entry => getEntryDependents allEntries entry none) x y) :
    Relation.TransGen (DependsOn allEntries) y.entryId x.entryId := by
  induction h with
  | single h =>
    obtain ⟨hm, hx⟩ := leads_iff.mp h
    exact .single ⟨_, hm, rfl, hx⟩
  | tail _ h ih =>
    obtain ⟨hm, hx⟩ := leads_iff.mp h
    exact .head ⟨_, hm, rfl, hx⟩ ih

theorem leads_of_dependsOn {entry : EntryState V} {y : String}
    (h : Relation.TransGen (DependsOn allEntries) y entry.entryId) :
    ∃ dependent, dependent.entryId = y ∧
      Relation.TransGen (Walk.Leads fun entry => getEntryDependents allEntries entry none)
        entry dependent := by
  induction h using Relation.TransGen.head_induction_on with
  | single h =>
    obtain ⟨dependent, hm, hy, hx⟩ := h
    exact ⟨dependent, hy, .single (leads_iff.mpr ⟨hm, hx⟩)⟩
  | head h _ ih =>
    obtain ⟨next, rfl, hnext⟩ := ih
    obtain ⟨dependent, hm, hy, hx⟩ := h
    exact ⟨dependent, hy, hnext.tail (leads_iff.mpr ⟨hm, hx⟩)⟩

/-- **The check of the dependents** finds no failed entry that leads to the
given one over the dependencies of the map. -/
theorem checkAllDependentsSucceeded_iff (entry : EntryState V) :
    (checkAllDependentsSucceeded allEntries failedEntries (allEntries.values.length + 1)
        entry).run' [] = true ↔
      ∀ z, Relation.TransGen (DependsOn allEntries) z entry.entryId →
        failedEntries.has z = false := by
  have hinside : ∀ a b, b ∈ getEntryDependents allEntries a none → b ∈ allEntries.values :=
    fun _ _ hb => (mem_getEntryDependents.mp hb).1
  rw [checkAllDependentsSucceeded_eq_walk,
    Walk.walk_iff hinside allEntries.nodup (Nat.lt_succ_self _)]
  constructor
  · intro h z hz
    obtain ⟨dependent, rfl, hd⟩ := leads_of_dependsOn hz
    exact h dependent hd
  · intro h dependent hd
    exact h _ (dependsOn_of_leads hd)

end

/-- The check of the dependents comes after all the others. -/
theorem checkPostAction_iff {s : ApplyState V} {postAction : PostActionEntry}
    {entry : EntryState V} (hreq : postAction.requireDependents = true) :
    checkPostAction s postAction entry = .ok () ↔
      checkPostAction s { postAction with requireDependents := false } entry = .ok () ∧
        ¬ FailureLeadsTo s entry.entryId := by
  have hleads : ¬ FailureLeadsTo s entry.entryId ↔
      ∀ z, Relation.TransGen (DependsOn s.result) z entry.entryId → s.failedEntries.has z = false := by
    simp only [FailureLeadsTo, not_exists, not_and', Bool.not_eq_true]
  rw [hleads, ApplyState.result, ← checkAllDependentsSucceeded_iff]
  unfold checkPostAction
  simp only [hreq, bind, Except.bind]
  generalize StateT.run' (checkAllDependentsSucceeded _ _ _ entry) [] = succeeded
  split
  · simp
  split
  · cases allSucceeded s.succeededEntries entry.dependencies with
    | error error => simp
    | ok all => cases all <;> cases succeeded <;> simp [pure, Except.pure]
  · cases succeeded <;> simp [pure, Except.pure]

/-! ## What a failed post action leaves -/

section
variable {d : Deploy V} {s : ApplyState V} {pending : List PostActionEntry}
  (h : PostActionsInv d s pending)
include h

/-- A failed post action of an entry of the plan puts it back with its new
dependencies. -/
theorem current_of_postActionFailed {step : StepState} (hs : step ∈ d.stepList)
    (ha : step.action ≠ .delete) (hf : PostActionFailed s.history step.entryId) :
    Current d s step.entryId ∧ s.failedEntries.has step.entryId = true := by
  obtain ⟨c, o, hok, hrec⟩ := h.recorded step hs
  obtain ⟨-, entry, he, hfailed⟩ := hrec.putBack hf
  have hresult : s.result.get? step.entryId = some { entry with isPartial := some true } := by
    rw [ApplyState.result, KeyedMap.get?_spread, hfailed, Option.some_or]
  have hstarts := hok.starts
  rw [candidate?, if_pos ha] at hstarts
  suffices hentry : entry.dependencies = c.dependencies ∧
      ∀ x ∈ c.dependencies, Clean s.history x from
    ⟨⟨_, c, hresult, hstarts, hentry.1, hentry.2⟩, KeyedMap.has_iff.mpr ⟨_, hfailed⟩⟩
  obtain ⟨a, hcalled⟩ := called_of_postActionFailed h hf
  obtain ⟨-, -, hl⟩ := hok
  generalize hlog : stepLog s.history step.entryId = log at hl
  rw [mem_history_iff hlog (by simp [isStepOf])] at hcalled
  rw [he] at hl
  cases hl with
  | unchanged | skipped => simp at hcalled
  | saved _ hentry _ hd hclean => exact Option.some.inj hentry ▸ ⟨hd, hclean⟩
  | threw _ hentry hclean =>
    obtain rfl := Option.some.inj hentry
    exact ⟨rfl, hclean ha⟩
  | deleted hdel | notDeleted hdel => exact absurd hdel ha

/-- From a current entry every new dependency is a saved one. -/
theorem saved_of_current {y x : String} (hy : Current d s y)
    (hyx : Relation.TransGen (DependsOn d.allNewEntries) y x) :
    Relation.TransGen (DependsOn s.result) y x := by
  have hstep : ∀ {a b}, Current d s a → DependsOn d.allNewEntries a b →
      DependsOn s.result a b ∧ Current d s b := by
    intro a b ha hab
    obtain ⟨entry, c, he, hc, hd, hclean⟩ := ha
    obtain ⟨c', hc', hb⟩ := dependsOn_iff.mp hab
    obtain rfl := Option.some.inj (hc.symm.trans hc')
    exact ⟨dependsOn_iff.mpr ⟨entry, he, hd ▸ hb⟩, current_of_clean h (hclean b hb)⟩
  suffices hgo : Relation.TransGen (DependsOn s.result) y x ∧ Current d s x from hgo.1
  induction hyx with
  | single hab =>
    obtain ⟨hsaved, hcurrent⟩ := hstep hy hab
    exact ⟨.single hsaved, hcurrent⟩
  | tail _ hab ih =>
    obtain ⟨hsaved, hcurrent⟩ := hstep ih.2 hab
    exact ⟨ih.1.tail hsaved, hcurrent⟩

/-- **A failed post action of a dependent is always seen.** -/
theorem failureLeadsTo_of_postActionFailed
    (hplan : IsPlan d.allNewEntries d.allOldEntries d.stepList) {y x : String}
    (hyx : Relation.TransGen (DependsOn d.allNewEntries) y x)
    (hf : PostActionFailed s.history y) : FailureLeadsTo s x := by
  have hnew : d.allNewEntries.has y = true := by
    obtain ⟨_, hd, _⟩ := Relation.TransGen.head'_iff.mp hyx
    obtain ⟨entry, he, _⟩ := dependsOn_iff.mp hd
    exact KeyedMap.has_iff.mpr ⟨entry, he⟩
  obtain ⟨step, hs, rfl, ha⟩ := (hplan.saves y).mpr hnew
  obtain ⟨hcurrent, hfailed⟩ := current_of_postActionFailed h hs ha hf
  exact ⟨_, hfailed, saved_of_current h hcurrent hyx⟩

end

/-! ## Every call -/

section
variable {d : Deploy V} {s : ApplyState V} {tasks : Pool PostActionEntry Unit Unit}
  {index : Nat} {postAction : PostActionEntry} {entry : EntryState V}

theorem Takes.step (h : Takes d s tasks index postAction entry) :
    (applySteps d).step s .start = some (startPostAction s tasks index postAction entry) := by
  obtain ⟨hphase, hnext, htask, hentry⟩ := h
  simp [applySteps, applyEvent, hphase, postActionEvent, hnext, htask, hentry]

/-- A post action is called exactly when it passes its checks. -/
theorem startPostAction_called_iff :
    (startPostAction s tasks index postAction entry).history =
        s.history ++ [.postActionCalled postAction.entryId] ↔
      checkPostAction s postAction entry = .ok () := by
  unfold startPostAction
  cases checkPostAction s postAction entry with
  | error error => simp [failPostAction, movePostAction]
  | ok done => simp [movePostAction]

/-- **One call is in safety** exactly when the failures are seen. -/
theorem calledInSafety_iff (hplan : IsPlan d.allNewEntries d.allOldEntries d.stepList)
    (hinv : ApplyInvariant.Inv d s) (e : ApplyEvent V) : CalledInSafety d s e ↔ FailuresSeen d s e := by
  constructor
  · intro h tasks index postAction entry he htakes hreq hchecks ⟨y, hy, hfailed⟩
    by_contra hnot
    have hid := KeyedMap.key_of_get? htakes.entry
    have hcheck := (checkPostAction_iff hreq).mpr ⟨hchecks, hid ▸ hnot⟩
    subst he
    exact (h tasks index postAction entry _ rfl htakes hreq htakes.step
      (startPostAction_called_iff.mpr hcheck) y hy).1 hfailed
  · intro h tasks index postAction entry t he htakes hreq hstep hcalled
    have hid := KeyedMap.key_of_get? htakes.entry
    subst he
    obtain rfl := Option.some.inj (htakes.step.symm.trans hstep)
    obtain ⟨hchecks, hunseen⟩ := (checkPostAction_iff hreq).mp (startPostAction_called_iff.mp hcalled)
    rw [hid] at hunseen
    unfold ApplyInvariant.Inv at hinv
    rw [htakes.phase] at hinv
    intro y hy
    exact ⟨fun hf => hunseen (h tasks index postAction entry rfl htakes hreq hchecks ⟨y, hy, hf⟩),
      fun hf => hunseen (failureLeadsTo_of_postActionFailed hinv.1 hplan hy hf)⟩

/-- A failed step leaves its entry among the failed ones when it had an old one. -/
theorem failed_has {pending : List PostActionEntry} (h : PostActionsInv d s pending)
    (hplan : IsPlan d.allNewEntries d.allOldEntries d.stepList) {y : String}
    (hnew : d.allNewEntries.has y = true) (hold : d.allOldEntries.has y = true)
    (hf : StepFailed s.history y) : s.failedEntries.has y = true := by
  obtain ⟨step, hs, rfl, ha⟩ := (hplan.saves y).mpr hnew
  obtain ⟨saved, error, hm⟩ := hf
  obtain ⟨c, o, hok, hrec⟩ := h.recorded step hs
  by_cases hpost : PostActionFailed s.history step.entryId
  · exact (current_of_postActionFailed h hs ha hpost).2
  · have hrolled := hok.rolledBack hm
    obtain rfl := hok.finished_iff.mp hm
    obtain ⟨-, hfailed⟩ := hrec.kept hpost
    rw [KeyedMap.has, hfailed, StepOutcome.failed, hrolled]
    exact hold

/-- Failures are seen when each entry whose step failed depended on the same
entries before. -/
theorem failuresSeen_of_kept (hplan : IsPlan d.allNewEntries d.allOldEntries d.stepList)
    (hinv : ApplyInvariant.Inv d s) (e : ApplyEvent V)
    (hkept : ∀ y, StepFailed s.history y → ∀ x, DependsOn d.allNewEntries y x →
      DependsOn d.allOldEntries y x) : FailuresSeen d s e := by
  rintro tasks index postAction entry - htakes - - ⟨y, hy, hf⟩
  unfold ApplyInvariant.Inv at hinv
  rw [htakes.phase] at hinv
  have hsaved : ∀ a b, DependsOn d.allNewEntries a b → DependsOn s.result a b := by
    intro a b hab
    obtain ⟨c, hc, hb⟩ := dependsOn_iff.mp hab
    obtain ⟨step, hs, rfl, ha⟩ := (hplan.saves a).mpr (KeyedMap.has_iff.mpr ⟨c, hc⟩)
    obtain ⟨c', hcand, hfate⟩ := fate_of_step hinv.1 hs
    rw [candidate?, if_pos ha] at hcand
    obtain rfl := Option.some.inj (hc.symm.trans hcand)
    cases hfate with
    | current _ he hd => exact dependsOn_iff.mpr ⟨_, he, hd ▸ hb⟩
    | rolledBack hfailed hsame =>
      obtain ⟨old, hold, hb'⟩ := dependsOn_iff.mp (hkept _ hfailed b hab)
      rw [hold, Option.map_some] at hsame
      obtain ⟨saved, hresult, hd⟩ := Option.map_eq_some_iff.mp hsame
      exact dependsOn_iff.mpr ⟨saved, hresult, hd ▸ hb'⟩
    | gone hdel | putBack hdel | notDeleted hdel => exact absurd hdel ha
  obtain ⟨b, hyb, -⟩ := Relation.TransGen.head'_iff.mp hy
  obtain ⟨new, hnew, -⟩ := dependsOn_iff.mp hyb
  obtain ⟨old, hold, -⟩ := dependsOn_iff.mp (hkept y hf b hyb)
  exact ⟨y, failed_has hinv.1 hplan (KeyedMap.has_iff.mpr ⟨new, hnew⟩)
    (KeyedMap.has_iff.mpr ⟨old, hold⟩) hf, Relation.TransGen.mono hsaved _ _ hy⟩

end

/-! ## Samples -/

namespace Sample

def old : EntryStates Nat := ⟨[sampleEntry "a" []], by decide⟩

def both : EntryStates Nat := ⟨[sampleEntry "a" [], sampleEntry "b" ["a"]], by decide⟩

/-- Updates `a`, and `b` which rests on it. -/
def renewal : Deploy Nat where
  stepList := [{ action := .update, entryId := "a", order := 0 },
    { action := .update, entryId := "b", order := 1 }]
  newEntries := some both
  oldEntries := some both
  options := { handlers := quietHandlers.handlers, force := true }

/-- Updates `a`, and creates `b` which rests on it. -/
def addition : Deploy Nat where
  stepList := [{ action := .update, entryId := "a", order := 0 },
    { action := .create, entryId := "b", order := 1 }]
  newEntries := some both
  oldEntries := some old
  options := { handlers := quietHandlers.handlers, force := true }

/-- `a` registers a post action that requires its dependents, and `b` fails. -/
def dependentFails : List (ApplyEvent Nat) :=
  [.start, .postAction 0 true, .returned 0 none, .finish,
    .start, .threw 0 (.error (.custom "denied")), .finish]

theorem renewal_planned : Planned renewal quietHandlers := by
  unfold Planned
  decide

theorem addition_planned : Planned addition quietHandlers := by
  unfold Planned
  decide

end Sample

end Ez4.State.Dependents

import Ez4.Project.Deploy

/-! # One deploy at a time

Runs whose locks and releases take effect in order exclude one another, save
what they made from the stored state and leave no lock behind. -/
namespace Ez4.Project.Deploy
open Ez4.Library Ez4.State.Entry Ez4.State.Plan Ez4.State.Apply

variable {V Checksum : Type}

/-! ## What is stated of a run -/

/-- Between the start of `assertStateUnchanged` and the end of `saveState`. -/
def Phase.inSection : Phase V Checksum → Bool
  | .checking _ | .applying _ | .saving _ _ _ => true
  | _ => false

/-- The callback is over, or will not start. -/
def Phase.done : Phase V Checksum → Bool
  | .acquiring _ (some false) | .releasing _ | .ended => true
  | _ => false

/-- No request is sent that has not taken effect. -/
def Run.settled (run : Run V Checksum) : Bool :=
  !run.shutdowns.contains false &&
    match run.phase with
    | .acquiring _ none | .saving _ _ false | .releasing false => false
    | _ => true

/-- It returned, threw or exited. -/
def Run.over (run : Run V Checksum) : Bool :=
  run.exited || match run.phase with
    | .ended => true
    | _ => false

/-- The state that `applySteps` made from another one. -/
def AppliedTo (before : Option (Contents V)) (after : Contents V) : Prop :=
  ∃ (command : Command V) (options : ApplyOptions V) (events : List (ApplyEvent V)),
    applyDeploy (command.newState (loadState id before).state) (loadState id before).state options
      events = some after.state

namespace System

variable (s : System V Checksum)

def InSection (r : Nat) : Prop := ∃ run, s.runs r = some run ∧ run.phase.inSection

structure Safe : Prop where
  exclusive : ∀ r r', s.InSection r → s.InSection r' → r = r'
  saved : ∀ r before after, .saved r before after ∈ s.log → AppliedTo before after
  unlocked : ∀ r owner, .unlocked r owner ∈ s.log → owner = r
  released : ∀ r run, s.runs r = some run → run.over → run.settled → s.lock ≠ some r

/-- The callback of a run is over, or will not start. -/
def isDone (r : Nat) : Bool := (s.runs r).any fun run => run.phase.done

/-- A release of the shutdown handler takes effect after the callback. A release
that fails, and a put of the lock that fails, leave no lock of the run. -/
def Orderly : Event V → Prop
  | .shutdownTakesEffect r _ => s.isDone r
  | .shutdownFails r _ => s.isDone r ∧ s.lock ≠ some r
  | .releaseFails r | .lockFails r => s.lock ≠ some r
  | _ => True

instance : ∀ event, Decidable (s.Orderly event)
  | .shutdownTakesEffect r _ => inferInstanceAs (Decidable (s.isDone r = true))
  | .shutdownFails r _ => inferInstanceAs (Decidable (s.isDone r = true ∧ s.lock ≠ some r))
  | .releaseFails r | .lockFails r => inferInstanceAs (Decidable (s.lock ≠ some r))
  | .start _ | .loads _ | .abandons _ | .proceeds _ _ _ | .lockTakesEffect _ | .lockAnswered _
  | .checks _ | .callbackThrows _ | .applies _ _ _ | .saveTakesEffect _ | .saveAnswered _
  | .saveFails _ | .releaseTakesEffect _ | .releaseAnswered _ | .signal _
  | .shutdownAnswered _ _ => .isTrue trivial

end System

/-! ## The invariant -/

section Invariant

variable (hash : Contents V → Checksum)

/-- A state that was read from the file at some time. -/
def Loaded (loaded : LoadedState V Checksum) : Prop := ∃ file, loaded = loadState hash file

/-- Who holds the lock in a phase, and what the plan was made from. -/
def Phase.Sound (s : System V Checksum) (r : Nat) : Phase V Checksum → Prop
  | .loading | .acquiring _ (some false) | .releasing true | .ended => s.lock ≠ some r
  | .ready loaded => s.lock ≠ some r ∧ Loaded hash loaded
  | .acquiring plan none => s.lock ≠ some r ∧ Loaded hash plan.loaded
  | .acquiring plan (some true) | .checking plan => s.lock = some r ∧ Loaded hash plan.loaded
  | .applying plan => s.lock = some r ∧ plan.loaded = loadState hash s.file
  | .saving plan contents false => s.lock = some r ∧ plan.loaded = loadState hash s.file ∧
      ∃ events, plan.apply events = some contents.state
  | .saving _ _ true => s.lock = some r
  | .releasing false => True

/-- No request of the run is out before `performDeploy`. -/
def Phase.early : Phase V Checksum → Bool
  | .loading | .ready _ => true
  | _ => false

structure Run.Sound (s : System V Checksum) (r : Nat) (run : Run V Checksum) : Prop where
  phase : run.phase.Sound hash s r
  shutdowns : true ∈ run.shutdowns → run.phase.done
  exited : run.exited → run.phase.early ∨ run.phase.done

structure Invariant (s : System V Checksum) : Prop where
  runs : ∀ r run, s.runs r = some run → run.Sound hash s r
  owner : ∀ r, s.runs r = none → s.lock ≠ some r
  saved : ∀ r before after, .saved r before after ∈ s.log → AppliedTo before after
  unlocked : ∀ r owner, .unlocked r owner ∈ s.log → owner = r

end Invariant

section Kept

variable {hash : Contents V → Checksum} {s t u : System V Checksum} {r : Nat}
  {run run' : Run V Checksum} {phase : Phase V Checksum}

/-- A run in its section holds the lock. -/
theorem Phase.Sound.lock (h : phase.Sound hash s r) (hin : phase.inSection) :
    s.lock = some r := by
  cases phase with
  | checking plan | applying plan => exact h.1
  | saving plan contents written =>
    cases written with
    | false => exact h.1
    | true => exact h
  | _ => simp [Phase.inSection] at hin

/-- What a step of one run leaves of the others. -/
structure Local (s t : System V Checksum) (r : Nat) : Prop where
  runs : t.runs = s.runs
  lock : ∀ r', r' ≠ r → (t.lock = some r' ↔ s.lock = some r')
  file : s.lock ≠ some r → t.file = s.file

theorem Local.refl : Local s s r := ⟨rfl, fun _ _ => Iff.rfl, fun _ => rfl⟩

theorem Phase.Sound.other {r' : Nat} (h : phase.Sound hash s r') (hne : r' ≠ r)
    (hlocal : Local s t r) : phase.Sound hash t r' := by
  have hlock : t.lock = some r' ↔ s.lock = some r' := hlocal.lock r' hne
  have hfile : s.lock = some r' → t.file = s.file := fun hl =>
    hlocal.file fun hr => hne (Option.some.inj (hl.symm.trans hr))
  cases phase with
  | loading | ended => exact fun hl => h (hlock.mp hl)
  | ready loaded => exact ⟨fun hl => h.1 (hlock.mp hl), h.2⟩
  | acquiring plan lock =>
    cases lock with
    | none => exact ⟨fun hl => h.1 (hlock.mp hl), h.2⟩
    | some taken =>
      cases taken with
      | false => exact fun hl => h (hlock.mp hl)
      | true => exact ⟨hlock.mpr h.1, h.2⟩
  | checking plan => exact ⟨hlock.mpr h.1, h.2⟩
  | applying plan => exact ⟨hlock.mpr h.1, (hfile h.1).symm ▸ h.2⟩
  | saving plan contents written =>
    cases written with
    | false => exact ⟨hlock.mpr h.1, (hfile h.1).symm ▸ h.2.1, h.2.2⟩
    | true => exact hlock.mpr h
  | releasing released =>
    cases released with
    | false => trivial
    | true => exact fun hl => h (hlock.mp hl)

theorem Phase.sound_congr (hlock : t.lock = s.lock) (hfile : t.file = s.file) :
    phase.Sound hash t r ↔ phase.Sound hash s r := by
  unfold Phase.Sound
  rw [hlock, hfile]

/-- A step of one run, from what it does to that run and to the log. -/
theorem Invariant.setRun (h : Invariant hash s) (hlocal : Local s u r)
    (hrun : run.Sound hash u r)
    (hsaved : ∀ r before after, .saved r before after ∈ u.log → AppliedTo before after)
    (hunlocked : ∀ r owner, .unlocked r owner ∈ u.log → owner = r) :
    Invariant hash (u.setRun r run) where
  runs r' run' hr' := by
    rcases (put_eq_some_iff _ _).mp hr' with ⟨rfl, rfl⟩ | ⟨hne, hr'⟩
    · exact ⟨(Phase.sound_congr rfl rfl).mpr hrun.phase, hrun.shutdowns, hrun.exited⟩
    · have hold : run'.Sound hash s r' := h.runs r' run' (hlocal.runs ▸ hr')
      have hphase : run'.phase.Sound hash u r' := hold.phase.other hne hlocal
      exact ⟨(Phase.sound_congr rfl rfl).mpr hphase, hold.shutdowns, hold.exited⟩
  owner r' hr' := by
    by_cases hne : r' = r
    · simp [System.setRun, hne] at hr'
    · have hnone : s.runs r' = none := by
        rw [← hlocal.runs]; simpa [System.setRun, put_of_ne _ _ _ hne] using hr'
      exact fun hl => h.owner r' hnone ((hlocal.lock r' hne).mp hl)
  saved := hsaved
  unlocked := hunlocked

/-- A run that goes to another phase and leaves the lock and the file. -/
theorem Invariant.setPhase (h : Invariant hash s) (hr : s.runs r = some run)
    (halive : run.exited = false) (hphase : phase.Sound hash s r)
    (hdone : run.phase.done → phase.done) : Invariant hash (s.setRun r { run with phase }) :=
  h.setRun .refl
    ⟨hphase, fun ht => hdone ((h.runs r run hr).shutdowns ht), fun he => by simp [halive] at he⟩
    h.saved h.unlocked

theorem alive_eq_some {f : Run V Checksum → Option (System V Checksum)}
    (h : s.alive r f = some t) :
    ∃ run, s.runs r = some run ∧ run.exited = false ∧ f run = some t := by
  obtain ⟨run, hr, h⟩ := Option.bind_eq_some_iff.mp h
  by_cases hexited : run.exited = true
  · simp [hexited] at h
  · rw [if_neg hexited] at h
    exact ⟨run, hr, Bool.eq_false_iff.mpr hexited, h⟩

/-- A step that is a new phase, from what the phases may be. -/
theorem Invariant.move (h : Invariant hash s) {f : Phase V Checksum → Option (Phase V Checksum)}
    (hstep : s.move r f = some t)
    (hf : ∀ old new, f old = some new → old.Sound hash s r →
      new.Sound hash s r ∧ (old.done → new.done)) : Invariant hash t := by
  obtain ⟨run, hr, halive, hstep⟩ := alive_eq_some hstep
  obtain ⟨phase, hphase, rfl⟩ := Option.map_eq_some_iff.mp hstep
  obtain ⟨hsound, hdone⟩ := hf _ _ hphase (h.runs r run hr).phase
  exact h.setPhase hr halive hsound hdone

theorem local_deleteLock : Local s (s.deleteLock r) r := by
  unfold System.deleteLock
  cases hl : s.lock with
  | none => exact .refl
  | some owner =>
    by_cases ho : owner = r
    · simp only [ho, if_true]
      exact ⟨rfl, fun r' hne => by simp [hl, ho, Ne.symm hne], fun _ => rfl⟩
    · simp only [if_neg ho]
      exact .refl

theorem lock_deleteLock : (s.deleteLock r).lock ≠ some r := by
  unfold System.deleteLock
  cases hl : s.lock with
  | none => simp [hl]
  | some owner =>
    by_cases ho : owner = r
    · simp [ho]
    · simp [ho, hl]

theorem mem_log_deleteLock {entry : Entry V} (h : entry ∈ (s.deleteLock r).log) :
    entry ∈ s.log ∨ entry = .unlocked r r := by
  unfold System.deleteLock at h
  cases hl : s.lock with
  | none => rw [hl] at h; exact .inl h
  | some owner =>
    by_cases ho : owner = r
    · simp only [hl, ho, if_true, List.mem_cons] at h
      exact h.symm
    · simp only [hl, if_neg ho] at h
      exact .inl h

/-- A release that takes effect, and what it makes of its run. -/
theorem Invariant.deleteLock (h : Invariant hash s) (hrun : run.Sound hash (s.deleteLock r) r) :
    Invariant hash ((s.deleteLock r).setRun r run) := by
  refine h.setRun local_deleteLock hrun (fun r' before after hmem => ?_)
    fun r' owner hmem => ?_
  · rcases mem_log_deleteLock hmem with hmem | heq
    · exact h.saved r' before after hmem
    · cases heq
  · rcases mem_log_deleteLock hmem with hmem | heq
    · exact h.unlocked r' owner hmem
    · cases heq; rfl

/-- A run whose callback is over needs no lock. -/
theorem Phase.Sound.of_done (h : phase.Sound hash s r) (hdone : phase.done)
    (hlock : t.lock ≠ some r) : phase.Sound hash t r := by
  cases phase with
  | acquiring plan lock =>
    cases lock with
    | none => simp [Phase.done] at hdone
    | some taken =>
      cases taken with
      | false => exact hlock
      | true => simp [Phase.done] at hdone
  | releasing released =>
    cases released with
    | false => trivial
    | true => exact hlock
  | ended => exact hlock
  | _ => simp [Phase.done] at hdone

theorem loadState_state (digest : Contents V → Checksum) (file : Option (Contents V)) :
    (loadState digest file).state = (loadState id file).state := by
  cases file <;> rfl

/-- A save writes what was made from the file as it stands. -/
theorem appliedTo_of_sound {plan : DeployPlan V Checksum} {contents : Contents V}
    (h : (Phase.saving plan contents false).Sound hash s r) : AppliedTo s.file contents := by
  obtain ⟨-, hloaded, events, happly⟩ := h
  refine ⟨plan.command, plan.options, events, ?_⟩
  rw [← loadState_state hash, ← hloaded]
  exact happly

/-- The checksums tell the files apart. -/
theorem loadState_injective (hhash : Function.Injective hash) {file other : Option (Contents V)}
    (h : (loadState hash file).checksum = (loadState hash other).checksum) : file = other := by
  cases file <;> cases other <;> simp [loadState, unpackState] at h ⊢
  exact hhash h

theorem Invariant.start (h : Invariant hash s) (hnone : s.runs r = none) :
    Invariant hash (s.setRun r {}) :=
  h.setRun .refl ⟨h.owner r hnone, by simp, by simp⟩ h.saved h.unlocked

theorem isDone_iff (hr : s.runs r = some run) :
    s.isDone r = true ↔ run.phase.done = true := by
  simp [System.isDone, hr]

/-- A run that exits once its callback is over. -/
theorem Invariant.exit (h : Invariant hash s) (hr : s.runs r = some run)
    (hdone : run.phase.done) : Invariant hash (s.setRun r { run with exited := true }) :=
  h.setRun .refl ⟨(h.runs r run hr).phase, (h.runs r run hr).shutdowns, fun _ => .inr hdone⟩
    h.saved h.unlocked

end Kept

section Steps

variable [DecidableEq Checksum] {hash : Contents V → Checksum} {s t : System V Checksum}
  {r i : Nat} {plan : DeployPlan V Checksum}

theorem sound_checkState (hhash : Function.Injective hash)
    (h : (Phase.checking plan).Sound hash s r) :
    (s.checkState hash plan).Sound hash s r ∧
      ((Phase.checking plan).done → (s.checkState hash plan).done) := by
  obtain ⟨hlock, file, hloaded⟩ := h
  unfold System.checkState
  by_cases hc : (loadState hash s.file).checksum = plan.loaded.checksum
  · rw [if_pos hc]
    have hfile : s.file = file := loadState_injective hhash (hloaded ▸ hc)
    exact ⟨⟨hlock, hfile ▸ hloaded⟩, by simp [Phase.done]⟩
  · rw [if_neg hc]
    exact ⟨trivial, by simp [Phase.done]⟩

theorem Invariant.lockTakesEffect (h : Invariant hash s)
    (hstep : s.step hash (.lockTakesEffect r) = some t) : Invariant hash t := by
  obtain ⟨run, hr, hstep⟩ := Option.bind_eq_some_iff.mp hstep
  have hrun : run.Sound hash s r := h.runs r run hr
  have hphase := hrun.phase
  have hshutdowns := hrun.shutdowns
  have hexited := hrun.exited
  cases hp : run.phase with
  | acquiring plan lock =>
    cases lock with
    | some taken => simp [hp] at hstep
    | none =>
      rw [hp] at hphase hshutdowns hexited
      simp only [hp, Option.some.injEq] at hstep
      subst hstep
      have hopen : ¬ run.exited = true := fun he => by simpa [Phase.early, Phase.done] using hexited he
      have hsent : ¬ true ∈ run.shutdowns := fun hs => by simpa [Phase.done] using hshutdowns hs
      cases hl : s.lock with
      | none =>
        simp only [System.putLock, hl]
        exact h.setRun ⟨rfl, fun r' hne => by simp [hl, Ne.symm hne], fun _ => rfl⟩
          ⟨⟨rfl, hphase.2⟩, fun hs => absurd hs hsent, fun he => absurd he hopen⟩ h.saved h.unlocked
      | some owner =>
        simp only [System.putLock, hl]
        exact h.setRun .refl
          ⟨hphase.1, fun hs => absurd hs hsent, fun he => absurd he hopen⟩ h.saved h.unlocked
  | _ => simp [hp] at hstep

theorem Invariant.saveTakesEffect (h : Invariant hash s)
    (hstep : s.step hash (.saveTakesEffect r) = some t) : Invariant hash t := by
  obtain ⟨run, hr, hstep⟩ := Option.bind_eq_some_iff.mp hstep
  have hrun : run.Sound hash s r := h.runs r run hr
  have hphase := hrun.phase
  have hshutdowns := hrun.shutdowns
  have hexited := hrun.exited
  cases hp : run.phase with
  | saving plan contents written =>
    cases written with
    | true => simp [hp] at hstep
    | false =>
      rw [hp] at hphase hshutdowns hexited
      simp only [hp, Option.some.injEq] at hstep
      subst hstep
      have hopen : ¬ run.exited = true := fun he => by simpa [Phase.early, Phase.done] using hexited he
      have hsent : ¬ true ∈ run.shutdowns := fun hs => by simpa [Phase.done] using hshutdowns hs
      refine h.setRun ⟨rfl, fun _ _ => Iff.rfl, fun hl => absurd hphase.1 hl⟩
        ⟨hphase.1, fun hs => absurd hs hsent, fun he => absurd he hopen⟩
        (fun r' before after hmem => ?_) fun r' owner hmem => ?_
      · rcases List.mem_cons.mp hmem with heq | hmem
        · cases heq
          exact appliedTo_of_sound hphase
        · exact h.saved r' before after hmem
      · exact h.unlocked r' owner (by simpa [System.writeFile] using hmem)
  | _ => simp [hp] at hstep

theorem Invariant.releaseTakesEffect (h : Invariant hash s)
    (hstep : s.step hash (.releaseTakesEffect r) = some t) : Invariant hash t := by
  obtain ⟨run, hr, hstep⟩ := Option.bind_eq_some_iff.mp hstep
  cases hp : run.phase with
  | releasing released =>
    cases released with
    | true => simp [hp] at hstep
    | false =>
      simp only [hp, Option.some.injEq] at hstep
      subst hstep
      exact h.deleteLock ⟨lock_deleteLock, fun _ => rfl, fun _ => .inr rfl⟩
  | _ => simp [hp] at hstep

theorem Invariant.signal (h : Invariant hash s) (hstep : s.step hash (.signal r) = some t) :
    Invariant hash t := by
  obtain ⟨run, hr, halive, hstep⟩ := alive_eq_some hstep
  have hrun : run.Sound hash s r := h.runs r run hr
  by_cases hsig : run.phase.handlesSignals = true
  · rw [if_pos hsig, Option.some.injEq] at hstep
    subst hstep
    exact h.setRun .refl ⟨hrun.phase, fun hs => hrun.shutdowns (by simpa using hs), hrun.exited⟩
      h.saved h.unlocked
  · rw [if_neg hsig, Option.some.injEq] at hstep
    subst hstep
    refine h.setRun .refl ⟨hrun.phase, hrun.shutdowns, fun _ => ?_⟩ h.saved h.unlocked
    cases hp : run.phase <;> simp [hp, Phase.handlesSignals, Phase.early, Phase.done] at hsig ⊢

theorem Invariant.shutdownTakesEffect (h : Invariant hash s) (hok : s.isDone r)
    (hstep : s.step hash (.shutdownTakesEffect r i) = some t) : Invariant hash t := by
  obtain ⟨run, hr, hstep⟩ := Option.bind_eq_some_iff.mp hstep
  have hrun : run.Sound hash s r := h.runs r run hr
  have hdone : run.phase.done = true := (isDone_iff hr).mp hok
  by_cases hi : run.shutdowns[i]? = some false
  · rw [if_pos hi, Option.some.injEq] at hstep
    subst hstep
    exact h.deleteLock
      ⟨hrun.phase.of_done hdone lock_deleteLock, fun _ => hdone, fun _ => .inr hdone⟩
  · simp [hi] at hstep

/-- One case for each kind of event. -/
theorem Invariant.step (h : Invariant hash s) (hhash : Function.Injective hash) {event : Event V}
    (hok : s.Orderly event) (hstep : s.step hash event = some t) : Invariant hash t := by
  cases event with
  | start r =>
    cases hr : s.runs r with
    | some run => simp [System.step, hr] at hstep
    | none =>
      simp only [System.step, hr, Option.isSome, Bool.false_eq_true, if_false,
        Option.some.injEq] at hstep
      exact hstep ▸ h.start hr
  | loads r =>
    simp only [System.step] at hstep
    refine h.move hstep fun old new hf hold => ?_
    cases old with
    | loading => cases hf; exact ⟨⟨hold, s.file, rfl⟩, by simp [Phase.done]⟩
    | _ => cases hf
  | abandons r =>
    simp only [System.step] at hstep
    refine h.move hstep fun old new hf hold => ?_
    cases old with
    | loading => cases hf; exact ⟨hold, fun _ => rfl⟩
    | ready loaded => cases hf; exact ⟨hold.1, fun _ => rfl⟩
    | _ => cases hf
  | proceeds r command options =>
    simp only [System.step] at hstep
    refine h.move hstep fun old new hf hold => ?_
    cases old with
    | ready loaded => cases hf; exact ⟨hold, by simp [Phase.done]⟩
    | _ => cases hf
  | lockTakesEffect r => exact h.lockTakesEffect hstep
  | lockAnswered r =>
    simp only [System.step] at hstep
    refine h.move hstep fun old new hf hold => ?_
    cases old with
    | acquiring plan lock =>
      cases lock with
      | none => cases hf
      | some taken =>
        cases taken with
        | true => cases hf; exact ⟨hold, by simp [Phase.done]⟩
        | false => cases hf; exact ⟨hold, fun _ => rfl⟩
    | _ => cases hf
  | lockFails r =>
    simp only [System.step] at hstep
    refine h.move hstep fun old new hf _ => ?_
    cases old with
    | acquiring plan lock => cases hf; exact ⟨hok, fun _ => rfl⟩
    | _ => cases hf
  | checks r =>
    simp only [System.step] at hstep
    refine h.move hstep fun old new hf hold => ?_
    cases old with
    | checking plan => cases hf; exact sound_checkState hhash hold
    | _ => cases hf
  | callbackThrows r =>
    simp only [System.step] at hstep
    refine h.move hstep fun old new hf _ => ?_
    cases old with
    | checking plan | applying plan => cases hf; exact ⟨trivial, fun _ => rfl⟩
    | _ => cases hf
  | applies r events now =>
    simp only [System.step] at hstep
    refine h.move hstep fun old new hf hold => ?_
    cases old with
    | applying plan =>
      obtain ⟨result, happly, rfl⟩ := Option.map_eq_some_iff.mp hf
      exact ⟨⟨hold.1, hold.2, events, happly⟩, by simp [Phase.done]⟩
    | _ => cases hf
  | saveTakesEffect r => exact h.saveTakesEffect hstep
  | saveAnswered r =>
    simp only [System.step] at hstep
    refine h.move hstep fun old new hf _ => ?_
    cases old with
    | saving plan contents written =>
      cases written <;> cases hf
      exact ⟨trivial, fun _ => rfl⟩
    | _ => cases hf
  | saveFails r =>
    simp only [System.step] at hstep
    refine h.move hstep fun old new hf _ => ?_
    cases old with
    | saving plan contents written => cases hf; exact ⟨trivial, fun _ => rfl⟩
    | _ => cases hf
  | releaseTakesEffect r => exact h.releaseTakesEffect hstep
  | releaseAnswered r =>
    simp only [System.step] at hstep
    refine h.move hstep fun old new hf hold => ?_
    cases old with
    | releasing released =>
      cases released <;> cases hf
      exact ⟨hold, fun _ => rfl⟩
    | _ => cases hf
  | releaseFails r =>
    simp only [System.step] at hstep
    refine h.move hstep fun old new hf _ => ?_
    cases old with
    | releasing released => cases hf; exact ⟨hok, fun _ => rfl⟩
    | _ => cases hf
  | signal r => exact h.signal hstep
  | shutdownTakesEffect r i => exact h.shutdownTakesEffect hok hstep
  | shutdownAnswered r i =>
    obtain ⟨run, hr, -, hstep⟩ := alive_eq_some hstep
    by_cases hi : run.shutdowns[i]? = some true
    · rw [if_pos hi, Option.some.injEq] at hstep
      have hmem : true ∈ run.shutdowns := List.mem_of_getElem? hi
      exact hstep ▸ h.exit hr ((h.runs r run hr).shutdowns hmem)
    · simp [hi] at hstep
  | shutdownFails r i =>
    obtain ⟨run, hr, -, hstep⟩ := alive_eq_some hstep
    by_cases hi : i < run.shutdowns.length
    · rw [if_pos hi, Option.some.injEq] at hstep
      exact hstep ▸ h.exit hr ((isDone_iff hr).mp hok.1)
    · simp [hi] at hstep

omit [DecidableEq Checksum] in
theorem invariant_init (file : Option (Contents V)) :
    Invariant hash ({ file } : System V Checksum) where
  runs _ _ h := by cases h
  owner _ _ := by simp
  saved := by simp
  unlocked := by simp

omit [DecidableEq Checksum] in
theorem Run.Sound.not_locked {run : Run V Checksum} (h : run.Sound hash s r) (hover : run.over)
    (hsettled : run.settled) : s.lock ≠ some r := by
  have hphase := h.phase
  have hexited := h.exited
  unfold Run.over at hover
  unfold Run.settled at hsettled
  cases hp : run.phase with
  | loading | ended => rw [hp] at hphase; exact hphase
  | ready loaded => rw [hp] at hphase; exact hphase.1
  | acquiring plan lock =>
    cases lock with
    | none => rw [hp] at hphase; exact hphase.1
    | some taken =>
      cases taken with
      | false => rw [hp] at hphase; exact hphase
      | true => simp_all [Phase.early, Phase.done]
  | releasing released =>
    cases released with
    | false => simp [hp] at hsettled
    | true => rw [hp] at hphase; exact hphase
  | checking plan | applying plan | saving plan contents written =>
    simp_all [Phase.early, Phase.done]

omit [DecidableEq Checksum] in
theorem Invariant.safe (h : Invariant hash s) : s.Safe where
  exclusive r r' hr hr' := by
    obtain ⟨run, hrun, hin⟩ := hr
    obtain ⟨run', hrun', hin'⟩ := hr'
    have hlock : s.lock = some r := (h.runs r run hrun).phase.lock hin
    exact Option.some.inj (hlock.symm.trans ((h.runs r' run' hrun').phase.lock hin'))
  saved := h.saved
  unlocked := h.unlocked
  released r run hr hover hsettled := (h.runs r run hr).not_locked hover hsettled

end Steps

namespace Sample

def options : ApplyOptions Nat := { handlers := fun _ => none }

/-- A run up to its callback. -/
def locked (r : Nat) : List (Event Nat) :=
  [.start r, .loads r, .proceeds r .destroy options, .lockTakesEffect r, .lockAnswered r]

/-- A signal during the release. -/
def finished : List (Event Nat) :=
  locked 0 ++ [.checks 0, .applies 0 [] 5, .saveTakesEffect 0, .saveAnswered 0, .signal 0,
    .releaseTakesEffect 0, .shutdownTakesEffect 0 0, .shutdownAnswered 0 0] ++ locked 1

/-- A signal while a run applies: its lock is released and the run goes on. -/
def interrupted : List (Event Nat) :=
  locked 0 ++ [.checks 0, .signal 0, .shutdownTakesEffect 0 0] ++ locked 1

end Sample

end Ez4.Project.Deploy

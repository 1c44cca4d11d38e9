import Ez4.Agent.WorkspaceLock

/-! # One holder of a workspace lock

The calls that hold the lock are those between their `mkdir` and the end of
their release. No other one removes their directory in a run where every holder
is in time, and a stale lock is taken over as it was found. -/
namespace Ez4.Agent.WorkspaceLock
open Ez4.Library

variable {s t : System} {c m : Nat} {call : Call} {lock : Option LockDir} {phase : Phase}

/-! ## Holders -/

def Phase.holds : Phase → Bool
  | .made | .running _ | .ending _ | .removing .unwritten _ | .removing .release _ => true
  | _ => false

/-- It is not going to make the directory any more. -/
def Phase.isPast : Phase → Bool
  | .done | .failed => true
  | phase => phase.holds

theorem Phase.isPast_of_holds (h : phase.holds = true) : phase.isPast = true := by
  cases phase <;> first | rfl | exact h

namespace System

def Holds (s : System) (c : Nat) : Prop :=
  ∃ call, s.calls c = some call ∧ call.alive = true ∧ call.phase.holds = true

/-- The function of the call is running. -/
def Runs (s : System) (c : Nat) : Prop :=
  ∃ call, s.calls c = some call ∧ call.alive = true ∧ ∃ beat, call.phase = .running beat

def IsPast (s : System) (c : Nat) : Prop := ∃ call, s.calls c = some call ∧ call.phase.isPast = true

theorem Runs.holds (h : s.Runs c) : s.Holds c := by
  obtain ⟨call, hc, ha, beat, hphase⟩ := h
  exact ⟨call, hc, ha, by rw [hphase]; rfl⟩

/-- A live holder is in time: its lock is not stale. -/
def IsFresh (s : System) : Prop :=
  ∀ d, s.lock = some d → s.Holds d.madeBy → s.now ≤ d.stamp + staleMs

/-- The lock that a call takes over is as it was found: the one that was found stale, and not
touched since it was read. -/
def IsAsFound (s : System) : Phase → Prop
  | .judging mtime madeBy => ∀ d, s.lock = some d → d.madeBy = madeBy → d.stamp = mtime
  | .removing (.stale madeBy) _ => ∀ d, s.lock = some d → d.madeBy = madeBy
  | _ => True

def Orderly (s : System) : Event → Prop
  | .acts c => s.IsFresh ∧ ∀ call, s.calls c = some call → s.IsAsFound call.phase
  | _ => True

/-- No lock is removed that another live call holds. -/
def RemovesNoHeld (s : System) : Event → Prop
  | .acts c => ∀ call why emptied d, s.calls c = some call → call.alive = true →
    call.phase = .removing why emptied → s.lock = some d → d.madeBy = c ∨ ¬ s.Holds d.madeBy
  | _ => True

end System

/-! ## The invariant -/

structure Sound (s : System) : Prop where
  held : ∀ c, s.Holds c → ∃ d, s.lock = some d ∧ d.madeBy = c
  maker : ∀ d, s.lock = some d → s.IsPast d.madeBy
  read : ∀ c call mtime m, s.calls c = some call → call.phase = .judging mtime m → s.IsPast m
  /-- A lock that was found stale had no live holder, and has none later. -/
  stale : ∀ c call m emptied, s.calls c = some call → call.phase = .removing (.stale m) emptied →
    s.IsPast m ∧ ¬ s.Holds m

theorem Sound.unique {c' : Nat} (h : Sound s) (hc : s.Holds c) (hc' : s.Holds c') : c = c' := by
  obtain ⟨d, hd, rfl⟩ := h.held c hc
  obtain ⟨d', hd', rfl⟩ := h.held c' hc'
  rw [hd] at hd'
  rw [Option.some.inj hd']

/-- The system after a call went on. -/
def System.went (s : System) (c : Nat) (call : Call) (lock : Option LockDir)
    (phase : Phase) : System :=
  { s with lock }.setCall c { call with phase }

theorem calls_went {m : Nat} : (s.went c call lock phase).calls m =
    if m = c then some { call with phase } else s.calls m := rfl

theorem isPast_went (hc : s.calls c = some call)
    (hpast : call.phase.isPast = true → phase.isPast = true)
    (h : s.IsPast m) : (s.went c call lock phase).IsPast m := by
  obtain ⟨other, hm, hother⟩ := h
  by_cases hmc : m = c
  · rw [hmc, hc] at hm
    obtain rfl := Option.some.inj hm
    exact ⟨_, by rw [calls_went, if_pos hmc], hpast hother⟩
  · exact ⟨other, by rw [calls_went, if_neg hmc, hm], hother⟩

theorem holds_went (h : (s.went c call lock phase).Holds m) :
    (m = c ∧ phase.holds = true) ∨ (m ≠ c ∧ s.Holds m) := by
  obtain ⟨other, hm, ha, hother⟩ := h
  rw [calls_went] at hm
  split at hm
  · next hmc =>
    obtain rfl := Option.some.inj hm
    exact .inl ⟨hmc, hother⟩
  · next hmc => exact .inr ⟨hmc, other, hm, ha, hother⟩

/-- What a call that goes on may come to. -/
structure Moves (s : System) (call : Call) (phase : Phase) : Prop where
  past : call.phase.isPast = true → phase.isPast = true
  read : ∀ mtime m, phase = .judging mtime m → s.IsPast m
  stale : ∀ m emptied, phase = .removing (.stale m) emptied → s.IsPast m ∧ ¬ s.Holds m

/-- What a step leaves as it was, whatever it does to the lock. -/
theorem Sound.went (h : Sound s) (hc : s.calls c = some call) (hmoves : Moves s call phase)
    (hheld : ∀ m, (s.went c call lock phase).Holds m → ∃ d, lock = some d ∧ d.madeBy = m)
    (hmaker : ∀ d, lock = some d → (s.went c call lock phase).IsPast d.madeBy)
    (hnew : ∀ m, s.IsPast m → (s.went c call lock phase).Holds m → s.Holds m) :
    Sound (s.went c call lock phase) where
  held := hheld
  maker := hmaker
  read c' other mtime m hc' hphase := by
    rw [calls_went] at hc'
    split at hc'
    · obtain rfl := Option.some.inj hc'
      exact isPast_went hc hmoves.past (hmoves.read mtime m hphase)
    · exact isPast_went hc hmoves.past (h.read c' other mtime m hc' hphase)
  stale c' other m emptied hc' hphase := by
    have hboth : s.IsPast m ∧ ¬ s.Holds m := by
      rw [calls_went] at hc'
      split at hc'
      · obtain rfl := Option.some.inj hc'
        exact hmoves.stale m emptied hphase
      · exact h.stale c' other m emptied hc' hphase
    exact ⟨isPast_went hc hmoves.past hboth.1, fun hm => hboth.2 (hnew m hboth.1 hm)⟩

/-- A step that keeps the lock, or only what is in it. -/
theorem Sound.keep (h : Sound s) (hc : s.calls c = some call) (ha : call.alive = true)
    (hlock : lock.map LockDir.madeBy = s.lock.map LockDir.madeBy)
    (hholds : phase.holds = true → call.phase.holds = true) (hmoves : Moves s call phase) :
    Sound (s.went c call lock phase) := by
  have hbefore : ∀ m, (s.went c call lock phase).Holds m → s.Holds m := fun m hm => by
    rcases holds_went hm with ⟨rfl, hphase⟩ | ⟨-, hm⟩
    · exact ⟨call, hc, ha, hholds hphase⟩
    · exact hm
  refine h.went hc hmoves (fun m hm => ?_) (fun d hd => ?_) fun m _ => hbefore m
  · obtain ⟨d, hd, hmade⟩ := h.held m (hbefore m hm)
    rw [hd] at hlock
    obtain ⟨d', hd', hsame⟩ := Option.map_eq_some_iff.mp hlock
    exact ⟨d', hd', hsame.trans hmade⟩
  · rw [hd] at hlock
    obtain ⟨d', hd', hsame⟩ := Option.map_eq_some_iff.mp hlock.symm
    exact isPast_went hc hmoves.past (hsame ▸ h.maker d' hd')

/-- `mkdir` makes the directory. -/
theorem Sound.make (h : Sound s) (hc : s.calls c = some call) (hphase : call.phase = .trying)
    (hnone : s.lock = none) :
    Sound (s.went c call (some { madeBy := c, mtime := s.now }) .made) := by
  have hpast : call.phase.isPast = true → Phase.made.isPast = true := fun _ => rfl
  refine h.went hc ⟨hpast, by simp, by simp⟩ (fun m hm => ?_)
    (fun d hd => ?_) fun m hm hnew => ?_
  · rcases holds_went hm with ⟨rfl, -⟩ | ⟨-, hm⟩
    · exact ⟨_, rfl, rfl⟩
    · obtain ⟨d, hd, -⟩ := h.held m hm
      rw [hnone] at hd
      cases hd
  · obtain rfl := Option.some.inj hd
    exact ⟨{ call with phase := .made }, by rw [calls_went, if_pos rfl], rfl⟩
  · rcases holds_went hnew with ⟨rfl, -⟩ | ⟨-, hm⟩
    · obtain ⟨other, hother, hisPast⟩ := hm
      rw [hc] at hother
      obtain rfl := Option.some.inj hother
      rw [hphase] at hisPast
      cases hisPast
    · exact hm

/-- `rmdir` removes a directory that no other call holds. -/
theorem Sound.remove (h : Sound s) (hc : s.calls c = some call)
    (hothers : ∀ m, m ≠ c → ¬ s.Holds m) (hholds : phase.holds = false)
    (hmoves : Moves s call phase) :
    Sound (s.went c call none phase) := by
  have hnone : ∀ m, ¬ (s.went c call none phase).Holds m := fun m hm => by
    rcases holds_went hm with ⟨-, hphase⟩ | ⟨hne, hm⟩
    · rw [hholds] at hphase
      cases hphase
    · exact hothers m hne hm
  exact h.went hc hmoves (fun m hm => absurd hm (hnone m)) (fun d hd => by cases hd)
    fun m _ hm => absurd hm (hnone m)

/-! ## Steps -/

theorem move_eq_some {f : Call → Option (Option LockDir × Phase)} (h : s.move c f = some t) :
    ∃ call lock phase, s.calls c = some call ∧ call.alive = true ∧ f call = some (lock, phase) ∧
      t = s.went c call lock phase := by
  obtain ⟨call, hc, h⟩ := Option.bind_eq_some_iff.mp h
  cases ha : call.alive with
  | false =>
    rw [ha] at h
    cases h
  | true =>
    rw [ha, if_pos rfl] at h
    obtain ⟨⟨lock, phase⟩, hf, rfl⟩ := Option.map_eq_some_iff.mp h
    exact ⟨call, lock, phase, hc, ha, hf, rfl⟩

@[simp] theorem madeBy_unlinkOwner (d : LockDir) (now : Nat) :
    (d.unlinkOwner now).madeBy = d.madeBy := by
  rw [LockDir.unlinkOwner]
  split <;> rfl

theorem map_madeBy_unlinkOwner (now : Nat) (lock : Option LockDir) :
    (lock.map (·.unlinkOwner now)).map LockDir.madeBy = lock.map LockDir.madeBy := by
  cases lock <;> simp

/-- A live call whose lock is there was found stale only if it is late. -/
theorem not_holds_of_stale (hfresh : s.IsFresh)
    (hheld : ∀ c, s.Holds c → ∃ d, s.lock = some d ∧ d.madeBy = c)
    {mtime m : Nat} (hfound : s.IsAsFound (.judging mtime m)) (hlate : staleMs < s.now - mtime) :
    ¬ s.Holds m := by
  intro hm
  obtain ⟨d, hd, rfl⟩ := hheld m hm
  have hstamp := hfound d hd rfl
  have hnow := hfresh d hd hm
  omega

/-- No other call holds the lock that a call is removing. -/
theorem not_holds_of_removing (h : Sound s) (hc : s.calls c = some call) (ha : call.alive = true)
    {why : Removal} {emptied : Bool} (hphase : call.phase = .removing why emptied)
    (hfound : s.IsAsFound call.phase) {d : LockDir} (hd : s.lock = some d) :
    d.madeBy = c ∨ ¬ s.Holds d.madeBy := by
  cases why with
  | stale m =>
    rw [hphase] at hfound
    rw [hfound d hd]
    exact .inr (h.stale c call m emptied hc hphase).2
  | unwritten | release =>
    obtain ⟨d', hd', hmade⟩ := h.held c ⟨call, hc, ha, by rw [hphase]; rfl⟩
    rw [hd] at hd'
    obtain rfl := Option.some.inj hd'
    exact .inl hmade

/-- A call that neither holds the lock nor finds anything goes on. -/
theorem Sound.goOn (h : Sound s) (hc : s.calls c = some call) (ha : call.alive = true)
    (hpast : call.phase.isPast = false) (hholds : phase.holds = false)
    (hread : ∀ mtime m, phase = .judging mtime m → s.IsPast m)
    (hstale : ∀ m emptied, phase ≠ .removing (.stale m) emptied) :
    Sound (s.went c call s.lock phase) := by
  refine h.keep hc ha rfl (fun hphase => ?_) ⟨fun hphase => ?_, hread, fun m emptied h => ?_⟩
  · rw [hholds] at hphase
    cases hphase
  · rw [hpast] at hphase
    cases hphase
  · exact absurd h (hstale m emptied)

theorem Sound.remove_act (h : Sound s) (hc : s.calls c = some call) (ha : call.alive = true)
    {why : Removal} {emptied : Bool} (hphase : call.phase = .removing why emptied)
    (hfound : s.IsAsFound call.phase) (hact : s.act c call = some (lock, phase)) :
    Sound (s.went c call lock phase) := by
  have hlock := fun d => @not_holds_of_removing s c call h hc ha why emptied hphase hfound d
  have hothers : ∀ m, m ≠ c → ¬ s.Holds m := by
    intro m hne hm
    obtain ⟨d, hd, rfl⟩ := h.held m hm
    exact (hlock d hd).elim hne fun hnot => hnot hm
  cases emptied with
  | false =>
    simp only [System.act, hphase] at hact
    cases hact
    refine h.keep hc ha (map_madeBy_unlinkOwner s.now s.lock) (fun hholds => ?_)
      ⟨fun hpast => ?_, by simp, fun m emptied hstale => ?_⟩
    · rw [hphase]
      cases why <;> exact hholds
    · rw [hphase] at hpast
      cases why <;> exact hpast
    · obtain ⟨rfl, -⟩ := Phase.removing.inj hstale
      exact h.stale c call m false hc hphase
  | true =>
    simp only [System.act, hphase] at hact
    split at hact
    · cases hact
      exact h.keep hc ha rfl (by simp [Phase.holds]) ⟨fun _ => rfl, by simp, by simp⟩
    · cases hact
      have hafter : why.after.holds = false := by cases why <;> rfl
      refine h.remove hc hothers hafter ⟨fun hpast => ?_, fun mtime m hread => ?_,
        fun m emptied hstale => ?_⟩
      · rw [hphase] at hpast
        cases why with
        | stale _ => cases hpast
        | unwritten | release => rfl
      · cases why <;> cases hread
      · cases why <;> cases hstale

theorem Sound.act (h : Sound s) (hc : s.calls c = some call) (ha : call.alive = true)
    (hfresh : s.IsFresh) (hfound : s.IsAsFound call.phase)
    (hact : s.act c call = some (lock, phase)) :
    Sound (s.went c call lock phase) := by
  cases hphase : call.phase with
  | trying =>
    simp only [System.act, hphase] at hact
    split at hact
    · next hnone =>
      cases hact
      exact h.make hc hphase hnone
    · next d hd =>
      cases hact
      rw [← hd]
      exact h.goOn hc ha (by rw [hphase]; rfl) rfl (by simp) (by simp)
  | statOwner =>
    simp only [System.act, hphase] at hact
    split at hact
    · next file d hfile hd =>
      cases hact
      refine h.goOn hc ha (by rw [hphase]; rfl) rfl (fun mtime m hread => ?_) (by simp)
      obtain ⟨-, rfl⟩ := Phase.judging.inj hread
      exact h.maker d hd
    · cases hact
      exact h.goOn hc ha (by rw [hphase]; rfl) rfl (by simp) (by simp)
  | statLock =>
    simp only [System.act, hphase] at hact
    split at hact
    · next d hd =>
      cases hact
      rw [← hd]
      refine h.goOn hc ha (by rw [hphase]; rfl) rfl (fun mtime m hread => ?_) (by simp)
      obtain ⟨-, rfl⟩ := Phase.judging.inj hread
      exact h.maker d hd
    · next hnone =>
      cases hact
      rw [← hnone]
      exact h.goOn hc ha (by rw [hphase]; rfl) rfl (by simp) (by simp)
  | judging mtime m =>
    simp only [System.act, hphase] at hact
    split at hact
    · next hlate =>
      cases hact
      rw [hphase] at hfound
      refine h.keep hc ha rfl (by simp [Phase.holds])
        ⟨by simp [hphase, Phase.isPast, Phase.holds], by simp, fun m' emptied hstale => ?_⟩
      obtain ⟨hwhy, -⟩ := Phase.removing.inj hstale
      obtain rfl := Removal.stale.inj hwhy
      exact ⟨h.read c call mtime m hc hphase, not_holds_of_stale hfresh h.held hfound hlate⟩
    · cases hact
      exact h.goOn hc ha (by rw [hphase]; rfl) rfl (by simp) (by simp)
  | undecided =>
    simp only [System.act, hphase] at hact
    split at hact <;> cases hact <;>
      exact h.goOn hc ha (by rw [hphase]; rfl) rfl (by simp) (by simp)
  | sleeping wakes =>
    simp only [System.act, hphase] at hact
    split at hact
    · cases hact
      exact h.goOn hc ha (by rw [hphase]; rfl) rfl (by simp) (by simp)
    · cases hact
  | made =>
    obtain ⟨d, hd, -⟩ := h.held c ⟨call, hc, ha, by rw [hphase]; rfl⟩
    simp only [System.act, hphase, hd] at hact
    cases hact
    exact h.keep hc ha (by rw [hd]; rfl) (by simp [hphase, Phase.holds])
      ⟨by simp [Phase.isPast, Phase.holds], by simp, by simp⟩
  | ending beat =>
    cases beat with
    | some date =>
      simp only [System.act, hphase] at hact
      cases hact
    | none =>
      simp only [System.act, hphase] at hact
      split at hact <;> cases hact <;>
        exact h.keep hc ha rfl (by simp [hphase, Phase.holds])
          ⟨by simp [Phase.isPast, Phase.holds], by simp, by simp⟩
  | removing why emptied => exact h.remove_act hc ha hphase hfound hact
  | running _ | done | failed =>
    simp only [System.act, hphase] at hact
    cases hact

theorem Sound.beat (h : Sound s) (hc : s.calls c = some call) (ha : call.alive = true)
    (hbeat : s.beat c call.phase = some (lock, phase)) : Sound (s.went c call lock phase) := by
  have htouch : ∀ date, (s.lock.map (·.touchOwner date)).map LockDir.madeBy =
      s.lock.map LockDir.madeBy :=
    fun date => by cases s.lock <;> rfl
  have hmoves : ∀ {next : Phase}, next.holds = true → (∀ mtime m, next ≠ .judging mtime m) →
      (∀ m emptied, next ≠ .removing (.stale m) emptied) → Moves s call next :=
    fun hnext hread hstale => ⟨fun _ => Phase.isPast_of_holds hnext,
      fun mtime m h => absurd h (hread mtime m), fun m emptied h => absurd h (hstale m emptied)⟩
  cases hphase : call.phase with
  | running beat | ending beat =>
    have hholds : call.phase.holds = true := by rw [hphase]; rfl
    cases beat with
    | none =>
      simp only [System.beat, hphase] at hbeat
      cases hbeat
      exact h.keep hc ha rfl (fun _ => hholds) (hmoves rfl (by simp) (by simp))
    | some date =>
      simp only [System.beat, hphase] at hbeat
      cases hbeat
      exact h.keep hc ha (htouch date) (fun _ => hholds) (hmoves rfl (by simp) (by simp))
  | _ =>
    simp only [System.beat, hphase] at hbeat
    cases hbeat

theorem Sound.starts (h : Sound s) (hc : s.calls c = none) :
    Sound (s.setCall c { start := s.now }) := by
  have hcalls : ∀ m, (s.setCall c { start := s.now }).calls m =
      if m = c then some { start := s.now } else s.calls m := fun _ => rfl
  have hholds : ∀ m, (s.setCall c { start := s.now }).Holds m → s.Holds m := by
    rintro m ⟨other, hm, ha, hother⟩
    rw [hcalls] at hm
    split at hm
    · obtain rfl := Option.some.inj hm
      cases hother
    · exact ⟨other, hm, ha, hother⟩
  have hpast : ∀ m, s.IsPast m → (s.setCall c { start := s.now }).IsPast m := by
    rintro m ⟨other, hm, hother⟩
    refine ⟨other, ?_, hother⟩
    rw [hcalls, if_neg, hm]
    rintro rfl
    rw [hc] at hm
    cases hm
  refine ⟨fun m hm => h.held m (hholds m hm), fun d hd => hpast _ (h.maker d hd),
    fun c' call mtime m hc' hphase => ?_, fun c' call m emptied hc' hphase => ?_⟩
  · rw [hcalls] at hc'
    split at hc'
    · obtain rfl := Option.some.inj hc'
      cases hphase
    · exact hpast m (h.read c' call mtime m hc' hphase)
  · rw [hcalls] at hc'
    split at hc'
    · obtain rfl := Option.some.inj hc'
      cases hphase
    · obtain ⟨hm, hnot⟩ := h.stale c' call m emptied hc' hphase
      exact ⟨hpast m hm, fun hlater => hnot (hholds m hlater)⟩

/-- A call that died holds nothing any more. -/
theorem Sound.dies (h : Sound s) (hc : s.calls c = some call) :
    Sound (s.setCall c { call with alive := false }) := by
  have hcalls : ∀ m, (s.setCall c { call with alive := false }).calls m =
      if m = c then some { call with alive := false } else s.calls m := fun _ => rfl
  have hbefore : ∀ {m other}, (s.setCall c { call with alive := false }).calls m = some other →
      ∃ before, s.calls m = some before ∧ before.phase = other.phase ∧
        (other.alive = true → before.alive = true) := by
    intro m other hm
    rw [hcalls] at hm
    split at hm
    · next hmc =>
      obtain rfl := Option.some.inj hm
      exact ⟨call, hmc ▸ hc, rfl, by simp⟩
    · exact ⟨other, hm, rfl, id⟩
  have hholds : ∀ m, (s.setCall c { call with alive := false }).Holds m → s.Holds m := by
    rintro m ⟨other, hm, ha, hother⟩
    obtain ⟨before, hbefore, hphase, halive⟩ := hbefore hm
    exact ⟨before, hbefore, halive ha, hphase ▸ hother⟩
  have hpast : ∀ m, s.IsPast m → (s.setCall c { call with alive := false }).IsPast m := by
    rintro m ⟨other, hm, hother⟩
    by_cases hmc : m = c
    · rw [hmc, hc] at hm
      obtain rfl := Option.some.inj hm
      exact ⟨{ call with alive := false }, by rw [hcalls, if_pos hmc], hother⟩
    · exact ⟨other, by rw [hcalls, if_neg hmc, hm], hother⟩
  refine ⟨fun m hm => h.held m (hholds m hm), fun d hd => hpast _ (h.maker d hd),
    fun c' other mtime m hc' hphase => ?_, fun c' other m emptied hc' hphase => ?_⟩
  · obtain ⟨before, hbefore, hsame, -⟩ := hbefore hc'
    exact hpast m (h.read c' before mtime m hbefore (hsame.trans hphase))
  · obtain ⟨before, hbefore, hsame, -⟩ := hbefore hc'
    obtain ⟨hm, hnot⟩ := h.stale c' before m emptied hbefore (hsame.trans hphase)
    exact ⟨hpast m hm, fun hlater => hnot (hholds m hlater)⟩

theorem Sound.step (h : Sound s) {e : Event} (hok : s.Orderly e) (hstep : s.step e = some t) :
    Sound t := by
  cases e with
  | starts c =>
    simp only [System.step] at hstep
    split at hstep
    · cases hstep
    · next hnone =>
      cases hstep
      exact h.starts (by simpa using hnone)
  | acts c =>
    obtain ⟨call, lock, phase, hc, ha, hact, rfl⟩ := move_eq_some hstep
    exact h.act hc ha hok.1 (hok.2 call hc) hact
  | writeFails c =>
    obtain ⟨call, lock, phase, hc, ha, hact, rfl⟩ := move_eq_some hstep
    split at hact
    · next hphase =>
      cases hact
      exact h.keep hc ha rfl (fun _ => by rw [hphase]; rfl) ⟨fun _ => rfl, by simp, by simp⟩
    · cases hact
  | beats c =>
    obtain ⟨call, lock, phase, hc, ha, hact, rfl⟩ := move_eq_some hstep
    exact h.beat hc ha hact
  | settles c =>
    obtain ⟨call, lock, phase, hc, ha, hact, rfl⟩ := move_eq_some hstep
    split at hact
    · next hphase =>
      cases hact
      exact h.keep hc ha rfl (fun _ => by rw [hphase]; rfl) ⟨fun _ => rfl, by simp, by simp⟩
    · cases hact
  | dies c =>
    obtain ⟨call, hc, hdead⟩ := Option.bind_eq_some_iff.mp hstep
    split at hdead
    · cases hdead
      exact h.dies hc
    · cases hdead
  | ticks ms =>
    cases hstep
    exact ⟨h.held, h.maker, h.read, h.stale⟩

theorem sound_init : Sound machine.init where
  held _ h := by obtain ⟨_, h, -⟩ := h; cases h
  maker _ h := by cases h
  read _ _ _ _ h := by cases h
  stale _ _ _ _ h := by cases h

theorem Sound.removesNoHeld (h : Sound s) {e : Event} (hok : s.Orderly e) : s.RemovesNoHeld e := by
  cases e with
  | acts c =>
    intro call why emptied d hc ha hphase hd
    exact not_holds_of_removing h hc ha hphase (hok.2 call hc) hd
  | _ => trivial

/-- **A workspace lock has one holder** as long as every live holder is in time and each stale lock
is taken over as it was found: no two live calls run at once, and no call removes the lock of
another live one. -/
theorem withLock_exclusive {events : List Event}
    (hok : machine.Meets System.Orderly events machine.init)
    (h : machine.run events machine.init = some s) :
    (∀ c c', s.Runs c → s.Runs c' → c = c') ∧
      machine.Meets System.RemovesNoHeld events machine.init := by
  have hsound : Sound s := Machine.run_invariant_of_meets (fun _ _ _ hs => hs.step) sound_init hok h
  refine ⟨fun c c' hc hc' => hsound.unique hc.holds hc'.holds, ?_⟩
  exact hok.mono (fun _ _ _ hs => hs.step) (fun _ _ hs => hs.removesNoHeld) sound_init

/-! ## A run with a takeover -/

instance : Decidable (s.Holds c) :=
  decidable_of_iff ((s.calls c).any fun call => call.alive && call.phase.holds) (by
    simp [System.Holds, Option.any_eq_true])

instance : Decidable s.IsFresh :=
  inferInstanceAs (Decidable (∀ d ∈ s.lock, s.Holds d.madeBy → s.now ≤ d.stamp + staleMs))

instance : Decidable (s.IsAsFound phase) :=
  match phase with
  | .judging mtime madeBy =>
    inferInstanceAs (Decidable (∀ d ∈ s.lock, d.madeBy = madeBy → d.stamp = mtime))
  | .removing (.stale madeBy) _ => inferInstanceAs (Decidable (∀ d ∈ s.lock, d.madeBy = madeBy))
  | .trying | .statOwner | .statLock | .undecided | .sleeping _ | .made | .running _ | .ending _
  | .removing .unwritten _ | .removing .release _ | .done | .failed => .isTrue trivial

instance {e : Event} : Decidable (s.Orderly e) :=
  match e with
  | .acts c => inferInstanceAs
    (Decidable (s.IsFresh ∧ ∀ call ∈ s.calls c, s.IsAsFound call.phase))
  | .starts _ | .writeFails _ | .beats _ | .settles _ | .dies _ | .ticks _ => .isTrue trivial

/-- The first call dies in its function, and the second one waits until the lock is stale. -/
def takeover : List Event :=
  [.starts 0, .acts 0, .acts 0, .beats 0, .beats 0, .dies 0, .ticks (staleMs + 1), .starts 1,
    .acts 1, .acts 1, .acts 1, .acts 1, .acts 1, .acts 1, .acts 1]

theorem takeover_exclusive : (machine.run takeover machine.init).isSome = true ∧
    machine.Meets System.RemovesNoHeld takeover machine.init := by
  have hrun : (machine.run takeover machine.init).isSome = true := by decide
  obtain ⟨s, hs⟩ := Option.isSome_iff_exists.mp hrun
  exact ⟨hrun, (withLock_exclusive (by decide) hs).2⟩

end Ez4.Agent.WorkspaceLock

/-! ## Taking over

A call that acts alone gets the lock of a holder that died, by steps that take
it over as it was found. -/

namespace Ez4.Agent.WorkspaceLock
open Ez4.Library

variable {s t : System} {c start now m : Nat} {phase next : Phase} {lock later : Option LockDir}

/-- The call is in the given phase, and no other live call holds the lock. -/
structure Alone (s : System) (c start now : Nat) (phase : Phase)
    (lock : Option LockDir) : Prop where
  call : s.calls c = some { start, phase }
  lock : s.lock = lock
  now : s.now = now
  others : ∀ m, m ≠ c → ¬ s.Holds m

theorem Alone.step (h : Alone s c start now phase lock)
    (hact : s.act c { start, phase } = some (later, next)) :
    ∃ t, machine.step s (.acts c) = some t ∧ Alone t c start now next later := by
  refine ⟨s.went c { start, phase } later next, ?_, ?_, rfl, h.now, fun m hne hm => ?_⟩
  · change (s.calls c).bind _ = _
    rw [h.call, Option.bind_some, if_pos rfl]
    change Option.map _ (s.act c _) = _
    rw [hact]
    rfl
  · rw [calls_went, if_pos rfl]
  · rcases holds_went hm with ⟨hm, -⟩ | ⟨-, hm⟩
    · exact hne hm
    · exact h.others m hne hm

theorem Alone.orderly (h : Alone s c start now phase lock) (hholds : phase.holds = false)
    (hfound : s.IsAsFound phase) : s.Orderly (.acts c) := by
  refine ⟨fun d _ hheld => ?_, fun call hc => ?_⟩
  · by_cases hc : d.madeBy = c
    · obtain ⟨call, hcall, -, hphase⟩ := hheld
      rw [hc, h.call] at hcall
      obtain rfl := Option.some.inj hcall
      rw [hholds] at hphase
      cases hphase
    · exact absurd hheld (h.others _ hc)
  · rw [h.call] at hc
    obtain rfl := Option.some.inj hc
    exact hfound

/-- The call gets the lock by steps of its own that are in order. -/
def GetsLock (s : System) (c : Nat) : Prop :=
  ∃ events t, (∀ e ∈ events, e = .acts c) ∧ machine.Meets System.Orderly events s ∧
    machine.run events s = some t ∧ t.Holds c

theorem GetsLock.after (hok : s.Orderly (.acts c)) (hstep : machine.step s (.acts c) = some t)
    (h : GetsLock t c) : GetsLock s c := by
  obtain ⟨events, u, hall, hmeets, hrun, hheld⟩ := h
  refine ⟨.acts c :: events, u, List.forall_mem_cons.mpr ⟨rfl, hall⟩, ⟨hok, ?_⟩, ?_, hheld⟩
  · rw [hstep]
    exact hmeets
  · exact Machine.run_cons.mpr ⟨t, hstep, hrun⟩

/-- From what the next step comes to. -/
theorem Alone.getsLock (h : Alone s c start now phase lock) (hholds : phase.holds = false)
    (hfound : s.IsAsFound phase) (hact : s.act c { start, phase } = some (later, next))
    (hnext : ∀ t, Alone t c start now next later → GetsLock t c) : GetsLock s c := by
  obtain ⟨t, hstep, ht⟩ := h.step hact
  exact .after (h.orderly hholds hfound) hstep (hnext t ht)

theorem Alone.makes (h : Alone s c start now .trying none) : GetsLock s c := by
  refine h.getsLock rfl trivial (by rw [System.act, h.lock]) fun t ht => ?_
  exact ⟨[], t, by simp, trivial, rfl, { start, phase := .made }, ht.call, rfl, rfl⟩

variable {d : LockDir}

theorem Alone.removesLock (h : Alone s c start now (.removing (.stale d.madeBy) true) (some d))
    (howner : d.owner = none) : GetsLock s c := by
  refine h.getsLock rfl (fun d' hd' => ?_) (by simp [System.act, h.lock, howner, Removal.after])
    fun t ht => ht.makes
  rw [h.lock] at hd'
  rw [← Option.some.inj hd']

theorem Alone.removesOwner (h : Alone s c start now (.removing (.stale d.madeBy) false) (some d)) :
    GetsLock s c := by
  have hmade : (d.unlinkOwner s.now).madeBy = d.madeBy := madeBy_unlinkOwner d s.now
  have howner : (d.unlinkOwner s.now).owner = none := by
    rw [LockDir.unlinkOwner]
    split
    · rfl
    · next hnone => simpa using hnone
  refine h.getsLock rfl (fun d' hd' => ?_) (by rw [System.act, h.lock]) fun t ht => ?_
  · rw [h.lock] at hd'
    rw [← Option.some.inj hd']
  · rw [← hmade] at ht
    exact ht.removesLock howner

theorem Alone.judges (h : Alone s c start now (.judging d.stamp d.madeBy) (some d))
    (hlate : staleMs < now - d.stamp) : GetsLock s c := by
  refine h.getsLock rfl (fun d' hd' _ => ?_) ?_ fun t ht => @Alone.removesOwner t c start now d ht
  · rw [h.lock] at hd'
    rw [← Option.some.inj hd']
  · rw [System.act, h.now, h.lock]
    exact if_pos hlate

theorem Alone.stats (h : Alone s c start now .statOwner (some d))
    (hlate : staleMs < now - d.stamp) :
    GetsLock s c := by
  cases howner : d.owner with
  | some file =>
    have hstamp : d.stamp = file.mtime := by rw [LockDir.stamp, howner]; rfl
    refine h.getsLock rfl trivial
      (by simp only [System.act, h.lock, Option.bind_some, howner]; rfl) fun t ht => ?_
    rw [← hstamp] at ht
    exact ht.judges hlate
  | none =>
    have hstamp : d.stamp = d.mtime := by rw [LockDir.stamp, howner]; rfl
    refine h.getsLock rfl trivial
      (by simp only [System.act, h.lock, Option.bind_some, howner]; rfl) fun t ht => ?_
    refine ht.getsLock rfl trivial (by simp only [System.act, ht.lock]; rfl) fun u hu => ?_
    rw [← hstamp] at hu
    exact hu.judges hlate

/-- **A stale lock without a live holder is taken over**: a call that is about to try gets it by
acting alone. -/
theorem withLock_takes_over {events : List Event} {call : Call}
    (hok : machine.Meets System.Orderly events machine.init)
    (h : machine.run events machine.init = some s) (hc : s.calls c = some call)
    (halive : call.alive = true) (htrying : call.phase = .trying) (hd : s.lock = some d)
    (hdead : ¬ s.Holds d.madeBy) (hlate : staleMs < s.now - d.stamp) : GetsLock s c := by
  have hsound : Sound s := Machine.run_invariant_of_meets (fun _ _ _ hs => hs.step) sound_init hok h
  have hothers : ∀ m, ¬ s.Holds m := by
    intro m hm
    obtain ⟨d', hd', rfl⟩ := hsound.held m hm
    rw [hd] at hd'
    exact hdead (Option.some.inj hd' ▸ hm)
  have hcall : call = { start := call.start, phase := .trying } := by
    cases call
    simp only [Call.mk.injEq]
    exact ⟨trivial, htrying, halive⟩
  have halone : Alone s c call.start s.now .trying (some d) :=
    ⟨hcall ▸ hc, hd, rfl, fun m _ => hothers m⟩
  exact halone.getsLock rfl trivial (by rw [System.act, hd]) fun t ht => ht.stats hlate

/-- The second call has just started. -/
def waiting : System := (machine.run (takeover.take 8) machine.init).getD {}

theorem waiting_gets_lock : GetsLock waiting 1 :=
  @withLock_takes_over waiting 1
    { madeBy := 0, mtime := 0, owner := some { content := 0, mtime := 0 } } (takeover.take 8)
    { start := staleMs + 1 } (by decide) rfl rfl rfl rfl rfl (by decide) (by decide)

end Ez4.Agent.WorkspaceLock

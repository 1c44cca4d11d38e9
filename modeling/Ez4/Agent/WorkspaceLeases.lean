import Ez4.Agent.WorkspaceCache

/-! # A published ref survives for its lease

What a refresh deletes is an expired ref, as long as its lease is still as the
refresh found it and nobody is between pushing the ref and writing its lease. -/
namespace Ez4.Agent.WorkspaceCache
open Ez4.Library

variable {Name Head : Type} [DecidableEq Name] {s t : System Name Head} {i : Nat}
  {inv other : Invocation Name Head} {name : Name} {head : Head} {phase : Phase Name}
  {refs : KeyedMap (Prod.fst : Name × Head → Name)} {leases : Name → Option Nat} {locked : Bool}

/-! ## The condition -/

namespace System

/-- The ref is pushed, and its lease is not written yet. -/
def OnItsWay (s : System Name Head) (name : Name) : Prop :=
  ∃ i inv head touch, s.invocations i = some inv ∧ inv.job = .publish name head ∧
    inv.phase = .touching touch

/-- The lease is still missing or too old for the refresh. -/
def IsExpired (s : System Name Head) (refreshMs : Nat) (name : Name) : Prop :=
  ∀ mtime, s.leases name = some mtime → mtime + fourteenDaysMs < refreshMs

/-- A deletion meets the ref as it was found. -/
def IsAsFound (s : System Name Head) (inv : Invocation Name Head) : Prop :=
  ∀ name rest, inv.phase = .pruning name rest ∨ inv.phase = .dropping name rest →
    ¬ s.OnItsWay name ∧ s.IsExpired inv.refreshMs name

/-- A name is published once. -/
def Orderly (s : System Name Head) : Event Name Head → Prop
  | .starts _ (.publish name _) => ∀ j inv head, s.invocations j = some inv →
      inv.job ≠ .publish name head
  | .acts i => ∀ inv, s.invocations i = some inv → s.IsAsFound inv
  | _ => True

end System

/-! ## The invariant -/

/-- What a publication rests on: its ref, and once it has returned, a lease too. -/
def IsKept (refs : KeyedMap (Prod.fst : Name × Head → Name)) (leases : Name → Option Nat)
    (lapsed : Name → Bool) (inv : Invocation Name Head) : Prop :=
  ∀ name head, inv.job = .publish name head →
    (∀ touch, inv.phase = .touching touch → refs.get? name = some (name, head)) ∧
      (inv.phase = .done true → lapsed name = false →
        refs.get? name = some (name, head) ∧ (leases name).isSome = true)

structure Sound (s : System Name Head) : Prop where
  aged : ∀ name mtime, s.leases name = some mtime → mtime + fourteenDaysMs < s.now →
    s.lapsed name = true
  clock : ∀ i inv, s.invocations i = some inv → inv.refreshMs ≤ s.now
  once : ∀ i j inv other name head head', s.invocations i = some inv →
    s.invocations j = some other →
    inv.job = .publish name head → other.job = .publish name head' → i = j
  kept : ∀ i inv, s.invocations i = some inv → IsKept s.refs s.leases s.lapsed inv

theorem age_lapsed (name : Name) : s.age.lapsed name =
    (s.lapsed name || (s.leases name).any fun mtime =>
      decide (mtime + fourteenDaysMs < s.now)) := rfl

theorem lapsed_of_age (h : s.age.lapsed name = false) : s.lapsed name = false := by
  rw [age_lapsed, Bool.or_eq_false_iff] at h
  exact h.1

theorem lapsed_of_old {mtime : Nat} (hlease : s.leases name = some mtime)
    (hold : mtime + fourteenDaysMs < s.now) : s.age.lapsed name = true := by
  rw [age_lapsed, hlease, Option.any_some, decide_eq_true hold, Bool.or_true]

theorem IsKept.mono {lapsed lapsed' : Name → Bool} (h : IsKept refs leases lapsed inv)
    (hlapsed : ∀ name, lapsed' name = false → lapsed name = false) :
    IsKept refs leases lapsed' inv :=
  fun name head hjob => ⟨(h name head hjob).1, fun hphase hfalse =>
    (h name head hjob).2 hphase (hlapsed name hfalse)⟩

/-- The system after an invocation went on. -/
def System.went (s : System Name Head) (i : Nat) (refs : KeyedMap (Prod.fst : Name × Head → Name))
    (leases : Name → Option Nat) (locked : Bool) (inv : Invocation Name Head) : System Name Head :=
  { s with refs, leases, locked, invocations := put s.invocations i (some inv) }

/-- What a step has to leave to the other publications, and to its own. -/
theorem Sound.went (h : Sound s)
    (honce : ∀ j before name head head', j ≠ i → s.invocations j = some before →
      before.job = .publish name head → inv.job ≠ .publish name head')
    (hclock : inv.refreshMs ≤ s.now) (hown : IsKept refs leases s.lapsed inv)
    (hothers : ∀ j before, j ≠ i → s.invocations j = some before →
      IsKept refs leases s.lapsed before) :
    Sound (s.went i refs leases locked inv).age := by
  have hcases : ∀ {j found}, (s.went i refs leases locked inv).invocations j = some found →
      (j = i ∧ found = inv) ∨ (j ≠ i ∧ s.invocations j = some found) := by
    intro j found hj
    rcases (put_eq_some_iff s.invocations i).mp hj with ⟨hji, rfl⟩ | hj
    · exact .inl ⟨hji, rfl⟩
    · exact .inr hj
  refine ⟨fun name mtime hlease hold => ?_, fun j found hj => ?_, ?_, fun j found hj => ?_⟩
  · exact lapsed_of_old (s := s.went i refs leases locked inv) hlease hold
  · rcases hcases hj with ⟨rfl, rfl⟩ | ⟨-, hj⟩
    · exact hclock
    · exact h.clock j found hj
  · intro j k found found' name head head' hj hk hpublish hpublish'
    rcases hcases hj with ⟨hji, hfound⟩ | ⟨hji, hold⟩
    · rcases hcases hk with ⟨hki, -⟩ | ⟨hki, hold'⟩
      · rw [hji, hki]
      · exact absurd (hfound ▸ hpublish) (honce k found' name head' head hki hold' hpublish')
    · rcases hcases hk with ⟨-, hfound'⟩ | ⟨-, hold'⟩
      · exact absurd (hfound' ▸ hpublish') (honce j found name head head' hji hold hpublish)
      · exact h.once j k found found' name head head' hold hold' hpublish hpublish'
  · have hkept : IsKept refs leases s.lapsed found := by
      rcases hcases hj with ⟨rfl, rfl⟩ | ⟨hne, hj⟩
      · exact hown
      · exact hothers j found hne hj
    exact hkept.mono fun name hfalse => lapsed_of_age (s := s.went i refs leases locked inv) hfalse

theorem Sound.goes (h : Sound s) (hi : s.invocations i = some inv) (hjob : other.job = inv.job)
    (hclock : other.refreshMs ≤ s.now) (hown : IsKept refs leases s.lapsed other)
    (hothers : ∀ j before, j ≠ i → s.invocations j = some before →
      IsKept refs leases s.lapsed before) :
    Sound (s.went i refs leases locked other).age := by
  refine h.went (fun j before name head head' hne hj hpublish hpublish' => hne ?_)
    hclock hown hothers
  exact h.once j i before inv name head head' hj hi hpublish (hjob ▸ hpublish')

/-- Neither a ref nor a lease changes. -/
theorem Sound.goOn (h : Sound s) (hi : s.invocations i = some inv) (hjob : other.job = inv.job)
    (hclock : other.refreshMs ≤ s.now) (hown : IsKept s.refs s.leases s.lapsed other) :
    Sound (s.went i s.refs s.leases locked other).age :=
  h.goes hi hjob hclock hown fun j before _ hj => h.kept j before hj

theorem IsKept.of_phase {lapsed : Name → Bool} (htouching : ∀ touch, inv.phase ≠ .touching touch)
    (hdone : inv.phase ≠ .done true) : IsKept refs leases lapsed inv :=
  fun _ _ _ => ⟨fun touch h => absurd h (htouching touch), fun h => absurd h hdone⟩

theorem IsKept.of_job {lapsed : Name → Bool} (hjob : ∀ name head, inv.job ≠ .publish name head) :
    IsKept refs leases lapsed inv :=
  fun name head h => absurd h (hjob name head)

/-! ## Deletions -/

/-- What is deleted as it was found is not kept by any publication. -/
theorem Sound.ne_of_isAsFound (h : Sound s) {refreshMs : Nat} (hway : ¬ s.OnItsWay name)
    (hexpired : s.IsExpired refreshMs name) (hnow : refreshMs ≤ s.now) {j : Nat}
    {before : Invocation Name Head} (hj : s.invocations j = some before)
    {name' : Name} {head' : Head} (hjob : before.job = .publish name' head')
    (hphase : (∃ touch, before.phase = .touching touch) ∨
      (before.phase = .done true ∧ s.lapsed name' = false)) : name' ≠ name := by
  rintro rfl
  rcases hphase with ⟨touch, hphase⟩ | ⟨hphase, hfalse⟩
  · exact hway ⟨j, before, head', touch, hj, hjob, hphase⟩
  · obtain ⟨-, hsome⟩ := (h.kept j before hj name' head' hjob).2 hphase hfalse
    obtain ⟨mtime, hlease⟩ := Option.isSome_iff_exists.mp hsome
    have hold := hexpired mtime hlease
    have htrue := h.aged name' mtime hlease (Nat.lt_of_lt_of_le hold hnow)
    rw [hfalse] at htrue
    cases htrue

theorem Sound.prunes (h : Sound s) {refreshMs : Nat} (hway : ¬ s.OnItsWay name)
    (hexpired : s.IsExpired refreshMs name) (hnow : refreshMs ≤ s.now) (j : Nat)
    (before : Invocation Name Head) (hj : s.invocations j = some before) :
    IsKept (s.refs.erase name) s.leases s.lapsed before := by
  intro name' head' hjob
  have hne := h.ne_of_isAsFound hway hexpired hnow hj hjob
  obtain ⟨htouching, hdone⟩ := h.kept j before hj name' head' hjob
  refine ⟨fun touch hphase => ?_, fun hphase hfalse => ?_⟩
  · rw [KeyedMap.get?_erase, if_neg (hne (.inl ⟨touch, hphase⟩))]
    exact htouching touch hphase
  · rw [KeyedMap.get?_erase, if_neg (hne (.inr ⟨hphase, hfalse⟩))]
    exact hdone hphase hfalse

theorem Sound.drops (h : Sound s) {refreshMs : Nat} (hway : ¬ s.OnItsWay name)
    (hexpired : s.IsExpired refreshMs name) (hnow : refreshMs ≤ s.now) (j : Nat)
    (before : Invocation Name Head) (hj : s.invocations j = some before) :
    IsKept s.refs (put s.leases name none) s.lapsed before := by
  intro name' head' hjob
  have hne := h.ne_of_isAsFound hway hexpired hnow hj hjob
  obtain ⟨htouching, hdone⟩ := h.kept j before hj name' head' hjob
  refine ⟨htouching, fun hphase hfalse => ?_⟩
  rw [put_of_ne _ _ _ (hne (.inr ⟨hphase, hfalse⟩))]
  exact hdone hphase hfalse

/-! ## Touches -/

theorem IsKept.touches {lapsed : Name → Bool} (h : IsKept refs leases lapsed inv) (name : Name)
    (mtime : Nat) :
    IsKept refs (put leases name (some mtime)) lapsed inv := by
  intro name' head hjob
  obtain ⟨htouching, hdone⟩ := h name' head hjob
  refine ⟨htouching, fun hphase hfalse => ⟨(hdone hphase hfalse).1, ?_⟩⟩
  rw [put_apply]
  split
  · rfl
  · exact (hdone hphase hfalse).2

theorem Sound.touch (h : Sound s) (hi : s.invocations i = some inv) {touch : Touch}
    (hphase : inv.phase = .touching touch) (hname : inv.job.name? = some name) :
    Sound (s.touch i inv name touch).age := by
  have hkept := h.kept i inv hi
  have hclock := h.clock i inv hi
  have hothers : ∀ mtime j before, j ≠ i → s.invocations j = some before →
      IsKept s.refs (put s.leases name (some mtime)) s.lapsed before :=
    fun mtime j before _ hj => (h.kept j before hj).touches name mtime
  have hpushed : ∀ name' head, inv.job = .publish name' head →
      s.refs.get? name' = some (name', head) :=
    fun name' head hjob => (hkept name' head hjob).1 touch hphase
  have htouched : IsKept s.refs (put s.leases name (some inv.nowMs)) s.lapsed
      { inv with phase := System.touched inv.job } := by
    intro name' head hjob
    change inv.job = _ at hjob
    rw [hjob] at hname
    obtain rfl := Option.some.inj hname
    exact ⟨fun _ _ => hpushed _ head hjob, fun _ _ => ⟨hpushed _ head hjob, by rw [put_self]; rfl⟩⟩
  have hwaits : ∀ leases next, IsKept s.refs leases s.lapsed { inv with phase := .touching next } :=
    fun leases next name' head hjob => ⟨fun _ _ => hpushed name' head hjob, fun h => by cases h⟩
  cases touch with
  | utimes =>
    cases hlease : s.leases name with
    | some mtime =>
      simp only [System.touch, hlease]
      exact h.goes hi rfl hclock htouched (hothers _)
    | none =>
      simp only [System.touch, hlease]
      exact h.goOn hi rfl hclock (hwaits _ _)
  | writeFile => exact h.goes hi rfl hclock (hwaits _ _) (hothers _)
  | utimesAgain =>
    cases hlease : s.leases name with
    | some mtime =>
      simp only [System.touch, hlease]
      exact h.goes hi rfl hclock htouched (hothers _)
    | none =>
      simp only [System.touch, hlease]
      exact h.goOn hi rfl hclock (.of_phase (by simp) (by simp))

theorem Sound.act (h : Sound s) (hi : s.invocations i = some inv) (hfound : s.IsAsFound inv)
    (hact : s.act i inv = some t) : Sound t.age := by
  have hclock := h.clock i inv hi
  cases hphase : inv.phase with
  | pushing =>
    simp only [System.act, hphase] at hact
    split at hact
    · next name head hjob =>
      cases hact
      refine h.goes hi rfl hclock (fun name' head' hjob' => ?_) fun j before hne hj => ?_
      · obtain ⟨rfl, rfl⟩ := Job.publish.inj (hjob.symm.trans hjob')
        exact ⟨fun _ _ => KeyedMap.get?_set_self .., fun h => by cases h⟩
      · intro name' head' hjob'
        have hne' : name ≠ name' := by
          rintro rfl
          exact hne (h.once j i before inv name head' head hj hi hjob' hjob)
        rw [KeyedMap.get?_set_of_ne hne']
        exact h.kept j before hj name' head' hjob'
    · cases hact
  | preparing =>
    simp only [System.act, hphase] at hact
    cases hact
    exact h.goOn hi rfl (Nat.le_refl _) (.of_phase (by simp) (by simp))
  | locking =>
    simp only [System.act, hphase] at hact
    split at hact
    · cases hact
    · cases hact
      exact h.goOn hi rfl hclock (.of_phase (by simp) (by simp))
  | updating | listing =>
    simp only [System.act, hphase] at hact
    cases hact
    exact h.goOn hi rfl hclock (.of_phase (by simp) (by simp))
  | checking rest =>
    cases rest with
    | nil =>
      simp only [System.act, hphase] at hact
      cases hact
      refine h.goOn hi rfl hclock fun name head hjob => ?_
      change inv.job = _ at hjob
      simp [System.refreshed, hjob]
    | cons name rest =>
      have hnext : ∀ prune : Bool,
          Sound (s.setPhase i inv (if prune then .pruning name rest else .checking rest)).age := by
        intro prune
        refine h.goOn hi rfl hclock ?_
        cases prune <;> exact .of_phase (by simp) (by simp)
      simp only [System.act, hphase] at hact
      cases hact
      exact hnext _
  | pruning name rest =>
    obtain ⟨hway, hexpired⟩ := hfound name rest (.inl hphase)
    simp only [System.act, hphase] at hact
    cases hact
    exact h.goes hi rfl hclock (.of_phase (by simp) (by simp))
      fun j before _ hj => h.prunes hway hexpired hclock j before hj
  | dropping name rest =>
    obtain ⟨hway, hexpired⟩ := hfound name rest (.inr hphase)
    simp only [System.act, hphase] at hact
    cases hact
    exact h.goes hi rfl hclock (.of_phase (by simp) (by simp))
      fun j before _ hj => h.drops hway hexpired hclock j before hj
  | touching touch =>
    simp only [System.act, hphase] at hact
    obtain ⟨name, hname, rfl⟩ := Option.map_eq_some_iff.mp hact
    exact h.touch hi hphase hname
  | fetching =>
    simp only [System.act, hphase] at hact
    split at hact
    · next name head hjob =>
      cases hact
      exact h.goOn hi rfl hclock (.of_job fun name' head' => by simp [hjob])
    · cases hact
  | done _ | failed =>
    simp only [System.act, hphase] at hact
    cases hact

theorem age_eq (haged : ∀ name mtime, s.leases name = some mtime → mtime + fourteenDaysMs < s.now →
    s.lapsed name = true) : s.age = s := by
  have hlapsed : s.age.lapsed = s.lapsed := by
    funext name
    rw [age_lapsed]
    cases hlease : s.leases name with
    | none => simp
    | some mtime =>
      rw [Option.any_some]
      by_cases hold : mtime + fourteenDaysMs < s.now
      · rw [haged name mtime hlease hold, Bool.true_or]
      · rw [decide_eq_false hold, Bool.or_false]
  calc s.age = { s with lapsed := s.age.lapsed } := rfl
    _ = s := by rw [hlapsed]

/-- No lease changes, so none gets too old. -/
theorem Sound.stays (h : Sound s) (hi : s.invocations i = some inv) {next : Phase Name}
    (hown : IsKept s.refs s.leases s.lapsed { inv with phase := next }) :
    Sound (s.went i s.refs s.leases locked { inv with phase := next }) := by
  have hsound : Sound (s.went i s.refs s.leases locked { inv with phase := next }).age :=
    h.goOn hi rfl (h.clock i inv hi) hown
  rwa [age_eq (s := s.went i s.refs s.leases locked { inv with phase := next }) h.aged] at hsound

theorem Sound.fail (h : Sound s) (hi : s.invocations i = some inv) (hfail : s.fail i inv = some t) :
    Sound t := by
  cases hphase : inv.phase with
  | checking rest =>
    cases rest with
    | nil =>
      simp only [System.fail, hphase] at hfail
      cases hfail
    | cons name rest =>
      simp only [System.fail, hphase] at hfail
      cases hfail
      exact h.stays hi (.of_phase (by simp) (by simp))
  | touching touch =>
    cases touch with
    | utimes =>
      simp only [System.fail, hphase] at hfail
      cases hfail
      exact h.stays hi fun name head hjob =>
        ⟨fun _ _ => (h.kept i inv hi name head hjob).1 _ hphase, fun h => by cases h⟩
    | writeFile | utimesAgain =>
      simp only [System.fail, hphase] at hfail
      cases hfail
      exact h.stays hi (.of_phase (by simp) (by simp))
  | done _ | failed =>
    simp only [System.fail, hphase] at hfail
    cases hfail
  | _ =>
    simp only [System.fail, hphase] at hfail
    cases hfail
    exact h.stays hi (.of_phase (by simp) (by simp))

theorem Sound.start (h : Sound s) {job : Job Name Head}
    (hok : s.Orderly (.starts i job)) : Sound (s.start i job) := by
  set inv : Invocation Name Head :=
    { job, nowMs := s.now, refreshMs := s.now, phase := System.firstPhase job } with hinv
  have hown : IsKept s.refs s.leases s.lapsed inv := by
    rw [hinv]
    cases job <;> exact .of_phase (by simp [System.firstPhase]) (by simp [System.firstPhase])
  have honce : ∀ j before name head head', j ≠ i → s.invocations j = some before →
      before.job = .publish name head → job ≠ .publish name head' := by
    rintro j before name head head' - hj hpublish rfl
    exact hok j before head hj hpublish
  have hsound : Sound (s.went i s.refs s.leases s.locked inv).age :=
    h.went honce (Nat.le_refl _) hown fun j before _ hj => h.kept j before hj
  rwa [age_eq (s := s.went i s.refs s.leases s.locked inv) h.aged] at hsound

theorem Sound.tick (h : Sound s) (ms : Nat) : Sound { s with now := s.now + ms }.age where
  aged _ _ hlease hold := lapsed_of_old (s := { s with now := s.now + ms }) hlease hold
  clock j found hj := Nat.le_add_right_of_le (h.clock j found hj)
  once := h.once
  kept j found hj := (h.kept j found hj).mono fun _ hfalse =>
    lapsed_of_age (s := { s with now := s.now + ms }) hfalse

theorem Sound.step (h : Sound s) {e : Event Name Head} (hok : s.Orderly e)
    (hstep : s.step e = some t) :
    Sound t := by
  cases e with
  | starts i job =>
    simp only [System.step] at hstep
    split at hstep
    · cases hstep
    · cases hstep
      exact h.start hok
  | acts i =>
    obtain ⟨u, hact, rfl⟩ := Option.map_eq_some_iff.mp hstep
    obtain ⟨inv, hi, hact⟩ := Option.bind_eq_some_iff.mp hact
    exact h.act hi (hok inv hi) hact
  | fails i =>
    obtain ⟨inv, hi, hfail⟩ := Option.bind_eq_some_iff.mp hstep
    exact h.fail hi hfail
  | ticks ms =>
    cases hstep
    exact h.tick ms

theorem sound_init : Sound (@machine Name Head _).init where
  aged _ _ h := by cases h
  clock _ _ h := by cases h
  once _ _ _ _ _ _ _ h := by cases h
  kept _ _ h := by cases h

/-- **A published ref survives for its lease**: it is in the cache at the published head, until its
lease is older than 14 days, and a checkout that fetches it finds it. -/
theorem publishWorkspace_survives {events : List (Event Name Head)}
    (hok : machine.Meets System.Orderly events machine.init)
    (h : machine.run events machine.init = some s) (hi : s.invocations i = some inv)
    (hjob : inv.job = .publish name head) (hdone : inv.phase = .done true)
    (hlapsed : s.lapsed name = false) :
    s.refs.get? name = some (name, head) ∧
      ∀ j found head', s.invocations j = some found → found.job = .checkout (some (name, head')) →
        found.phase = .fetching → ∃ t after, machine.step s (.acts j) = some t ∧
          t.invocations j = some after ∧ after.phase = .done true := by
  have hsound : Sound s := Machine.run_invariant_of_meets (fun _ _ _ hs => hs.step) sound_init hok h
  have hkept := ((hsound.kept i inv hi name head hjob).2 hdone hlapsed).1
  refine ⟨hkept, fun j found head' hj hcheckout hphase => ?_⟩
  have hhas : s.refs.has name = true := KeyedMap.has_iff.mpr ⟨_, hkept⟩
  have hact : s.act j found = some (s.setPhase j found (.done true)) := by
    rw [System.act, hphase, hcheckout]
    simp only [hhas]
  refine ⟨(s.setPhase j found (.done true)).age, { found with phase := .done true }, ?_,
    put_self _ _ _, rfl⟩
  change ((s.invocations j).bind _).map _ = _
  rw [hj, Option.bind_some, hact]
  rfl

/-! ## A publication and a refresh -/

namespace Sample

/-- Nothing is deleted or published by the event. -/
def isPlain (s : System String Nat) : Event String Nat → Bool
  | .starts _ (.publish _ _) => false
  | .acts i => (s.invocations i).all fun inv =>
    match inv.phase with
    | .pruning _ _ | .dropping _ _ => false
    | _ => true
  | _ => true

theorem orderly_of_isPlain {s : System String Nat} {e : Event String Nat} (h : isPlain s e = true) :
    s.Orderly e := by
  cases e with
  | starts i job => cases job with
    | publish name head => cases h
    | checkout _ | refresh => trivial
  | acts i =>
    intro inv hi name rest hphase
    rw [isPlain, hi] at h
    rcases hphase with hphase | hphase <;> simp [hphase] at h
  | fails _ | ticks _ => trivial

/-- The refresh comes a day after the publication. -/
def later : List (Event String Nat) :=
  [.acts 0, .acts 0, .acts 0, .acts 0, .ticks 86400000, .starts 1 .refresh,
    .acts 1, .acts 1, .acts 1, .acts 1, .acts 1, .acts 1]

def refreshed : System String Nat :=
  (machine.run (.starts 0 (.publish "writer/7" 1) :: later) machine.init).getD {}

theorem refreshed_survives : refreshed.refs.get? "writer/7" = some ("writer/7", 1) := by
  have hrun : machine.run (.starts 0 (.publish "writer/7" 1) :: later) machine.init =
      some refreshed := rfl
  have hlater : machine.Meets (fun s e => isPlain s e = true) later
      (System.start {} 0 (.publish "writer/7" 1)) := by decide +kernel
  have hok : machine.Meets System.Orderly (.starts 0 (.publish "writer/7" 1) :: later)
      machine.init :=
    ⟨(fun _ _ _ h => by cases h), hlater.mono (fun _ _ _ _ _ _ => trivial)
      (fun _ _ _ => orderly_of_isPlain) trivial⟩
  exact (publishWorkspace_survives hok hrun (i := 0) rfl rfl rfl (by decide +kernel)).1

end Sample

end Ez4.Agent.WorkspaceCache

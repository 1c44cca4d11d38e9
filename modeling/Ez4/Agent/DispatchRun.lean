import Ez4.Agent.Dispatch

/-! # When an invocation keeps its first result

A result that is stored stays, is the one that is sent and is sent before the
marker, in the runs that write no result over another one and in no others. -/
namespace Ez4.Agent.Dispatch
open Ez4.Library

variable {Data : Type}

/-! ## What is stated of a run -/

/-- What must have happened before an entry. -/
def Entry.After (entry : Entry Data) (earlier : List (Entry Data)) : Prop :=
  match entry with
  | .sent e key _ _ => .foundMarker e key ∉ earlier
  | .marked e key (some queue) => ∃ result, .sent e key queue result ∈ earlier
  | _ => True

def InOrder : List (Entry Data) → Prop
  | [] => True
  | entry :: earlier => entry.After earlier ∧ InOrder earlier

/-- Every result that was ever stored or sent is the one that is stored. -/
structure OneFinalResult (s : System Data) : Prop where
  stored : ∀ key result, .stored key result ∈ s.log → s.results key = some result
  sent : ∀ e key queue result, .sent e key queue result ∈ s.log → s.results key = some result
  inOrder : InOrder s.log
  marked : ∀ key, (s.markers key).isSome → ∃ e replyTo, .marked e key replyTo ∈ s.log

/-- Nothing else is reported over a success that was stored. -/
def SuccessReported (s : System Data) : Prop :=
  ∀ key result, .stored key result ∈ s.log → result.status = .succeeded →
    (∀ r, s.results key = some r → r.status = .succeeded) ∧
      ∀ e queue r, .sent e key queue r ∈ s.log → r.status = .succeeded

theorem OneFinalResult.successReported {s : System Data} (h : OneFinalResult s) :
    SuccessReported s := by
  intro key result hstored hstatus
  have hresult : s.results key = some result := h.stored key result hstored
  refine ⟨fun r hr => ?_, fun e queue r hsent => ?_⟩
  · exact Option.some.inj (hresult.symm.trans hr) ▸ hstatus
  · exact Option.some.inj (hresult.symm.trans (h.sent e key queue r hsent)) ▸ hstatus

namespace System

variable (s : System Data)

/-- The result that an event writes. -/
def writesResult : SystemEvent Data → Option (InvocationKey × Result Data)
  | .client e _ _ | .clientFails e true =>
    match s.clients e with
    | some ⟨key, .writingFailed _ result⟩ => some (key, result)
    | _ => none
  | .taskWrites key result => some (key, result)
  | .dispatch e _ | .dispatchFails e _ true =>
    match s.dispatchers e with
    | some ⟨.writeResult key _ result, _, _⟩ => some (key, result)
    | _ => none
  | _ => none

/-- A result is written where there is none, or over itself. -/
def WritesOnce (event : SystemEvent Data) : Prop :=
  ∀ written ∈ s.writesResult event,
    s.results written.1 = none ∨ s.results written.1 = some written.2

instance [DecidableEq Data] (event : SystemEvent Data) : Decidable (s.WritesOnce event) :=
  inferInstanceAs (Decidable (∀ written ∈ s.writesResult event, _))

end System

/-! ## The invariant -/

section Invariant

/-- The keys that an execution can still send a result of. -/
def Phase.current : Phase Data → Option InvocationKey
  | .stopInvocation key _ | .stopResult key _ _ | .sweepInvocation key | .sweepMarker key _
  | .sweepResult key _ | .sweepStopTask key _ | .writeResult key _ _ | .readMarker key _ _
  | .send key _ _ _ | .mark key _ => some key
  | .done => none

def Dispatcher.pending (d : Dispatcher Data) : List InvocationKey :=
  d.phase.current.toList ++ d.remaining

/-- What an execution has in hand: the stored result, or a message that was sent. -/
def Phase.Holds (phase : Phase Data) (s : System Data) (e : Nat) : Prop :=
  match phase with
  | .readMarker key _ result => s.results key = some result
  | .send key invocation queue result =>
    s.results key = some result ∧ invocation.replyTo = some queue
  | .mark key invocation =>
    ∀ queue, invocation.replyTo = some queue → ∃ result, .sent e key queue result ∈ s.log
  | _ => True

structure Dispatcher.Sound (d : Dispatcher Data) (s : System Data) (e : Nat) : Prop where
  holds : d.phase.Holds s e
  nodup : d.pending.Nodup
  unmarked : ∀ key ∈ d.pending, .foundMarker e key ∉ s.log

structure Invariant (s : System Data) : Prop where
  dispatchers : ∀ e d, s.dispatchers e = some d → d.Sound s e
  unstarted : ∀ e key, s.dispatchers e = none → .foundMarker e key ∉ s.log
  final : OneFinalResult s

end Invariant

/-! ## What a step does -/

section Steps

variable {s t : System Data} {event : SystemEvent Data} {e now : Nat} {applied : Bool}
  {d d' : Dispatcher Data}

/-- What the request of an execution does, and the result it writes. -/
inductive Request (s : System Data) (e : Nat) (d d' : Dispatcher Data) (now : Nat) :
    Option (InvocationKey × Result Data) → System Data → Prop
  | nothing : Request s e d d' now none s
  | store (key : InvocationKey) (result : Result Data) :
    Request s e d d' now (some (key, result)) (s.storeResult key result)
  | found {key : InvocationKey} (hkey : d.phase.current = some key)
    (hrest : d'.pending = d.remaining) : Request s e d d' now none (s.foundMarker e key)
  | send {key : InvocationKey} {invocation : Invocation Data} {queue : String}
    {result : Result Data} (hphase : d.phase = .send key invocation queue result) :
    Request s e d d' now none (s.sendResult e key queue result)
  | mark {key : InvocationKey} {invocation : Invocation Data}
    (hphase : d.phase = .mark key invocation) :
    Request s e d d' now none (s.markDispatched e key invocation.replyTo now)

/-- A request, and the execution after it. -/
structure Dispatched (s : System Data) (e : Nat) (d : Dispatcher Data) (now : Nat)
    (written : Option (InvocationKey × Result Data)) (t : System Data) : Prop where
  request : ∃ d' u, Request s e d d' now written u ∧ t = u.setDispatcher e d' ∧
    d'.pending.Sublist d.pending ∧ (d.phase.Holds s e → d'.phase.Holds u e)

@[simp] theorem Dispatcher.pending_next (d : Dispatcher Data) : d.next.pending = d.remaining := by
  unfold Dispatcher.next
  cases d.remaining <;> simp [Dispatcher.pending, Phase.current]

theorem Dispatcher.holds_next (d : Dispatcher Data) : d.next.phase.Holds s e := by
  unfold Dispatcher.next
  cases h : d.remaining <;> trivial

/-- An execution that goes on to the next key. -/
theorem Dispatched.next {written : Option (InvocationKey × Result Data)} {u : System Data}
    (h : Request s e d d.next now written u) :
    Dispatched s e d now written (u.setDispatcher e d.next) :=
  ⟨d.next, u, h, rfl, d.pending_next ▸ List.sublist_append_right _ _, fun _ => d.holds_next⟩

/-- An execution that stays with its key. -/
theorem Dispatched.stay {written : Option (InvocationKey × Result Data)} {u : System Data}
    {phase : Phase Data} (h : Request s e d { d with phase } now written u)
    (hkey : phase.current = d.phase.current) (hholds : d.phase.Holds s e → phase.Holds u e) :
    Dispatched s e d now written (u.setDispatcher e { d with phase }) :=
  ⟨_, u, h, rfl, by simp [Dispatcher.pending, hkey], hholds⟩

theorem dispatched_of_step (hd : s.dispatchers e = some d) (h : s.dispatchStep e d now = some t) :
    Dispatched s e d now (s.writesResult (.dispatch e now)) t := by
  obtain ⟨phase, remaining, since⟩ := d
  cases phase with
  | stopInvocation key reason =>
    simp only [System.writesResult, hd]
    simp only [System.dispatchStep] at h
    cases hi : s.invocations key with
    | none =>
      simp only [hi, Option.some.injEq] at h
      exact h ▸ .next .nothing
    | some invocation =>
      simp only [hi, Option.some.injEq] at h
      exact h ▸ .stay .nothing rfl fun _ => trivial
  | stopResult key invocation reason =>
    simp only [System.writesResult, hd]
    simp only [System.dispatchStep] at h
    cases hr : s.results key with
    | some result =>
      simp only [hr, Option.some.injEq] at h
      exact h ▸ .stay .nothing rfl fun _ => hr
    | none =>
      simp only [hr, Option.some.injEq] at h
      exact h ▸ .stay .nothing rfl fun _ => trivial
  | sweepInvocation key =>
    simp only [System.writesResult, hd]
    simp only [System.dispatchStep] at h
    cases hi : s.invocations key with
    | none =>
      simp only [hi, Option.some.injEq] at h
      exact h ▸ .next .nothing
    | some invocation =>
      cases hdeadline : invocation.deadline with
      | none =>
        simp only [hi, hdeadline, Option.some.injEq] at h
        exact h ▸ .next .nothing
      | some deadline =>
        simp only [hi, hdeadline] at h
        by_cases hlater : deadline > since
        · rw [if_pos hlater, Option.some.injEq] at h
          exact h ▸ .next .nothing
        · rw [if_neg hlater, Option.some.injEq] at h
          exact h ▸ .stay .nothing rfl fun _ => trivial
  | sweepMarker key invocation =>
    simp only [System.writesResult, hd]
    simp only [System.dispatchStep] at h
    by_cases hm : (s.markers key).isSome
    · rw [if_pos hm, Option.some.injEq] at h
      exact h ▸ .next (.found rfl (Dispatcher.pending_next _))
    · rw [if_neg hm, Option.some.injEq] at h
      exact h ▸ .stay .nothing rfl fun _ => trivial
  | sweepResult key invocation =>
    simp only [System.writesResult, hd]
    simp only [System.dispatchStep] at h
    cases hr : s.results key with
    | some result =>
      simp only [hr, Option.some.injEq] at h
      exact h ▸ .stay .nothing rfl fun _ => hr
    | none =>
      simp only [hr] at h
      by_cases ht : (invocation.taskArn.isSome && invocation.cluster.isSome) = true
      · rw [if_pos ht, Option.some.injEq] at h
        exact h ▸ .stay .nothing rfl fun _ => trivial
      · rw [if_neg ht, Option.some.injEq] at h
        exact h ▸ .stay .nothing rfl fun _ => trivial
  | sweepStopTask key invocation =>
    simp only [System.writesResult, hd]
    simp only [System.dispatchStep, Option.some.injEq] at h
    exact h ▸ .stay .nothing rfl fun _ => trivial
  | writeResult key invocation result =>
    simp only [System.writesResult, hd]
    simp only [System.dispatchStep, Option.some.injEq] at h
    exact h ▸ .stay (.store key result) rfl fun _ => put_self _ _ _
  | readMarker key invocation result =>
    simp only [System.writesResult, hd]
    simp only [System.dispatchStep] at h
    by_cases hm : (s.markers key).isSome
    · rw [if_pos hm, Option.some.injEq] at h
      exact h ▸ .next (.found rfl (Dispatcher.pending_next _))
    · rw [if_neg hm] at h
      cases hq : invocation.replyTo with
      | some queue =>
        simp only [hq, Option.some.injEq] at h
        exact h ▸ .stay .nothing rfl fun hr => ⟨hr, hq⟩
      | none =>
        simp only [hq, Option.some.injEq] at h
        exact h ▸ .stay .nothing rfl fun _ queue hsome => absurd (hq.symm.trans hsome) (by simp)
  | send key invocation queue result =>
    simp only [System.writesResult, hd]
    simp only [System.dispatchStep, Option.some.injEq] at h
    refine h ▸ .stay (.send rfl) rfl fun hold q hq => ⟨result, ?_⟩
    have hqueue : queue = q := Option.some.inj (hold.2.symm.trans hq)
    exact hqueue ▸ List.mem_cons_self
  | mark key invocation =>
    simp only [System.writesResult, hd]
    simp only [System.dispatchStep, Option.some.injEq] at h
    exact h ▸ .next (.mark rfl)
  | done => simp [System.dispatchStep] at h

theorem Dispatched.stop {written : Option (InvocationKey × Result Data)} {u : System Data}
    (h : Request s e d { d with phase := .done } now written u) :
    Dispatched s e d now written (u.setDispatcher e { d with phase := .done }) :=
  ⟨_, u, h, rfl, List.sublist_append_right _ _, fun _ => trivial⟩

theorem dispatched_of_fails (hd : s.dispatchers e = some d)
    (h : s.dispatchFails e d now applied = some t) :
    Dispatched s e d now (s.writesResult (.dispatchFails e now applied)) t := by
  cases applied with
  | false =>
    simp only [System.dispatchFails, Bool.false_eq_true, if_false, Option.some.injEq] at h
    exact h ▸ .stop .nothing
  | true =>
    obtain ⟨phase, remaining, since⟩ := d
    simp only [System.dispatchFails, if_true] at h
    cases phase with
    | writeResult key invocation result =>
      simp only [Option.some.injEq] at h
      simp only [System.writesResult, hd]
      exact h ▸ .stop (.store key result)
    | send key invocation queue result =>
      simp only [Option.some.injEq] at h
      simp only [System.writesResult, hd]
      exact h ▸ .stop (.send rfl)
    | mark key invocation =>
      simp only [Option.some.injEq] at h
      simp only [System.writesResult, hd]
      exact h ▸ .stop (.mark rfl)
    | _ =>
      simp only [Option.some.injEq] at h
      simp only [System.writesResult, hd]
      exact h ▸ .stop .nothing

/-- The same bucket, queue and executions, as far as results go. -/
structure Shares (s t : System Data) : Prop where
  results : t.results = s.results
  log : t.log = s.log
  markers : t.markers = s.markers
  dispatchers : t.dispatchers = s.dispatchers

/-- What a step does with a result or an execution. -/
inductive Stepped (s t : System Data) (written : Option (InvocationKey × Result Data)) : Prop
  | dispatched {e now : Nat} {d : Dispatcher Data} (hd : s.dispatchers e = some d)
    (h : Dispatched s e d now written t)
  | started {e : Nat} {d : Dispatcher Data} (hnone : s.dispatchers e = none)
    (hholds : d.phase.Holds s e) (hnodup : d.pending.Nodup) (hwritten : written = none)
    (h : t = s.setDispatcher e d)
  | elsewhere (hwritten : written = none) (h : Shares s t)
  | stored {key : InvocationKey} {result : Result Data} (hwritten : written = some (key, result))
    (h : Shares (s.storeResult key result) t)

theorem shares_startTask (key : InvocationKey) : Shares s (s.startTask key) := by
  unfold System.startTask
  by_cases h : (s.tasks key).isSome
  · rw [if_pos h]; exact ⟨rfl, rfl, rfl, rfl⟩
  · rw [if_neg h]; exact ⟨rfl, rfl, rfl, rfl⟩

theorem Shares.setClient {u : System Data} {c : ClientCall Data} {phase : ClientPhase Data}
    (h : Shares s u) : Shares s (u.setClient e c phase) :=
  ⟨h.results, h.log, h.markers, h.dispatchers⟩

theorem stepped_of_client {c : ClientCall Data} {start : TaskStart} (hc : s.clients e = some c)
    (h : s.clientStep e c start now = some t) :
    Stepped s t (s.writesResult (.client e start now)) := by
  obtain ⟨key, phase⟩ := c
  simp only [System.clientStep] at h
  simp only [System.writesResult, hc]
  cases phase with
  | puttingInvocation invocation given =>
    refine .elsewhere rfl ?_
    by_cases hg : (given && (s.invocations key).isSome) = true
    · simp only [hg, if_true, Option.some.injEq] at h
      exact h ▸ ⟨rfl, rfl, rfl, rfl⟩
    · simp only [if_neg hg, Option.some.injEq] at h
      exact h ▸ ⟨rfl, rfl, rfl, rfl⟩
  | readingInvocation invocation =>
    refine .elsewhere rfl ?_
    cases hi : s.invocations key with
    | none =>
      simp only [hi, Option.some.injEq] at h
      exact h ▸ ⟨rfl, rfl, rfl, rfl⟩
    | some envelope =>
      cases ht : envelope.taskArn <;> simp only [hi, ht, Option.isSome, if_true, if_false,
        Bool.false_eq_true, Option.some.injEq] at h <;> exact h ▸ ⟨rfl, rfl, rfl, rfl⟩
  | runningTask invocation =>
    refine .elsewhere rfl ?_
    cases start with
    | started taskArn =>
      simp only [Option.some.injEq] at h
      exact h ▸ (shares_startTask key).setClient
    | failures reasons =>
      simp only [Option.some.injEq] at h
      exact h ▸ ⟨rfl, rfl, rfl, rfl⟩
  | writingFailed invocation result =>
    simp only [Option.some.injEq] at h
    exact h ▸ .stored rfl ⟨rfl, rfl, rfl, rfl⟩
  | closingInvocation invocation | recordingTask invocation =>
    simp only [Option.some.injEq] at h
    exact h ▸ .elsewhere rfl ⟨rfl, rfl, rfl, rfl⟩
  | ended => simp at h

theorem stepped_of_clientFails {c : ClientCall Data} (hc : s.clients e = some c)
    (h : s.clientFails e c applied = some t) :
    Stepped s t (s.writesResult (.clientFails e applied)) := by
  cases applied with
  | false =>
    simp only [System.clientFails, Bool.false_eq_true, if_false, Option.some.injEq] at h
    exact h ▸ .elsewhere rfl ⟨rfl, rfl, rfl, rfl⟩
  | true =>
    obtain ⟨key, phase⟩ := c
    simp only [System.clientFails, if_true] at h
    simp only [System.writesResult, hc]
    cases phase with
    | puttingInvocation invocation given =>
      refine .elsewhere rfl ?_
      by_cases hg : (given && (s.invocations key).isSome) = true
      · simp only [hg, if_true, Option.some.injEq] at h
        exact h ▸ ⟨rfl, rfl, rfl, rfl⟩
      · simp only [if_neg hg, Option.some.injEq] at h
        exact h ▸ ⟨rfl, rfl, rfl, rfl⟩
    | runningTask invocation =>
      simp only [Option.some.injEq] at h
      exact h ▸ .elsewhere rfl (shares_startTask key).setClient
    | writingFailed invocation result =>
      simp only [Option.some.injEq] at h
      exact h ▸ .stored rfl ⟨rfl, rfl, rfl, rfl⟩
    | _ =>
      simp only [Option.some.injEq] at h
      exact h ▸ .elsewhere rfl ⟨rfl, rfl, rfl, rfl⟩

/-- One case for each kind of event. -/
theorem stepped_of_step (h : s.step event = some t) : Stepped s t (s.writesResult event) := by
  cases event with
  | call e key invocation given =>
    simp only [System.step] at h
    refine .elsewhere rfl ?_
    by_cases hcalled : ((s.clients e).isSome || (!given && (s.invocations key).isSome)) = true
    · simp [hcalled] at h
    · simp only [if_neg hcalled, Option.some.injEq] at h
      exact h ▸ ⟨rfl, rfl, rfl, rfl⟩
  | client e start now =>
    obtain ⟨c, hc, h⟩ := Option.bind_eq_some_iff.mp h
    exact stepped_of_client hc h
  | taskWrites key result =>
    simp only [System.step] at h
    cases ht : s.tasks key with
    | none => simp [ht] at h
    | some task =>
      simp only [ht] at h
      by_cases hw : (task.running && !task.wrote) = true
      · rw [if_pos hw, Option.some.injEq] at h
        exact h ▸ .stored rfl ⟨rfl, rfl, rfl, rfl⟩
      · simp [hw] at h
  | taskStops key =>
    simp only [System.step] at h
    refine .elsewhere rfl ?_
    cases ht : s.tasks key with
    | none => simp [ht] at h
    | some task =>
      simp only [ht, Option.some.injEq] at h
      exact h ▸ ⟨rfl, rfl, rfl, rfl⟩
  | stopEvent e key reason =>
    simp only [System.step] at h
    cases hd : s.dispatchers e with
    | some d => simp [hd] at h
    | none =>
      simp only [hd, Option.isSome, Bool.false_eq_true, if_false, Option.some.injEq] at h
      refine .started hd ?_ ?_ rfl h.symm
      · trivial
      · simp [Dispatcher.pending, Phase.current]
  | sweep e keys now =>
    simp only [System.step] at h
    cases hd : s.dispatchers e with
    | some d => simp [hd] at h
    | none =>
      by_cases hkeys : keys.Nodup
      · simp only [hd, hkeys, Option.isSome, decide_true, Bool.not_true, Bool.or_self,
          Bool.false_eq_true, if_false, Option.some.injEq] at h
        exact .started hd (Dispatcher.holds_next _) (by simpa using hkeys) rfl h.symm
      · simp [hkeys] at h
  | dispatch e now =>
    obtain ⟨d, hd, h⟩ := Option.bind_eq_some_iff.mp h
    exact .dispatched hd (dispatched_of_step hd h)
  | dispatchFails e now applied =>
    obtain ⟨d, hd, h⟩ := Option.bind_eq_some_iff.mp h
    exact .dispatched hd (dispatched_of_fails hd h)
  | clientFails e applied =>
    obtain ⟨c, hc, h⟩ := Option.bind_eq_some_iff.mp h
    exact stepped_of_clientFails hc h

end Steps

/-! ## What the steps keep -/

section Kept

variable {s t u : System Data} {e now : Nat} {key : InvocationKey} {result : Result Data}
  {d d' : Dispatcher Data} {written : Option (InvocationKey × Result Data)}

/-- Results are added and none is lost, and only one execution finds a marker. -/
structure Grows (s u : System Data) (e : Nat) : Prop where
  results : ∀ key result, s.results key = some result → u.results key = some result
  log : ∀ entry ∈ s.log, entry ∈ u.log
  found : ∀ e' key, e' ≠ e → .foundMarker e' key ∈ u.log → .foundMarker e' key ∈ s.log

theorem Grows.refl : Grows s s e := ⟨fun _ _ h => h, fun _ h => h, fun _ _ _ h => h⟩

theorem Grows.storeResult (hok : s.results key = none ∨ s.results key = some result) :
    Grows s (s.storeResult key result) e where
  results k r hr := by
    show put s.results key (some result) k = some r
    rw [put_eq_some_iff]
    by_cases hk : k = key
    · rcases hok with hnone | hsame
      · simp [hk ▸ hr] at hnone
      · exact .inl ⟨hk, Option.some.inj (hsame.symm.trans (hk ▸ hr))⟩
    · exact .inr ⟨hk, hr⟩
  log _ h := List.mem_cons_of_mem _ h
  found _ _ _ h := by simpa [System.storeResult] using h

theorem Grows.markDispatched (replyTo : Option String) :
    Grows s (s.markDispatched e key replyTo now) e := by
  unfold System.markDispatched
  by_cases hm : (s.markers key).isSome
  · rw [if_pos hm]; exact .refl
  · rw [if_neg hm]
    exact ⟨fun _ _ h => h, fun _ h => List.mem_cons_of_mem _ h, fun _ _ _ h => by simpa using h⟩

theorem Phase.Holds.grows {phase : Phase Data} {e' : Nat} (h : phase.Holds s e)
    (hgrows : Grows s u e') : phase.Holds u e := by
  cases phase with
  | readMarker key invocation result => exact hgrows.results _ _ h
  | send key invocation queue result => exact ⟨hgrows.results _ _ h.1, h.2⟩
  | mark key invocation =>
    intro queue hq
    obtain ⟨result, hsent⟩ := h queue hq
    exact ⟨result, hgrows.log _ hsent⟩
  | _ => trivial

theorem Dispatcher.Sound.grows (h : d.Sound s e) {e' : Nat} (hne : e ≠ e')
    (hgrows : Grows s u e') : d.Sound u e where
  holds := h.holds.grows hgrows
  nodup := h.nodup
  unmarked key hkey hfound := h.unmarked key hkey (hgrows.found _ _ hne hfound)

/-- A result that is stored where there is none, or over itself. -/
theorem OneFinalResult.storeResult (h : OneFinalResult s)
    (hok : s.results key = none ∨ s.results key = some result) :
    OneFinalResult (s.storeResult key result) where
  stored k r hmem := by
    rcases List.mem_cons.mp hmem with heq | hmem
    · cases heq
      exact put_self _ _ _
    · exact (Grows.storeResult (e := 0) hok).results _ _ (h.stored k r hmem)
  sent e k queue r hmem := by
    rcases List.mem_cons.mp hmem with heq | hmem
    · cases heq
    · exact (Grows.storeResult (e := 0) hok).results _ _ (h.sent e k queue r hmem)
  inOrder := ⟨trivial, h.inOrder⟩
  marked k hk := by
    obtain ⟨e, replyTo, hmem⟩ := h.marked k hk
    exact ⟨e, replyTo, List.mem_cons_of_mem _ hmem⟩

theorem OneFinalResult.foundMarker (h : OneFinalResult s) :
    OneFinalResult (s.foundMarker e key) where
  stored k r hmem := h.stored k r (by simpa [System.foundMarker] using hmem)
  sent e k queue r hmem := h.sent e k queue r (by simpa [System.foundMarker] using hmem)
  inOrder := ⟨trivial, h.inOrder⟩
  marked k hk := by
    obtain ⟨e, replyTo, hmem⟩ := h.marked k hk
    exact ⟨e, replyTo, List.mem_cons_of_mem _ hmem⟩

theorem OneFinalResult.sendResult {queue : String} (h : OneFinalResult s)
    (hresult : s.results key = some result) (hfound : .foundMarker e key ∉ s.log) :
    OneFinalResult (s.sendResult e key queue result) where
  stored k r hmem := h.stored k r (by simpa [System.sendResult] using hmem)
  sent e' k q r hmem := by
    rcases List.mem_cons.mp hmem with heq | hmem
    · cases heq
      exact hresult
    · exact h.sent e' k q r hmem
  inOrder := ⟨hfound, h.inOrder⟩
  marked k hk := by
    obtain ⟨e, replyTo, hmem⟩ := h.marked k hk
    exact ⟨e, replyTo, List.mem_cons_of_mem _ hmem⟩

theorem OneFinalResult.markDispatched {replyTo : Option String} (h : OneFinalResult s)
    (hsent : ∀ queue, replyTo = some queue → ∃ result, .sent e key queue result ∈ s.log) :
    OneFinalResult (s.markDispatched e key replyTo now) := by
  unfold System.markDispatched
  by_cases hm : (s.markers key).isSome
  · rw [if_pos hm]; exact h
  · rw [if_neg hm]
    refine ⟨fun k r hmem => h.stored k r (by simpa using hmem),
      fun e' k q r hmem => h.sent e' k q r (by simpa using hmem), ⟨?_, h.inOrder⟩, fun k hk => ?_⟩
    · cases replyTo with
      | none => trivial
      | some queue => exact hsent queue rfl
    · by_cases heq : k = key
      · exact ⟨e, replyTo, heq ▸ List.mem_cons_self⟩
      · obtain ⟨e', replyTo', hmem⟩ := h.marked k (by simpa [put_of_ne _ _ _ heq] using hk)
        exact ⟨e', replyTo', List.mem_cons_of_mem _ hmem⟩

theorem OneFinalResult.congr (h : OneFinalResult s) (hresults : t.results = s.results)
    (hlog : t.log = s.log) (hmarkers : t.markers = s.markers) : OneFinalResult t where
  stored k r hmem := hresults ▸ h.stored k r (hlog ▸ hmem)
  sent e k queue r hmem := hresults ▸ h.sent e k queue r (hlog ▸ hmem)
  inOrder := hlog ▸ h.inOrder
  marked k hk := hlog ▸ h.marked k (hmarkers ▸ hk)

/-- A result that may be written: none is stored, or the same one. -/
abbrev Fresh (s : System Data) (written : Option (InvocationKey × Result Data)) : Prop :=
  ∀ w ∈ written, s.results w.1 = none ∨ s.results w.1 = some w.2

theorem Request.grows (h : Request s e d d' now written u) (hok : Fresh s written) :
    Grows s u e := by
  cases h with
  | nothing => exact .refl
  | store key result => exact .storeResult (hok _ rfl)
  | found hkey hrest =>
    exact ⟨fun _ _ h => h, fun _ h => List.mem_cons_of_mem _ h, fun e' k hne h => by
      simpa [System.foundMarker, hne] using h⟩
  | send hphase =>
    exact ⟨fun _ _ h => h, fun _ h => List.mem_cons_of_mem _ h, fun _ _ _ h => by
      simpa [System.sendResult] using h⟩
  | mark hphase => exact .markDispatched _

theorem Request.final (h : Request s e d d' now written u) (hok : Fresh s written)
    (hd : d.Sound s e) (hfinal : OneFinalResult s) : OneFinalResult u := by
  have hholds := hd.holds
  cases h with
  | nothing => exact hfinal
  | store key result => exact hfinal.storeResult (hok _ rfl)
  | found hkey hrest => exact hfinal.foundMarker
  | @send key invocation queue result hphase =>
    rw [hphase] at hholds
    have hmem : key ∈ d.pending := by simp [Dispatcher.pending, hphase, Phase.current]
    exact hfinal.sendResult hholds.1 (hd.unmarked key hmem)
  | mark hphase =>
    rw [hphase] at hholds
    exact hfinal.markDispatched hholds

/-- What an execution has still to look at stays unmarked for it. -/
theorem Request.unmarked (h : Request s e d d' now written u) (hd : d.Sound s e)
    (hsub : d'.pending.Sublist d.pending) {k : InvocationKey} (hk : k ∈ d'.pending) :
    .foundMarker e k ∉ u.log := by
  have hold : .foundMarker e k ∉ s.log := hd.unmarked k (hsub.subset hk)
  cases h with
  | nothing => exact hold
  | store key result => simpa [System.storeResult] using hold
  | @found key hkey hrest =>
    have hnodup := hd.nodup
    rw [Dispatcher.pending, hkey, Option.toList_some, List.singleton_append] at hnodup
    have hne : k ≠ key := fun heq =>
      (List.nodup_cons.mp hnodup).1 (heq ▸ hrest ▸ hk)
    simpa [System.foundMarker, hne] using hold
  | send hphase => simpa [System.sendResult] using hold
  | @mark key invocation hphase =>
    unfold System.markDispatched
    by_cases hm : (s.markers key).isSome
    · rw [if_pos hm]; exact hold
    · rw [if_neg hm]; simpa using hold

theorem Request.dispatchers (h : Request s e d d' now written u) :
    u.dispatchers = s.dispatchers := by
  cases h with
  | @mark key invocation hphase =>
    unfold System.markDispatched
    by_cases hm : (s.markers key).isSome <;> simp [hm]
  | _ => rfl

theorem Phase.holds_congr {phase : Phase Data} (hresults : t.results = s.results)
    (hlog : t.log = s.log) : phase.Holds t e ↔ phase.Holds s e := by
  cases phase <;> simp [Phase.Holds, hresults, hlog]

theorem Dispatcher.Sound.congr (h : d.Sound s e) (hresults : t.results = s.results)
    (hlog : t.log = s.log) : d.Sound t e where
  holds := (Phase.holds_congr hresults hlog).mpr h.holds
  nodup := h.nodup
  unmarked key hkey := hlog ▸ h.unmarked key hkey

theorem Invariant.shares (h : Invariant s) (hshares : Shares s t) : Invariant t where
  dispatchers e d hd :=
    (h.dispatchers e d (hshares.dispatchers ▸ hd)).congr hshares.results hshares.log
  unstarted e key he := hshares.log ▸ h.unstarted e key (hshares.dispatchers ▸ he)
  final := h.final.congr hshares.results hshares.log hshares.markers

theorem Invariant.storeResult (h : Invariant s)
    (hok : s.results key = none ∨ s.results key = some result) :
    Invariant (s.storeResult key result) where
  dispatchers e d hd := (h.dispatchers e d hd).grows (Nat.succ_ne_self e).symm (.storeResult hok)
  unstarted e k he := by simpa [System.storeResult] using h.unstarted e k he
  final := h.final.storeResult hok

/-- An execution that starts. -/
theorem Invariant.start (h : Invariant s) (hnone : s.dispatchers e = none)
    (hholds : d.phase.Holds s e) (hnodup : d.pending.Nodup) : Invariant (s.setDispatcher e d) where
  dispatchers e' d' hd' := by
    rcases (put_eq_some_iff _ _).mp hd' with ⟨rfl, rfl⟩ | ⟨_, hd'⟩
    · exact Dispatcher.Sound.congr (s := s)
        ⟨hholds, hnodup, fun k _ => h.unstarted e' k hnone⟩ rfl rfl
    · exact (h.dispatchers e' d' hd').congr rfl rfl
  unstarted e' k he' := by
    by_cases heq : e' = e
    · simp [System.setDispatcher, heq] at he'
    · exact h.unstarted e' k (by simpa [System.setDispatcher, put_of_ne _ _ _ heq] using he')
  final := h.final.congr rfl rfl rfl

theorem Invariant.dispatched (h : Invariant s) (hd : s.dispatchers e = some d)
    (hok : Fresh s written) (hstep : Dispatched s e d now written t) : Invariant t := by
  obtain ⟨d', u, hreq, rfl, hsub, hholds⟩ := hstep
  have hsound : d.Sound s e := h.dispatchers e d hd
  have hgrows : Grows s u e := hreq.grows hok
  have hsame : u.dispatchers = s.dispatchers := hreq.dispatchers
  refine ⟨fun e' d'' hd' => ?_, fun e' k he' => ?_, ?_⟩
  · rcases (put_eq_some_iff _ _).mp hd' with ⟨rfl, rfl⟩ | ⟨hne, hd'⟩
    · have hsound' : d'.Sound u e' :=
        ⟨hholds hsound.holds, hsound.nodup.sublist hsub, fun k hk => hreq.unmarked hsound hsub hk⟩
      exact hsound'.congr rfl rfl
    · have hother : d''.Sound s e' := h.dispatchers e' d'' (hsame ▸ hd')
      exact (hother.grows hne hgrows).congr rfl rfl
  · by_cases heq : e' = e
    · simp [System.setDispatcher, heq] at he'
    · have hnone : s.dispatchers e' = none := by
        rw [← hsame]; simpa [System.setDispatcher, put_of_ne _ _ _ heq] using he'
      exact fun hfound => h.unstarted e' k hnone (hgrows.found _ _ heq hfound)
  · exact (hreq.final hok hsound h.final).congr rfl rfl rfl

theorem Invariant.step {event : SystemEvent Data} (h : Invariant s) (hok : s.WritesOnce event)
    (hstep : s.step event = some t) : Invariant t := by
  cases stepped_of_step hstep with
  | dispatched hd hdispatched => exact h.dispatched hd hok hdispatched
  | started hnone hholds hnodup _ heq => exact heq ▸ h.start hnone hholds hnodup
  | elsewhere _ hshares => exact h.shares hshares
  | stored hwritten hshares => exact (h.storeResult (hok _ hwritten)).shares hshares

theorem invariant_init : Invariant ({} : System Data) where
  dispatchers _ _ h := by cases h
  unstarted _ _ _ := by simp
  final := ⟨by simp, by simp, trivial, by simp⟩

end Kept

/-! ## The runs with one final result -/

section Run

variable {s t : System Data} {event : SystemEvent Data} {events : List (SystemEvent Data)}

/-- A step logs the result it writes and nothing else about results. -/
structure Logs (s t : System Data) (written : Option (InvocationKey × Result Data)) : Prop where
  kept : ∀ entry ∈ s.log, entry ∈ t.log
  added : ∀ w ∈ written, .stored w.1 w.2 ∈ t.log
  results : ∀ key result, t.results key = some result → s.results key = some result ∨
    (key, result) ∈ written

theorem Request.logs {e now : Nat} {d d' : Dispatcher Data}
    {written : Option (InvocationKey × Result Data)} {u : System Data}
    (h : Request s e d d' now written u) : Logs s u written := by
  cases h with
  | nothing => exact ⟨fun _ h => h, by simp, fun _ _ h => .inl h⟩
  | store key result =>
    refine ⟨fun _ h => List.mem_cons_of_mem _ h, fun w hw => ?_, fun k r hr => ?_⟩
    · cases hw; exact List.mem_cons_self
    · rcases (put_eq_some_iff _ _).mp hr with ⟨rfl, rfl⟩ | ⟨_, hr⟩
      · exact .inr rfl
      · exact .inl hr
  | found | send => exact ⟨fun _ h => List.mem_cons_of_mem _ h, by simp, fun _ _ h => .inl h⟩
  | @mark key invocation hphase =>
    unfold System.markDispatched
    by_cases hm : (s.markers key).isSome
    · rw [if_pos hm]; exact ⟨fun _ h => h, by simp, fun _ _ h => .inl h⟩
    · rw [if_neg hm]; exact ⟨fun _ h => List.mem_cons_of_mem _ h, by simp, fun _ _ h => .inl h⟩

theorem logs_of_step (h : s.step event = some t) : Logs s t (s.writesResult event) := by
  cases stepped_of_step h with
  | dispatched hd hdispatched =>
    obtain ⟨d', u, hreq, rfl, -, -⟩ := hdispatched
    exact ⟨hreq.logs.kept, hreq.logs.added, hreq.logs.results⟩
  | started _ _ _ hwritten heq =>
    rw [hwritten, heq]
    exact ⟨fun _ h => h, by simp, fun _ _ h => .inl h⟩
  | elsewhere hwritten hshares =>
    rw [hwritten]
    exact ⟨fun _ h => hshares.log ▸ h, by simp, fun _ _ h => .inl (hshares.results ▸ h)⟩
  | @stored key result hwritten hshares =>
    rw [hwritten]
    have hlogs : Logs s (s.storeResult key result) (some (key, result)) :=
      Request.logs (.store key result : Request s 0 ⟨.done, [], 0⟩ ⟨.done, [], 0⟩ 0 _ _)
    exact ⟨fun _ h => hshares.log ▸ hlogs.kept _ h, fun w hw => hshares.log ▸ hlogs.added w hw,
      fun k r hr => hlogs.results k r (hshares.results ▸ hr)⟩

theorem log_kept_of_run (h : (machine Data).run events s = some t) :
    ∀ entry ∈ s.log, entry ∈ t.log := fun entry hmem =>
  Machine.run_invariant (M := machine Data) (I := fun u => entry ∈ u.log)
    (fun _ _ _ hu hstep => (logs_of_step hstep).kept entry hu) hmem h

/-- A run that replaces a result by another one has both in its log. -/
theorem meets_of_stored (hlogged : ∀ key result, s.results key = some result →
      .stored key result ∈ s.log)
    (h : (machine Data).run events s = some t)
    (hstored : ∀ key result, .stored key result ∈ t.log → t.results key = some result) :
    (machine Data).Meets System.WritesOnce events s := by
  induction events generalizing s with
  | nil => trivial
  | cons event rest ih =>
    obtain ⟨u, hstep, hrest⟩ := Machine.run_cons.mp h
    have hlogs : Logs s u (s.writesResult event) := logs_of_step hstep
    have hkept : ∀ entry ∈ u.log, entry ∈ t.log := log_kept_of_run hrest
    refine ⟨fun w hw => ?_, ?_⟩
    · cases hr : s.results w.1 with
      | none => exact .inl rfl
      | some r =>
        have hold : t.results w.1 = some r :=
          hstored _ _ (hkept _ (hlogs.kept _ (hlogged _ _ hr)))
        have hnew : t.results w.1 = some w.2 := hstored _ _ (hkept _ (hlogs.added w hw))
        exact .inr (hold.symm.trans hnew)
    · rw [hstep]
      refine ih (fun key result hr => ?_) hrest
      rcases hlogs.results key result hr with hr | hw
      · exact hlogs.kept _ (hlogged key result hr)
      · exact hlogs.added _ hw

end Run

namespace Sample

def key : InvocationKey := ⟨"writer", "1"⟩

def invocation : Invocation Nat :=
  { input := 0, correlation := none, replyTo := some "replies", deadline := some 10,
    cluster := some "agents", taskArn := none }

def success : Result Nat :=
  { key := key, status := .succeeded, output := some 7, error := none, correlation := none,
    finishedAt := 11 }

/-- A task that is started, and the stop event after its success. -/
def started : List (SystemEvent Nat) :=
  [.call 0 key invocation false, .client 0 (.started "task") 0, .client 0 (.started "task") 0,
    .client 0 (.started "task") 0]

def stopped : List (SystemEvent Nat) :=
  started ++ [.taskWrites key success, .taskStops key, .stopEvent 0 key ⟨none, some 0⟩] ++
    List.replicate 5 (.dispatch 0 12)

/-- A sweep finds no result, the task stores its success, and the sweep goes on. -/
def overdue : List (SystemEvent Nat) :=
  started ++ [.sweep 0 [key] 11] ++ List.replicate 4 (.dispatch 0 11) ++
    [.taskWrites key success] ++ List.replicate 4 (.dispatch 0 11)

end Sample

end Ez4.Agent.Dispatch

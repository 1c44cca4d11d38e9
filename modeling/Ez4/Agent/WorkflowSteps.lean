import Ez4.Agent.WorkflowInvariant

/-! # The steps of a workflow's executions

Each step of the machine keeps the invariant, and so does every run of it. -/
namespace Ez4.Agent.Workflow
open Ez4.Library

variable {Data : Type} {settings : Settings Data} {s : System Data}

/-! ## Messages -/

theorem Inv.sendMessage (h : Inv settings s) {m : Nat} {content : Message Data} {s' : System Data}
    (hresult : ∀ r id, target settings.workflow content = some (r, .result id) →
      ∃ t ∈ s.history, t.runId = r ∧ Waits t id)
    (hstep : s.sendMessage m content = some s') : Inv settings s' := by
  unfold System.sendMessage at hstep
  by_cases hsome : (s.messages m).isSome = true
  · rw [if_pos hsome] at hstep
    cases hstep
  · rw [if_neg hsome, Option.some.injEq] at hstep
    subst hstep
    have hnone : s.messages m = none := by simpa using hsome
    have hle : ∀ n body, s.messages n = some body →
        put s.messages m (some content) n = some body := by
      intro n body hn
      have hne : n ≠ m := fun heq => by rw [heq, hnone] at hn; cases hn
      rw [put_of_ne _ _ _ hne, hn]
    have hunhandled : s.handled m ≠ true := by
      intro hm
      obtain ⟨body, hbody⟩ := h.known m hm
      rw [hnone] at hbody
      cases hbody
    refine { h with
      made := fun t ht => (h.made t ht).mono hle
      results := ?_
      executions := ?_
      handled := ?_
      known := fun n hn => (h.known n hn).imp fun body hbody => hle n body hbody }
    · intro n body r id hbody htarget
      rcases put_eq_some_iff _ _ |>.mp hbody with ⟨_, rfl⟩ | ⟨_, hold⟩
      · exact hresult r id htarget
      · exact h.results n body r id hold htarget
    · intro e x hx
      have hok := h.executions e x hx
      refine ⟨hle _ _ hok.delivered, hok.targeted, ?_⟩
      have hphase := hok.phase
      cases hp : x.phase with
      | writing t =>
        rw [hp] at hphase
        exact ⟨⟨hphase.1.1, hphase.1.2.1, hphase.1.2.2.mono hle⟩, hphase.2⟩
      | handling stored request => rw [hp] at hphase; exact hphase
      | invoking waiting step result => rw [hp] at hphase; exact hphase
      | reading | returned result | threw => trivial
    · intro n body r key hn hbody htarget
      rcases put_eq_some_iff _ _ |>.mp hbody with ⟨rfl, _⟩ | ⟨_, hold⟩
      · exact absurd hn hunhandled
      · exact ⟨(h.handled n body r key hn hold htarget).closed,
          (h.handled n body r key hn hold htarget).invoked⟩

/-! ## Phases -/

section Phases

variable {e : Nat} {x : Execution Data}

/-- An execution goes to a phase it knows all of, and writes no run there. -/
theorem Inv.setPhase (h : Inv settings s) (hx : s.executions e = some x) {phase : Phase Data}
    (hphase : PhaseOk settings s x phase) (hwrites : ∀ t, phase ≠ .writing t) :
    Inv settings (s.setPhase e x phase) := by
  have hok := h.executions e x hx
  refine @Inv.update Data settings s h e _ s.nextId s.handled (Nat.le_refl _) (fun _ hm => hm)
    ⟨hok.delivered, hok.targeted, ?_⟩ (fun t ht => absurd ht (hwrites t)) (fun _ hm => .inl hm)
  cases phase with
  | writing t => exact absurd rfl (hwrites t)
  | handling stored request => exact hphase
  | invoking waiting step result => exact hphase
  | reading | returned result | threw => trivial

theorem Inv.threw (h : Inv settings s) (hx : s.executions e = some x) :
    Inv settings (s.setPhase e x .threw) := h.setPhase hx trivial (by simp)

theorem Inv.finish (h : Inv settings s) (hx : s.executions e = some x) {result : StepResult}
    (hsettled : Settled settings s x.runId x.key) : Inv settings (s.finish e x result) := by
  have hok := h.executions e x hx
  refine h.update (n := s.nextId) (Nat.le_refl _) (fun m hm => ?_)
    ⟨hok.delivered, hok.targeted, trivial⟩ (fun t ht => by cases ht) (fun m hm => ?_)
  · by_cases hmx : m = x.message
    · rw [if_pos hmx]
    · rw [if_neg hmx, hm]
  · by_cases hmx : m = x.message
    · subst hmx
      refine .inr ⟨⟨_, hok.delivered⟩, fun content r key hcontent htarget => ?_⟩
      rw [hok.delivered, Option.some.injEq] at hcontent
      rw [← hcontent, hok.targeted, Option.some.injEq, Prod.mk.injEq] at htarget
      exact htarget.1 ▸ htarget.2 ▸ hsettled
    · rw [if_neg hmx] at hm
      exact .inl hm

/-- A message that is ignored once the store was read has nothing left to do. -/
theorem Inv.settled_of_ignored (h : Inv settings s) (hok : ExecutionOk settings s x)
    (hignored : decideStep x.content x.runId x.key (s.runs x.runId) = .ignored) :
    Settled settings s x.runId x.key := by
  rcases ignored_of_decideStep hignored with ⟨hnone, reply, hreply⟩ | ⟨run, hrun, hcases⟩
  · obtain ⟨hkey, _⟩ := target_result (hreply ▸ hok.targeted)
    obtain ⟨t, ht, hid, _⟩ := h.waits_of_target hok.delivered hok.targeted _ hkey
    exact absurd hnone (hid ▸ h.runs_ne_none ht)
  · rcases hcases with hfinished | ⟨hreinvocation, hother⟩
    · obtain ⟨t, ht, _, hafter⟩ := h.stored hrun
      have hwaiting : run.waitingFor = none :=
        hafter ▸ (h.made t ht).waitingFor_of_finished (hafter ▸ hfinished)
      constructor
      · intro hpending
        cases hkey : x.key with
        | start => rw [hkey, Pending, hrun] at hpending; cases hpending
        | result id =>
          rw [hkey] at hpending
          obtain ⟨other, waiting, hsome, hwaits, _⟩ := hpending
          rw [hrun, Option.some.injEq] at hsome
          rw [← hsome, hwaiting] at hwaits
          cases hwaits
      · intro other waiting hsome _ hwaits
        rw [hrun, Option.some.injEq] at hsome
        rw [← hsome, hwaiting] at hwaits
        cases hwaits
    · constructor
      · intro hpending
        cases hkey : x.key with
        | start => rw [hkey, Pending, hrun] at hpending; cases hpending
        | result id =>
          rw [hkey] at hpending
          obtain ⟨other, waiting, hsome, hwaits, hid⟩ := hpending
          rw [hrun, Option.some.injEq] at hsome
          cases hcontent : x.content with
          | start r input =>
            have htarget := hok.targeted
            rw [hcontent, hkey] at htarget
            cases htarget
          | result reply =>
            obtain ⟨hreply, _⟩ := target_result (hcontent ▸ hok.targeted)
            rw [hkey, Key.result.injEq] at hreply
            apply hother reply hcontent
            rw [hsome, hwaits, Option.map_some, hid, hreply]
      · intro other waiting hsome htrigger hwaits
        rw [hrun, Option.some.injEq] at hsome
        rw [← hsome] at htrigger hwaits
        rw [reinvocation_eq_some.mpr ⟨htrigger, hwaits⟩] at hreinvocation
        cases hreinvocation

theorem Inv.readRun (h : Inv settings s) (hx : s.executions e = some x) :
    Inv settings (s.readRun e x) := by
  have hok := h.executions e x hx
  unfold System.readRun
  cases hdecide : decideStep x.content x.runId x.key (s.runs x.runId) with
  | ignored => exact h.finish hx (h.settled_of_ignored hok hdecide)
  | handle request => exact h.setPhase hx hdecide (by simp)
  | reinvoke waiting step =>
    obtain ⟨run, hrun, htrigger, hwaiting, hstep⟩ := reinvoke_of_decideStep hdecide
    obtain ⟨t, ht, hid, hafter⟩ := h.stored hrun
    refine h.setPhase hx ⟨⟨t, ht, hid, hafter ▸ hwaiting, hafter ▸ hstep⟩, ?_, ?_⟩ (by simp)
    · intro hpending
      have hkey : t.key = x.key := by rw [← (h.made t ht).trigger, hafter, htrigger]
      exact h.used t ht (hid.symm ▸ hkey.symm ▸ hpending)
    · intro other waiting' hsome _ hwaiting'
      rw [hrun, Option.some.injEq] at hsome
      rw [← hsome, hwaiting, Option.some.injEq] at hwaiting'
      exact ⟨hwaiting'.symm, hsome ▸ hstep⟩

/-! ## The handler -/

/-- The ids of a run that is yet to be written are new. -/
theorem waits_nextRun {stored : Option (WorkflowRun Data)} {answer : Step Data} {now : Times}
    {t : Transition Data} {id : Nat} {newId : Nat}
    (hafter : t.after = nextRun settings.maxSteps t.runId t.key stored answer newId now)
    (h : Waits t id) : id = newId ∧ t.after.waitingFor.isSome = true := by
  obtain ⟨waiting, hwaiting, hid⟩ := h
  have hsome : t.after.waitingFor.isSome = true := by rw [hwaiting]; rfl
  have hcases := nextRun_cases settings.maxSteps t.runId t.key stored answer newId now
  rw [← hafter] at hcases
  cases hcases with
  | completed _ _ hnone _ => rw [hnone] at hwaiting; cases hwaiting
  | failed _ _ _ hnone _ => rw [hnone] at hwaiting; cases hwaiting
  | running _ _ _ hwaits _ =>
    rw [hwaits, Option.some.injEq] at hwaiting
    exact ⟨by rw [← hid, ← hwaiting], hsome⟩

theorem Inv.handleRequest (h : Inv settings s) (hx : s.executions e = some x)
    {stored : Option (WorkflowRun Data)} {request : Request Data}
    (hphase : x.phase = .handling stored request) (call : Nat) (now : Times) :
    Inv settings (s.handleRequest settings e x stored request call now) := by
  have hok := h.executions e x hx
  have hdecide := hok.phase
  rw [hphase] at hdecide
  unfold System.handleRequest
  cases hanswer : settings.handler call request with
  | none => exact h.threw hx
  | some answer =>
    generalize ht : s.answered settings x stored request answer now = t
    have hafter : t.after = nextRun settings.maxSteps t.runId t.key stored answer s.nextId now := by
      rw [← ht]
      rfl
    have hwaits : ∀ id, Waits t id → id = s.nextId ∧ t.after.waitingFor.isSome = true :=
      fun id hid => waits_nextRun hafter hid
    have hmade : Made settings s.messages t := by
      refine ⟨⟨x.content, ?_, ?_, ?_⟩, ⟨call, ?_⟩, ⟨s.nextId, now, ?_⟩, ?_⟩
      · rw [← ht]; exact hok.delivered
      · rw [← ht]; exact hok.targeted
      · rw [← ht]; exact hdecide
      · rw [← ht]; exact hanswer
      · rw [← ht]
        rfl
      · intro id hid hkey
        obtain ⟨u, hu, _, hold⟩ := h.waits_of_target hok.delivered hok.targeted id
          (by rw [← hkey, ← ht]; rfl)
        have := h.issued u hu id hold
        have := (hwaits id hid).1
        omega
    simp only [ht]
    refine @Inv.update Data settings s h e { x with phase := .writing t } _ s.handled ?_
      (fun _ hm => hm)
      ⟨hok.delivered, hok.targeted, ⟨?_, ?_, hmade⟩, fun id hid => ⟨?_, fun u hu hold => ?_⟩⟩
      (fun u hu id hid f y v hf hy hphase' hold => ?_) (fun _ hm => .inl hm)
    · split <;> omega
    · rw [← ht]
      rfl
    · rw [← ht]
      rfl
    · have hid' := hwaits id hid
      simp only [hid'.2, if_true]
      omega
    · have := h.issued u hu id hold
      have := (hwaits id hid).1
      omega
    · have hy' := (h.executions f y hy).phase
      rw [hphase'] at hy'
      have := (hy'.2 id hold).1
      obtain rfl : t = u := Phase.writing.inj hu
      have := (hwaits id hid).1
      omega

/-! ## Writing -/

theorem Inv.storable (h : Inv settings s) (hx : s.executions e = some x) {t : Transition Data}
    (hphase : x.phase = .writing t) (hbefore : s.runs t.runId = t.before) :
    Storable settings (s.setPhase e x .threw) t := by
  have hok := (h.executions e x hx).phase
  rw [hphase] at hok
  refine ⟨hok.1.2.2, hbefore, fun id hid => (hok.2 id hid).1, fun id hid => (hok.2 id hid).2, ?_⟩
  intro id hid f y u hf hy
  rcases put_eq_some_iff _ _ |>.mp hf with ⟨_, rfl⟩ | ⟨hne, hf⟩
  · cases hy
  · exact h.fresh e f x y t u hx hphase hf hy (Ne.symm hne) id hid

theorem Inv.stored_threw (h : Inv settings s) (hx : s.executions e = some x)
    {t : Transition Data} (hphase : x.phase = .writing t) (hbefore : s.runs t.runId = t.before) :
    Inv settings ((s.store t).setPhase e x .threw) :=
  (h.threw hx).store (h.storable hx hphase hbefore)

/-- The run that was written is waited for as the execution invokes it. -/
theorem Inv.afterWrite (h : Inv settings s) (hx : s.executions e = some x)
    {t : Transition Data} (hphase : x.phase = .writing t) (hbefore : s.runs t.runId = t.before) :
    Inv settings ((s.store t).afterWrite e x t.after) := by
  have hok := (h.executions e x hx).phase
  rw [hphase] at hok
  obtain ⟨⟨hrunId, hkey, _⟩, _⟩ := hok
  have hstored := h.stored_threw hx hphase hbefore
  have hclosed := (h.storable hx hphase hbefore).closed
  have hexecution : ((s.store t).setPhase e x .threw).executions e =
      some { x with phase := .threw } := put_self _ _ _
  have hself : ∀ run, put s.runs t.runId (some t.after) x.runId = some run → run = t.after := by
    intro run hrun
    rw [hrunId, put_self, Option.some.injEq] at hrun
    exact hrun.symm
  unfold System.afterWrite
  cases hwaiting : t.after.waitingFor with
  | some waiting =>
    have hinv := @Inv.setPhase Data settings _ e _ hstored hexecution
      (.invoking waiting t.after.step (resultOf x.key t.after)) ?_ (by simp)
    · simpa [System.setPhase, System.store] using hinv
    · refine ⟨⟨t, List.mem_append_right _ (List.mem_singleton_self t), hrunId, hwaiting, rfl⟩, ?_, ?_⟩
      · exact hrunId ▸ hkey ▸ hclosed
      · intro run other hrun _ hother
        obtain rfl := hself run hrun
        rw [hwaiting, Option.some.injEq] at hother
        exact ⟨hother.symm, rfl⟩
  | none =>
    have hinv := @Inv.finish Data settings _ e _ hstored hexecution (resultOf x.key t.after) ?_
    · simpa [System.finish, System.setPhase, System.store] using hinv
    · refine ⟨hrunId ▸ hkey ▸ hclosed, fun run waiting hrun _ hwaits => ?_⟩
      obtain rfl := hself run hrun
      rw [hwaiting] at hwaits
      cases hwaits

/-! ## Invoking -/

/-- The invocation of a stored run is made. -/
theorem Inv.makeInvocation (h : Inv settings s) {waiting : WaitingFor Data} {step : Nat}
    (hstored : ∃ t ∈ s.history, t.runId = x.runId ∧ t.after.waitingFor = some waiting ∧
      t.after.step = step) :
    Inv settings (s.makeInvocation settings.workflow x waiting step) := by
  refine { h with
    invocations := ?_
    executions := ?_
    handled := ?_ }
  · intro i hi
    rcases List.mem_append.mp hi with hi | hi
    · exact h.invocations i hi
    · obtain ⟨t, ht, hid, hwaiting, hstep⟩ := hstored
      exact ⟨t, ht, waiting, hwaiting, by rw [List.mem_singleton.mp hi, hid, hstep]⟩
  · exact fun f y hf => (h.executions f y hf).transfer (s := s) rfl rfl rfl rfl
  · intro m content r key hm hcontent htarget
    have hsettled := h.handled m content r key hm hcontent htarget
    refine ⟨hsettled.closed, fun run other hrun htrigger hother => ?_⟩
    exact List.mem_append_left _ (hsettled.invoked run other hrun htrigger hother)

theorem Inv.invoke (h : Inv settings s) (hx : s.executions e = some x)
    {waiting : WaitingFor Data} {step : Nat} {result : StepResult}
    (hphase : x.phase = .invoking waiting step result) :
    Inv settings ((s.makeInvocation settings.workflow x waiting step).finish e x result) := by
  have hok := (h.executions e x hx).phase
  rw [hphase] at hok
  obtain ⟨hstored, hclosed, hsame⟩ := hok
  refine (h.makeInvocation hstored).finish hx ⟨hclosed, fun run other hrun htrigger hother => ?_⟩
  obtain ⟨rfl, rfl⟩ := hsame run other hrun htrigger hother
  exact List.mem_append_right _ (List.mem_singleton_self _)

/-! ## Failures and deliveries -/

theorem Inv.remove (h : Inv settings s) {m : Nat} (hm : s.handled m = true) :
    Inv settings { s with removed := fun n => if n = m then true else s.removed n } := by
  refine { h with
    executions := fun f y hf => (h.executions f y hf).transfer (s := s) rfl rfl rfl rfl
    handled := fun n content r key hn hcontent htarget =>
      ⟨(h.handled n content r key hn hcontent htarget).closed,
        (h.handled n content r key hn hcontent htarget).invoked⟩
    removed := fun n hn => ?_ }
  by_cases hnm : n = m
  · exact hnm ▸ hm
  · exact h.removed n (by simpa [hnm] using hn)

variable {s' : System Data}

theorem Inv.startExecution (h : Inv settings s) {m : Nat}
    (hstep : s.startExecution settings.workflow e m = some s') : Inv settings s' := by
  unfold System.startExecution at hstep
  cases hm : s.messages m with
  | none => simp [hm] at hstep
  | some content =>
    simp only [hm] at hstep
    by_cases hbusy : ((s.executions e).isSome || s.removed m) = true
    · rw [if_pos hbusy] at hstep
      cases hstep
    · rw [if_neg hbusy] at hstep
      cases htarget : target settings.workflow content with
      | none =>
        simp only [htarget, Option.some.injEq] at hstep
        subst hstep
        refine { h with
          executions := fun f y hf => (h.executions f y hf).transfer (s := s) rfl rfl rfl rfl
          handled := ?_
          known := ?_
          removed := ?_ }
        · intro n body r key hn hbody hr
          by_cases hnm : n = m
          · rw [hnm, hm, Option.some.injEq] at hbody
            rw [← hbody, htarget] at hr
            cases hr
          · have hn : s.handled n = true := by simpa [hnm] using hn
            exact ⟨(h.handled n body r key hn hbody hr).closed,
              (h.handled n body r key hn hbody hr).invoked⟩
        · intro n hn
          by_cases hnm : n = m
          · exact ⟨content, hnm ▸ hm⟩
          · exact h.known n (by simpa [hnm] using hn)
        · intro n hn
          have := h.removed n hn
          by_cases hnm : n = m <;> simp [hnm, this]
      | some keyed =>
        obtain ⟨r, key⟩ := keyed
        simp only [htarget, Option.some.injEq] at hstep
        subst hstep
        exact @Inv.update Data settings s h _ _ s.nextId s.handled (Nat.le_refl _) (fun _ hn => hn)
          ⟨hm, htarget, trivial⟩ (fun t ht => by cases ht) (fun _ hn => .inl hn)

variable [DecidableEq Data]

theorem Inv.failAt (h : Inv settings s) (hx : s.executions e = some x) {applied : Bool}
    (hstep : s.failAt settings e x applied = some s') : Inv settings s' := by
  have hok := (h.executions e x hx).phase
  unfold System.failAt at hstep
  cases hphase : x.phase with
  | reading | handling stored request =>
    simp only [hphase, Option.some.injEq] at hstep
    exact hstep ▸ h.threw hx
  | writing t =>
    simp only [hphase] at hstep
    by_cases hbefore : s.runs t.runId = t.before
    · cases applied with
      | true =>
        simp only [hbefore, decide_true, Bool.and_self, if_true, Option.some.injEq] at hstep
        exact hstep ▸ h.stored_threw hx hphase hbefore
      | false =>
        simp only [Bool.false_and, Bool.false_eq_true, if_false, Option.some.injEq] at hstep
        exact hstep ▸ h.threw hx
    · simp only [hbefore, decide_false, Bool.and_false, Bool.false_eq_true, if_false,
        Option.some.injEq] at hstep
      exact hstep ▸ h.threw hx
  | invoking waiting step result =>
    rw [hphase] at hok
    simp only [hphase] at hstep
    cases applied with
    | true =>
      simp only [if_true, Option.some.injEq] at hstep
      exact hstep ▸ (h.makeInvocation hok.1).threw hx
    | false =>
      simp only [Bool.false_eq_true, if_false, Option.some.injEq] at hstep
      exact hstep ▸ h.threw hx
  | returned result | threw => simp [hphase] at hstep

theorem Inv.writeRun (h : Inv settings s) (hx : s.executions e = some x) {t : Transition Data}
    (hphase : x.phase = .writing t) : Inv settings (s.writeRun e x t) := by
  unfold System.writeRun
  by_cases hbefore : s.runs t.runId = t.before
  · rw [if_pos hbefore]
    exact h.afterWrite hx hphase hbefore
  · rw [if_neg hbefore]
    exact h.threw hx

end Phases

/-! ## Every step -/

section Step

variable [DecidableEq Data] {s' : System Data}

/-- An event of an execution happens to one that is there, in the phase it is about. -/
theorem step_execution {event : SystemEvent Data} {e : Nat}
    (hevent : event = .read e ∨ (∃ call now, event = .handle e call now) ∨ event = .write e ∨
      event = .invoke e ∨ ∃ applied, event = .fail e applied)
    (hstep : s.step settings event = some s') : ∃ x, s.executions e = some x := by
  rcases hevent with rfl | ⟨call, now, rfl⟩ | rfl | rfl | ⟨applied, rfl⟩ <;>
    · cases hx : s.executions e with
      | none => simp [System.step, hx] at hstep
      | some x => exact ⟨x, rfl⟩

theorem Inv.step (h : Inv settings s) {event : SystemEvent Data}
    (hstep : s.step settings event = some s') : Inv settings s' := by
  cases event with
  | send m runId input =>
    refine h.sendMessage (fun r id htarget => ?_) hstep
    simp [target] at htarget
  | answer m i agent payload =>
    simp only [System.step] at hstep
    cases hi : s.invocations[i]? with
    | none => simp [hi] at hstep
    | some invocation =>
      simp only [hi] at hstep
      refine h.sendMessage (fun r id htarget => ?_) hstep
      obtain ⟨t, ht, waiting, hwaiting, heq⟩ := h.invocations _ (List.mem_of_getElem? hi)
      obtain ⟨hkey, hcorrelation⟩ := target_result htarget
      simp only [Key.result.injEq] at hkey
      simp only [Correlation.fields.injEq, Option.some.injEq] at hcorrelation
      refine ⟨t, ht, ?_, waiting, hwaiting, ?_⟩
      · rw [← hcorrelation.2, heq]
        rfl
      · rw [hkey, heq]
        rfl
  | foreign m reply =>
    simp only [System.step] at hstep
    split at hstep
    · cases hstep
    · rename_i hforeign
      refine h.sendMessage (fun r id htarget => ?_) hstep
      simp [htarget] at hforeign
  | deliver e m => exact h.startExecution hstep
  | read e =>
    obtain ⟨x, hx⟩ := step_execution (.inl rfl) hstep
    cases hphase : x.phase <;> simp [System.step, hx, hphase] at hstep
    exact hstep ▸ h.readRun hx
  | handle e call now =>
    obtain ⟨x, hx⟩ := step_execution (.inr (.inl ⟨call, now, rfl⟩)) hstep
    cases hphase : x.phase <;> simp [System.step, hx, hphase] at hstep
    exact hstep ▸ h.handleRequest hx hphase call now
  | write e =>
    obtain ⟨x, hx⟩ := step_execution (.inr (.inr (.inl rfl))) hstep
    cases hphase : x.phase <;> simp [System.step, hx, hphase] at hstep
    exact hstep ▸ h.writeRun hx hphase
  | invoke e =>
    obtain ⟨x, hx⟩ := step_execution (.inr (.inr (.inr (.inl rfl)))) hstep
    cases hphase : x.phase <;> simp [System.step, hx, hphase] at hstep
    exact hstep ▸ h.invoke hx hphase
  | fail e applied =>
    obtain ⟨x, hx⟩ := step_execution (.inr (.inr (.inr (.inr ⟨applied, rfl⟩)))) hstep
    simp only [System.step, hx] at hstep
    exact h.failAt hx hstep
  | remove m =>
    simp only [System.step] at hstep
    split at hstep
    · rename_i hm
      exact Option.some.inj hstep ▸ h.remove hm
    · cases hstep

/-- The invariant holds after every run. -/
theorem inv_of_reachable (h : (machine settings).Reachable s) : Inv settings s :=
  h.invariant (Inv.init settings) fun _ _ _ hs hstep => hs.step hstep

end Step

end Ez4.Agent.Workflow

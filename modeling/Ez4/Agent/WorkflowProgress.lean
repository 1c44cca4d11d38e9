import Ez4.Agent.WorkflowSteps

/-! # A workflow run advances once per result

What every run of the machine keeps: the states of a workflow run form one
chain, each made from a message that no other one was made from, and a run that
waits for an agent was invoked or will be by a message that is still there. -/
namespace Ez4.Agent.Workflow
open Ez4.Library

variable {Data : Type} {settings : Settings Data} {s : System Data}

/-! ## What a step adds -/

section Shared

variable {s' : System Data}

/-- What is stored and invoked only grows, and not both in one step. -/
structure Grows (s s' : System Data) : Prop where
  history : s.history <+: s'.history
  apart : s'.history = s.history ∨ s'.invocations = s.invocations

theorem Grows.of_same (hhistory : s'.history = s.history) : Grows s s' :=
  ⟨hhistory ▸ List.prefix_refl _, .inl hhistory⟩

theorem grows_readRun (e : Nat) (x : Execution Data) : Grows s (s.readRun e x) := by
  refine .of_same ?_
  unfold System.readRun
  split <;> rfl

theorem grows_handleRequest (e : Nat) (x : Execution Data) (stored : Option (WorkflowRun Data))
    (request : Request Data) (call : Nat) (now : Times) :
    Grows s (s.handleRequest settings e x stored request call now) := by
  refine .of_same ?_
  unfold System.handleRequest
  split <;> rfl

theorem grows_sendMessage {m : Nat} {content : Message Data}
    (hstep : s.sendMessage m content = some s') : Grows s s' := by
  unfold System.sendMessage at hstep
  split at hstep
  · cases hstep
  · exact .of_same (Option.some.inj hstep ▸ rfl)

theorem grows_startExecution {workflow : String} {e m : Nat}
    (hstep : s.startExecution workflow e m = some s') : Grows s s' := by
  unfold System.startExecution at hstep
  refine .of_same ?_
  split at hstep
  · cases hstep
  · split at hstep
    · cases hstep
    · split at hstep <;> exact Option.some.inj hstep ▸ rfl

variable [DecidableEq Data]

theorem grows_writeRun (e : Nat) (x : Execution Data) (t : Transition Data) :
    Grows s (s.writeRun e x t) := by
  unfold System.writeRun
  split
  · unfold System.afterWrite
    split <;> exact ⟨List.prefix_append _ _, .inr rfl⟩
  · exact .of_same rfl

theorem grows_failAt {e : Nat} {x : Execution Data} {applied : Bool}
    (hstep : s.failAt settings e x applied = some s') : Grows s s' := by
  unfold System.failAt at hstep
  cases hphase : x.phase with
  | reading | handling stored request =>
    simp only [hphase, Option.some.injEq] at hstep
    exact .of_same (hstep ▸ rfl)
  | writing t =>
    simp only [hphase] at hstep
    split at hstep
    · exact Option.some.inj hstep ▸ ⟨List.prefix_append _ _, .inr rfl⟩
    · exact .of_same (Option.some.inj hstep ▸ rfl)
  | invoking waiting step result =>
    simp only [hphase] at hstep
    split at hstep <;> exact .of_same (Option.some.inj hstep ▸ rfl)
  | returned result | threw => simp [hphase] at hstep

theorem grows_step {event : SystemEvent Data} (hstep : s.step settings event = some s') :
    Grows s s' := by
  cases event with
  | send m runId input => exact grows_sendMessage hstep
  | answer m i agent payload =>
    simp only [System.step] at hstep
    split at hstep
    · cases hstep
    · exact grows_sendMessage hstep
  | foreign m reply =>
    simp only [System.step] at hstep
    split at hstep
    · cases hstep
    · exact grows_sendMessage hstep
  | deliver e m => exact grows_startExecution hstep
  | read e =>
    obtain ⟨x, hx⟩ := step_execution (.inl rfl) hstep
    cases hphase : x.phase <;> simp [System.step, hx, hphase] at hstep
    exact hstep ▸ grows_readRun e x
  | handle e call now =>
    obtain ⟨x, hx⟩ := step_execution (.inr (.inl ⟨call, now, rfl⟩)) hstep
    cases hphase : x.phase <;> simp [System.step, hx, hphase] at hstep
    exact hstep ▸ grows_handleRequest e x _ _ call now
  | write e =>
    obtain ⟨x, hx⟩ := step_execution (.inr (.inr (.inl rfl))) hstep
    cases hphase : x.phase <;> simp [System.step, hx, hphase] at hstep
    exact hstep ▸ grows_writeRun e x _
  | invoke e =>
    obtain ⟨x, hx⟩ := step_execution (.inr (.inr (.inr (.inl rfl)))) hstep
    cases hphase : x.phase <;> simp [System.step, hx, hphase] at hstep
    exact .of_same (hstep ▸ rfl)
  | fail e applied =>
    obtain ⟨x, hx⟩ := step_execution (.inr (.inr (.inr (.inr ⟨applied, rfl⟩)))) hstep
    simp only [System.step, hx] at hstep
    exact grows_failAt hstep
  | remove m =>
    simp only [System.step] at hstep
    split at hstep
    · exact .of_same (Option.some.inj hstep ▸ rfl)
    · cases hstep

theorem prefix_of_run {events : List (SystemEvent Data)}
    (hrun : (machine settings).run events s = some s') : s.history <+: s'.history :=
  Machine.run_invariant (I := fun u => s.history <+: u.history)
    (fun _ _ _ hu hstep => hu.trans (grows_step hstep).history) (List.prefix_refl _) hrun

end Shared

/-! ## What the runs are -/

section Runs

/-- The writes of a run. -/
def historyOf (s : System Data) (runId : String) : List (Transition Data) :=
  s.history.filter fun t => t.runId = runId

theorem Chain.of_append {first last : Option (WorkflowRun Data)} {ts us : List (Transition Data)}
    (h : Chain first (ts ++ us) last) {middle : Option (WorkflowRun Data)}
    (hts : Chain first ts middle) : Chain middle us last := by
  induction ts generalizing first with
  | nil => exact hts ▸ h
  | cons t rest ih => exact ih h.2 hts.2

/-- A finished run is the last one of its chain. -/
theorem Inv.finished_kept (h : Inv settings s) {s' : System Data} (h' : Inv settings s')
    (hhistory : s.history <+: s'.history) {runId : String} {run : WorkflowRun Data}
    (hrun : s.runs runId = some run) (hfinished : run.finished = true) :
    s'.runs runId = some run := by
  obtain ⟨more, hmore⟩ := hhistory
  have hchain := h'.chain runId
  rw [← hmore, List.filter_append] at hchain
  have hrest := hchain.of_append (h.chain runId)
  cases hfilter : more.filter fun t => t.runId = runId with
  | nil =>
    rw [hfilter] at hrest
    exact hrest.symm.trans hrun
  | cons t rest =>
    rw [hfilter] at hrest
    have ht : t ∈ s'.history := by
      rw [← hmore]
      refine List.mem_append_right _ (List.mem_of_mem_filter (p := fun t => t.runId = runId) ?_)
      rw [hfilter]
      exact List.mem_cons_self
    obtain ⟨content, _, hhandles⟩ := (h'.made t ht).handles
    have hbefore : t.before = some run := hrest.1.trans hrun
    rw [hbefore] at hhandles
    cases hhandles with
    | result _ _ hrunning _ _ => simp [WorkflowRun.finished, hrunning] at hfinished

/-- The number of steps of a stored run. -/
def stepOf (stored : Option (WorkflowRun Data)) : Nat := (stored.map WorkflowRun.step).getD 0

/-- A step is counted for an invocation, and for nothing else. -/
structure Counted (maxSteps : Nat) (t : Transition Data) : Prop where
  running : t.after.status = .running → t.after.step = stepOf t.before + 1 ∧
    ∃ waiting, t.after.waitingFor = some waiting
  finished : t.after.finished = true → t.after.step = stepOf t.before ∧ t.after.waitingFor = none
  bounded : t.after.step ≤ maxSteps

theorem Made.step_le {messages : Nat → Option (Message Data)} {t : Transition Data}
    (h : Made settings messages t) (hbefore : stepOf t.before ≤ settings.maxSteps) :
    t.after.step ≤ settings.maxSteps := by
  obtain ⟨newId, hnext⟩ := h.nextRun
  cases hnext with
  | completed _ _ _ hstep => exact hstep ▸ hbefore
  | failed _ _ _ _ hstep => exact hstep ▸ hbefore
  | running _ hmax _ _ hstep => exact hstep ▸ hmax

theorem Inv.counted (h : Inv settings s) {t : Transition Data} (ht : t ∈ s.history) :
    Counted settings.maxSteps t := by
  have hmade := h.made t ht
  obtain ⟨newId, hnext⟩ := hmade.nextRun
  refine ⟨fun hrunning => ?_, fun hfinished => ?_, ?_⟩
  · cases hnext with
    | completed _ hstatus _ _ => rw [hstatus] at hrunning; cases hrunning
    | failed _ _ hstatus _ _ => rw [hstatus] at hrunning; cases hrunning
    | running _ _ _ hwaiting hstep => exact ⟨hstep, _, hwaiting⟩
  · cases hnext with
    | completed _ _ hwaiting hstep => exact ⟨hstep, hwaiting⟩
    | failed _ _ _ hwaiting hstep => exact ⟨hstep, hwaiting⟩
    | running _ _ hstatus _ _ => simp [WorkflowRun.finished, hstatus] at hfinished
  · have hbounded := ((h.chain t.runId).forall_after
      (P := fun stored => stepOf stored ≤ settings.maxSteps) (Nat.zero_le _)
      fun u hu hbefore => (h.made u (List.mem_of_mem_filter hu)).step_le hbefore).1
    exact (hbounded t (List.mem_filter.mpr ⟨ht, by simp⟩)).2

/-- What a transition was computed from. -/
structure Computed (settings : Settings Data) (s : System Data) (t : Transition Data) : Prop where
  /-- A start of a run that isn't there, or the result that the run waits for. -/
  message : ∃ content, s.messages t.message = some content ∧
    target settings.workflow content = some (t.runId, t.key) ∧ Handles content t.key t.before ∧
    t.request =
      { runId := t.runId, step := stepOf t.before, state := t.before.map WorkflowRun.state,
        event := requestEvent content.event (t.before.bind WorkflowRun.waitingFor) }
  answered : ∃ call, settings.handler call t.request = some t.answer
  after : ∃ newId now, t.after =
    nextRun settings.maxSteps t.runId t.key t.before t.answer newId now

theorem request_of_decideStep {content : Message Data} {runId : String} {key : Key}
    {stored : Option (WorkflowRun Data)} {request : Request Data}
    (h : decideStep content runId key stored = .handle request) :
    request =
      { runId, step := stepOf stored, state := stored.map WorkflowRun.state,
        event := requestEvent content.event (stored.bind WorkflowRun.waitingFor) } := by
  cases stored with
  | none =>
    cases content with
    | start r input =>
      simp only [decideStep, Message.result?, Option.isSome_none, Bool.false_eq_true, if_false,
        Decision.handle.injEq] at h
      exact h.symm
    | result reply => simp [decideStep, Message.result?] at h
  | some run =>
    cases hf : run.finished with
    | true => simp [decideStep, hf] at h
    | false =>
      simp only [decideStep, hf, Bool.false_eq_true, if_false] at h
      cases hr : reinvocation run key with
      | some waiting => simp [hr] at h
      | none =>
        cases content with
        | start r input => simp [hr, Message.result?] at h
        | result reply =>
          simp only [hr, Message.result?] at h
          by_cases hid : run.waitingFor.map WaitingFor.id ≠ some reply.id
          · rw [if_pos hid] at h
            cases h
          · rw [if_neg hid, Decision.handle.injEq] at h
            exact h.symm

theorem Inv.computed (h : Inv settings s) {t : Transition Data} (ht : t ∈ s.history) :
    Computed settings s t := by
  have hmade := h.made t ht
  obtain ⟨content, hm, htarget, hdecide⟩ := hmade.delivered
  exact ⟨⟨content, hm, htarget, handles_of_decideStep htarget hdecide,
    request_of_decideStep hdecide⟩, hmade.answered, hmade.computed⟩

/-- A message that a delivery would invoke the agent of the run for. -/
structure Recovers (settings : Settings Data) (s : System Data) (run : WorkflowRun Data)
    (runId : String) (waiting : WaitingFor Data) (m : Nat) : Prop where
  kept : s.removed m = false
  delivered : ∃ content, s.messages m = some content ∧
    target settings.workflow content = some (runId, run.trigger) ∧
    decideStep content runId run.trigger (some run) = .reinvoke waiting run.step

/-- A run that waits for an agent was invoked, or will be by the message that
brought it there. -/
theorem Inv.recovers (h : Inv settings s) {runId : String} {run : WorkflowRun Data}
    (hrun : s.runs runId = some run) (hrunning : run.status = .running) :
    ∃ waiting, run.waitingFor = some waiting ∧
      (invocationOf settings.workflow runId waiting run.step ∈ s.invocations ∨
        ∃ m, Recovers settings s run runId waiting m) := by
  obtain ⟨t, ht, rfl, rfl⟩ := h.stored hrun
  obtain ⟨_, waiting, hwaiting⟩ := (h.counted ht).running hrunning
  refine ⟨waiting, hwaiting, ?_⟩
  obtain ⟨content, hm, htarget, _⟩ := (h.made t ht).delivered
  have htrigger := (h.made t ht).trigger
  cases hremoved : s.removed t.message with
  | true =>
    have hsettled := h.handled _ content _ _ (h.removed _ hremoved) hm htarget
    exact .inl (hsettled.invoked _ waiting hrun htrigger hwaiting)
  | false =>
    refine .inr ⟨t.message, hremoved, content, hm, htrigger ▸ htarget, ?_⟩
    have hfinished : t.after.finished = false := by simp [WorkflowRun.finished, hrunning]
    have hreinvocation : reinvocation t.after t.after.trigger = some waiting :=
      reinvocation_eq_some.mpr ⟨rfl, hwaiting⟩
    simp [decideStep, hfinished, hreinvocation]

end Runs

/-! ## Every run -/

/-- **A workflow run advances once per result, and a waiting one is invoked.** -/
theorem workflow_advances_once [DecidableEq Data] (h : (machine settings).Reachable s) :
    (∀ runId, Chain none (historyOf s runId) (s.runs runId)) ∧
    (∀ t ∈ s.history, Computed settings s t) ∧
    (s.history.Pairwise fun t u => ∀ id, t.key = .result id → u.key ≠ .result id) ∧
    (∀ t ∈ s.history, Counted settings.maxSteps t) ∧
    (∀ events s' runId run, (machine settings).run events s = some s' →
      s.runs runId = some run → run.finished = true → s'.runs runId = some run) ∧
    (∀ event s', (machine settings).step s event = some s' → ∀ i ∈ s'.invocations,
      ∃ t ∈ s.history, ∃ waiting, t.after.waitingFor = some waiting ∧
        i = invocationOf settings.workflow t.runId waiting t.after.step) ∧
    (∀ runId run, s.runs runId = some run → run.status = .running →
      ∃ waiting, run.waitingFor = some waiting ∧
        (invocationOf settings.workflow runId waiting run.step ∈ s.invocations ∨
          ∃ m, Recovers settings s run runId waiting m)) := by
  have hinv := inv_of_reachable h
  refine ⟨hinv.chain, fun t ht => hinv.computed ht, hinv.usedOnce, fun t ht => hinv.counted ht,
    ?_, ?_, fun runId run hrun hrunning => hinv.recovers hrun hrunning⟩
  · intro events s' runId run hrun hstored hfinished
    have hinv' : Inv settings s' :=
      Machine.run_invariant (fun _ _ _ hu hstep => hu.step hstep) hinv hrun
    exact hinv.finished_kept hinv' (prefix_of_run hrun) hstored hfinished
  · intro event s' hstep i hi
    rcases (grows_step hstep).apart with hhistory | hinvocations
    · rw [← hhistory]
      exact (hinv.step hstep).invocations i hi
    · exact hinv.invocations i (hinvocations ▸ hi)

/-! ### A crash between the write and the invocation -/

/-- One invocation, then complete. -/
def twoSteps : Settings Nat where
  workflow := "Loop"
  maxSteps := 3
  handler _ request := match request.event with
    | .start _ => some ⟨0, .invoke "worker" 1 none⟩
    | .result _ _ => some ⟨1, .complete 7 none⟩

/-- The first execution stops after its write; the message is delivered again,
and the result of the invocation twice. -/
def crashAndRecovery : List (SystemEvent Nat) :=
  [.send 0 "r1" 5, .deliver 0 0, .read 0, .handle 0 0 ⟨10, 10⟩, .write 0, .fail 0 false,
    .deliver 1 0, .read 1, .invoke 1, .remove 0, .answer 1 0 "worker" 9, .deliver 2 1,
    .deliver 3 1, .read 2, .read 3, .handle 2 1 ⟨11, 12⟩, .handle 3 2 ⟨11, 13⟩, .write 2, .write 3,
    .remove 1]

def recovered : System Nat := ((machine twoSteps).run crashAndRecovery {}).getD {}

theorem recovered_advances :
    (recovered.runs "r1").map WorkflowRun.status = some .completed ∧
      recovered.invocations.length = 1 ∧
      recovered.history.Pairwise fun t u => ∀ id, t.key = .result id → u.key ≠ .result id := by
  have h : (machine twoSteps).Reachable recovered := ⟨crashAndRecovery, rfl⟩
  exact ⟨by decide, by decide, (workflow_advances_once h).2.2.1⟩

end Ez4.Agent.Workflow

import Ez4.Agent.Workflow

/-! # What the executions of a workflow keep

The runs that were stored form a chain, and a key that no stored run waits for
any more is used by no later write. -/
namespace Ez4.Agent.Workflow
open Ez4.Library

variable {Data : Type}

/-! ## The rules -/

section Rules

variable {workflow runId : String} {key : Key} {content : Message Data} {reply : AgentResult Data}
  {run : WorkflowRun Data} {stored : Option (WorkflowRun Data)} {request : Request Data}

theorem target_result (h : target workflow (.result reply) = some (runId, key)) :
    key = .result reply.id ∧ reply.correlation = .fields (some workflow) (some runId) := by
  unfold target at h
  cases hc : reply.correlation with
  | missing | unparsable | notAnObject => simp [hc] at h
  | fields name? runId? =>
    cases name? with
    | none => simp [hc] at h
    | some name =>
      cases runId? with
      | none => simp [hc] at h
      | some id =>
        by_cases hname : name = workflow ∧ id ≠ ""
        · simp only [hc, if_pos hname, Option.some.injEq, Prod.mk.injEq] at h
          exact ⟨h.2.symm, by rw [hname.1, h.1]⟩
        · simp [hc, if_neg hname] at h

theorem reinvocation_eq_some {waiting : WaitingFor Data} :
    reinvocation run key = some waiting ↔ run.trigger = key ∧ run.waitingFor = some waiting := by
  unfold reinvocation
  by_cases hkey : run.trigger = key <;> simp [hkey]

/-- A request is made for a start without a run, or for the result that a
running run waits for. -/
inductive Handles (content : Message Data) (key : Key) : Option (WorkflowRun Data) → Prop
  | start {runId : String} {input : Data} (h : content = .start runId input) (hkey : key = .start) :
    Handles content key none
  | result {reply : AgentResult Data} {run : WorkflowRun Data} {waiting : WaitingFor Data}
    (h : content = .result reply) (hkey : key = .result reply.id) (hrunning : run.status = .running)
    (hwaiting : run.waitingFor = some waiting) (hid : waiting.id = reply.id) :
    Handles content key (some run)

theorem handles_of_decideStep (htarget : target workflow content = some (runId, key))
    (h : decideStep content runId key stored = .handle request) : Handles content key stored := by
  cases stored with
  | none =>
    cases content with
    | start r input =>
      simp only [target, Option.some.injEq, Prod.mk.injEq] at htarget
      exact .start rfl htarget.2.symm
    | result reply => simp [decideStep, Message.result?] at h
  | some run =>
    have hfinished : run.finished = false := by
      cases hf : run.finished with
      | false => rfl
      | true => simp [decideStep, hf] at h
    have hrunning : run.status = .running := by
      cases hs : run.status <;> simp [WorkflowRun.finished, hs] at hfinished ⊢
    simp only [decideStep, hfinished, Bool.false_eq_true, if_false] at h
    cases hr : reinvocation run key with
    | some waiting => simp [hr] at h
    | none =>
      cases content with
      | start r input => simp [hr, Message.result?] at h
      | result reply =>
        simp only [hr, Message.result?] at h
        by_cases hid : run.waitingFor.map WaitingFor.id ≠ some reply.id
        · rw [if_pos hid] at h
          cases h
        · obtain ⟨waiting, hwaiting, heq⟩ := Option.map_eq_some_iff.mp (not_not.mp hid)
          exact .result rfl (target_result htarget).1 hrunning hwaiting heq

/-- Where an ignored message leaves the run that is stored: finished, or brought
there by another key and waiting for another result. -/
theorem ignored_of_decideStep (h : decideStep content runId key stored = .ignored) :
    (stored = none ∧ ∃ reply, content = .result reply) ∨
    ∃ run, stored = some run ∧ (run.finished = true ∨
      reinvocation run key = none ∧
        ∀ reply, content = .result reply → run.waitingFor.map WaitingFor.id ≠ some reply.id) := by
  cases stored with
  | none =>
    cases content with
    | start r input => simp [decideStep, Message.result?] at h
    | result reply => exact .inl ⟨rfl, reply, rfl⟩
  | some run =>
    refine .inr ⟨run, rfl, ?_⟩
    cases hf : run.finished with
    | true => exact .inl rfl
    | false =>
      simp only [decideStep, hf, Bool.false_eq_true, if_false] at h
      cases hr : reinvocation run key with
      | some waiting => simp [hr] at h
      | none =>
        refine .inr ⟨rfl, fun reply hreply => ?_⟩
        intro hid
        simp [hreply, hr, Message.result?, hid] at h

theorem reinvoke_of_decideStep {waiting : WaitingFor Data} {step : Nat}
    (h : decideStep content runId key stored = .reinvoke waiting step) :
    ∃ run, stored = some run ∧ run.trigger = key ∧ run.waitingFor = some waiting ∧
      run.step = step := by
  cases stored with
  | none => cases content <;> simp [decideStep, Message.result?] at h
  | some run =>
    cases hf : run.finished with
    | true => simp [decideStep, hf] at h
    | false =>
      simp only [decideStep, hf, Bool.false_eq_true, if_false] at h
      cases hr : reinvocation run key with
      | none =>
        cases content with
        | start r input => simp [hr, Message.result?] at h
        | result reply =>
          by_cases hid : run.waitingFor.map WaitingFor.id ≠ some reply.id <;>
            simp [hr, Message.result?, hid] at h
      | some other =>
        simp only [hr, Decision.reinvoke.injEq] at h
        obtain ⟨rfl, hstep⟩ := h
        obtain ⟨htrigger, hwaiting⟩ := reinvocation_eq_some.mp hr
        exact ⟨run, rfl, htrigger, hwaiting, hstep⟩

/-- What the next run is, by the answer and the number of steps. -/
inductive NextRun (maxSteps : Nat) (stored : Option (WorkflowRun Data)) (answer : Step Data)
    (newId : Nat) (run : WorkflowRun Data) : Prop
  | completed {outcome : Data} {reason : Option Data} (hnext : answer.next = .complete outcome reason)
    (hstatus : run.status = .completed) (hwaiting : run.waitingFor = none)
    (hstep : run.step = (stored.map WorkflowRun.step).getD 0)
  | failed {agent : String} {input : Data} {workspace : Option Data}
    (hnext : answer.next = .invoke agent input workspace)
    (hmax : maxSteps < (stored.map WorkflowRun.step).getD 0 + 1)
    (hstatus : run.status = .failed) (hwaiting : run.waitingFor = none)
    (hstep : run.step = (stored.map WorkflowRun.step).getD 0)
  | running {agent : String} {input : Data} {workspace : Option Data}
    (hnext : answer.next = .invoke agent input workspace)
    (hmax : (stored.map WorkflowRun.step).getD 0 + 1 ≤ maxSteps)
    (hstatus : run.status = .running)
    (hwaiting : run.waitingFor = some { agent, id := newId, input, workspace })
    (hstep : run.step = (stored.map WorkflowRun.step).getD 0 + 1)

theorem nextRun_cases (maxSteps : Nat) (runId : String) (key : Key)
    (stored : Option (WorkflowRun Data)) (answer : Step Data) (newId : Nat) (now : Times) :
    NextRun maxSteps stored answer newId
      (nextRun maxSteps runId key stored answer newId now) := by
  unfold nextRun
  cases hnext : answer.next with
  | complete outcome reason => exact .completed hnext rfl rfl rfl
  | invoke agent input workspace =>
    by_cases hmax : (stored.map WorkflowRun.step).getD 0 + 1 > maxSteps
    · simp only [if_pos hmax]
      exact .failed hnext hmax rfl rfl rfl
    · simp only [if_neg hmax]
      exact .running hnext (Nat.le_of_not_lt hmax) rfl rfl rfl

theorem nextRun_trigger (maxSteps : Nat) (runId : String) (key : Key)
    (stored : Option (WorkflowRun Data)) (answer : Step Data) (newId : Nat) (now : Times) :
    (nextRun maxSteps runId key stored answer newId now).trigger = key := by
  unfold nextRun
  cases answer.next with
  | complete outcome reason => rfl
  | invoke agent input workspace => simp only; split <;> rfl

end Rules

/-! ## Chains -/

/-- Each run was written over the one before it. -/
def Chain : Option (WorkflowRun Data) → List (Transition Data) → Option (WorkflowRun Data) → Prop
  | first, [], last => first = last
  | first, t :: rest, last => t.before = first ∧ Chain (some t.after) rest last

section Chains

variable {first last : Option (WorkflowRun Data)} {ts : List (Transition Data)} {t : Transition Data}

theorem Chain.append (h : Chain first ts last) (ht : t.before = last) :
    Chain first (ts ++ [t]) (some t.after) := by
  induction ts generalizing first with
  | nil => exact ⟨ht.trans h.symm, rfl⟩
  | cons u rest ih => exact ⟨h.1, ih h.2⟩

theorem Chain.ne_none (h : Chain first ts last) (ht : t ∈ ts) : last ≠ none := by
  have hsome : ∀ (ts : List (Transition Data)) (run : WorkflowRun Data),
      Chain (some run) ts last → last ≠ none := by
    intro ts
    induction ts with
    | nil => exact fun run h => h ▸ Option.some_ne_none run
    | cons u rest ih => exact fun run h => ih _ h.2
  cases ts with
  | nil => simp at ht
  | cons u rest => exact hsome rest _ h.2

/-- The last run of a chain is that of its last transition. -/
theorem Chain.exists_after (h : Chain none ts last) {run : WorkflowRun Data}
    (hrun : last = some run) : ∃ t ∈ ts, t.after = run := by
  have hgen : ∀ (ts : List (Transition Data)) (first : Option (WorkflowRun Data)),
      Chain first ts last → first = some run ∨ ∃ t ∈ ts, t.after = run := by
    intro ts
    induction ts with
    | nil => exact fun first h => .inl (h.trans hrun)
    | cons t rest ih =>
      intro first h
      rcases ih _ h.2 with hafter | ⟨u, hu, hafter⟩
      · exact .inr ⟨t, List.mem_cons_self, Option.some.inj hafter⟩
      · exact .inr ⟨u, List.mem_cons_of_mem _ hu, hafter⟩
  exact (hgen ts none h).resolve_left (by simp)

/-- What holds of a run written over one of which it holds, holds of every run. -/
theorem Chain.forall_after (h : Chain first ts last) {P : Option (WorkflowRun Data) → Prop}
    (hfirst : P first) (hstep : ∀ t ∈ ts, P t.before → P (some t.after)) :
    (∀ t ∈ ts, P t.before ∧ P (some t.after)) ∧ P last := by
  induction ts generalizing first with
  | nil => exact ⟨by simp, h ▸ hfirst⟩
  | cons t rest ih =>
    have ht : P t.before := h.1.symm ▸ hfirst
    have hafter := hstep t List.mem_cons_self ht
    obtain ⟨hrest, hlast⟩ := ih h.2 hafter fun u hu => hstep u (List.mem_cons_of_mem _ hu)
    refine ⟨fun u hu => ?_, hlast⟩
    rcases List.mem_cons.mp hu with rfl | hu
    · exact ⟨ht, hafter⟩
    · exact hrest u hu

end Chains

/-! ## The invariant -/

/-- The run of the transition waits for the id. -/
def Waits (t : Transition Data) (id : Nat) : Prop :=
  ∃ waiting, t.after.waitingFor = some waiting ∧ waiting.id = id

/-- The key can still lead to a write: its run isn't there yet, or waits for it. -/
def Pending (runs : String → Option (WorkflowRun Data)) (runId : String) : Key → Prop
  | .start => runs runId = none
  | .result id => ∃ run waiting, runs runId = some run ∧ run.waitingFor = some waiting ∧
      waiting.id = id

/-- A transition as the rules make it from a message, the run before it and an
answer of the handler. -/
structure Made (settings : Settings Data) (messages : Nat → Option (Message Data))
    (t : Transition Data) : Prop where
  delivered : ∃ content, messages t.message = some content ∧
    target settings.workflow content = some (t.runId, t.key) ∧
    decideStep content t.runId t.key t.before = .handle t.request
  answered : ∃ call, settings.handler call t.request = some t.answer
  computed : ∃ newId now, t.after =
    nextRun settings.maxSteps t.runId t.key t.before t.answer newId now
  ahead : ∀ id, Waits t id → t.key ≠ .result id

/-- Nothing is left to do for a message with the key. -/
structure Settled (settings : Settings Data) (s : System Data) (runId : String) (key : Key) :
    Prop where
  closed : ¬Pending s.runs runId key
  invoked : ∀ run waiting, s.runs runId = some run → run.trigger = key →
    run.waitingFor = some waiting →
      invocationOf settings.workflow runId waiting run.step ∈ s.invocations

/-- What an execution knows in each phase. -/
def PhaseOk (settings : Settings Data) (s : System Data) (x : Execution Data) :
    Phase Data → Prop
  | .handling stored request => decideStep x.content x.runId x.key stored = .handle request
  | .writing t =>
    (t.runId = x.runId ∧ t.key = x.key ∧ Made settings s.messages t) ∧
      ∀ id, Waits t id → id < s.nextId ∧ ∀ u ∈ s.history, ¬Waits u id
  | .invoking waiting step _ =>
    (∃ t ∈ s.history, t.runId = x.runId ∧ t.after.waitingFor = some waiting ∧
        t.after.step = step) ∧
      ¬Pending s.runs x.runId x.key ∧
      ∀ run other, s.runs x.runId = some run → run.trigger = x.key →
        run.waitingFor = some other → other = waiting ∧ run.step = step
  | .reading | .returned _ | .threw => True

structure ExecutionOk (settings : Settings Data) (s : System Data) (x : Execution Data) :
    Prop where
  delivered : s.messages x.message = some x.content
  targeted : target settings.workflow x.content = some (x.runId, x.key)
  phase : PhaseOk settings s x x.phase

theorem ExecutionOk.transfer {settings : Settings Data} {s s' : System Data} {x : Execution Data}
    (hmessages : s'.messages = s.messages) (hruns : s'.runs = s.runs)
    (hhistory : s'.history = s.history) (hnextId : s'.nextId = s.nextId)
    (h : ExecutionOk settings s x) : ExecutionOk settings s' x := by
  refine ⟨hmessages ▸ h.delivered, h.targeted, ?_⟩
  have hphase := h.phase
  cases hp : x.phase <;> rw [hp] at hphase <;>
    simp only [PhaseOk, hmessages, hruns, hhistory, hnextId] at hphase ⊢ <;> exact hphase

structure Inv (settings : Settings Data) (s : System Data) : Prop where
  chain : ∀ r, Chain none (s.history.filter fun t => t.runId = r) (s.runs r)
  made : ∀ t ∈ s.history, Made settings s.messages t
  issued : ∀ t ∈ s.history, ∀ id, Waits t id → id < s.nextId
  waitsOnce : s.history.Pairwise fun t u => ∀ id, Waits t id → ¬Waits u id
  used : ∀ t ∈ s.history, ¬Pending s.runs t.runId t.key
  usedOnce : s.history.Pairwise fun t u => ∀ id, t.key = .result id → u.key ≠ .result id
  invocations : ∀ i ∈ s.invocations, ∃ t ∈ s.history, ∃ waiting,
    t.after.waitingFor = some waiting ∧
      i = invocationOf settings.workflow t.runId waiting t.after.step
  /-- A result answers an invocation, so it names the run that waited for it. -/
  results : ∀ m content r id, s.messages m = some content →
    target settings.workflow content = some (r, .result id) →
      ∃ t ∈ s.history, t.runId = r ∧ Waits t id
  executions : ∀ e x, s.executions e = some x → ExecutionOk settings s x
  /-- Two executions don't write runs that wait for the same id. -/
  fresh : ∀ e f x y t u, s.executions e = some x → x.phase = .writing t →
    s.executions f = some y → y.phase = .writing u → e ≠ f → ∀ id, Waits t id → ¬Waits u id
  handled : ∀ m content r key, s.handled m = true → s.messages m = some content →
    target settings.workflow content = some (r, key) → Settled settings s r key
  known : ∀ m, s.handled m = true → ∃ content, s.messages m = some content
  removed : ∀ m, s.removed m = true → s.handled m = true

theorem Inv.init (settings : Settings Data) : Inv settings ({} : System Data) := by
  constructor <;> simp [Chain]

/-! ## Facts of a state -/

section Facts

variable {settings : Settings Data} {s : System Data} {t : Transition Data} {runId : String}
  {key : Key} {run : WorkflowRun Data}

theorem Made.trigger {messages : Nat → Option (Message Data)} (h : Made settings messages t) :
    t.after.trigger = t.key := by
  obtain ⟨newId, now, hafter⟩ := h.computed
  rw [hafter, nextRun_trigger]

theorem Made.nextRun {messages : Nat → Option (Message Data)} (h : Made settings messages t) :
    ∃ newId, NextRun settings.maxSteps t.before t.answer newId t.after := by
  obtain ⟨newId, now, hafter⟩ := h.computed
  exact ⟨newId, hafter ▸ nextRun_cases _ _ _ _ _ _ _⟩

theorem Made.handles {messages : Nat → Option (Message Data)} (h : Made settings messages t) :
    ∃ content, messages t.message = some content ∧ Handles content t.key t.before := by
  obtain ⟨content, hm, htarget, hdecide⟩ := h.delivered
  exact ⟨content, hm, handles_of_decideStep htarget hdecide⟩

theorem Made.mono {messages later : Nat → Option (Message Data)}
    (hle : ∀ m content, messages m = some content → later m = some content)
    (h : Made settings messages t) : Made settings later t := by
  obtain ⟨content, hm, hrest⟩ := h.delivered
  exact ⟨⟨content, hle _ _ hm, hrest⟩, h.answered, h.computed, h.ahead⟩

/-- A finished run waits for nothing. -/
theorem Made.waitingFor_of_finished {messages : Nat → Option (Message Data)}
    (h : Made settings messages t) (hfinished : t.after.finished = true) :
    t.after.waitingFor = none := by
  obtain ⟨newId, hnext⟩ := h.nextRun
  cases hnext with
  | completed _ _ hwaiting _ => exact hwaiting
  | failed _ _ _ hwaiting _ => exact hwaiting
  | running _ _ hstatus _ _ => simp [WorkflowRun.finished, hstatus] at hfinished

/-- What a write is made of is pending until it. -/
theorem Made.pending {messages : Nat → Option (Message Data)} (h : Made settings messages t)
    {runs : String → Option (WorkflowRun Data)} (hbefore : runs t.runId = t.before) :
    Pending runs t.runId t.key := by
  obtain ⟨content, _, hhandles⟩ := h.handles
  generalize t.before = stored at hbefore hhandles
  cases hhandles with
  | start _ hkey => rw [hkey]; exact hbefore
  | result _ hkey _ hwaiting hid => rw [hkey]; exact ⟨_, _, hbefore, hwaiting, hid⟩

theorem Inv.stored (h : Inv settings s) (hrun : s.runs runId = some run) :
    ∃ t ∈ s.history, t.runId = runId ∧ t.after = run := by
  obtain ⟨t, ht, hafter⟩ := (h.chain runId).exists_after hrun
  obtain ⟨hmem, hid⟩ := List.mem_filter.mp ht
  exact ⟨t, hmem, by simpa using hid, hafter⟩

theorem Inv.runs_ne_none (h : Inv settings s) (ht : t ∈ s.history) :
    s.runs t.runId ≠ none :=
  (h.chain t.runId).ne_none (List.mem_filter.mpr ⟨ht, by simp⟩)

/-- Ids are waited for by one transition. -/
theorem Inv.eq_of_waits (h : Inv settings s) {u : Transition Data} {id : Nat}
    (ht : t ∈ s.history) (hu : u ∈ s.history) (hwt : Waits t id) (hwu : Waits u id) : t = u := by
  have hpair : s.history.Pairwise fun t u => ∀ id, Waits t id → Waits u id → t = u :=
    h.waitsOnce.imp fun hp id hwt hwu => absurd hwu (hp id hwt)
  have hflip : s.history.Pairwise (flip fun t u => ∀ id, Waits t id → Waits u id → t = u) :=
    h.waitsOnce.imp fun hp id hwt hwu => absurd hwt (hp id hwu)
  exact List.Pairwise.forall_of_forall_of_flip (fun _ _ _ _ _ => rfl) hpair hflip ht hu id hwt hwu

end Facts

/-! ## Changes of an execution -/

section Update

variable {settings : Settings Data} {s : System Data}

/-- An execution is put in another phase, and takes an id or marks a message. -/
theorem Inv.update (h : Inv settings s) {e : Nat} {x : Execution Data} {n : Nat}
    {handled : Nat → Bool} (hn : s.nextId ≤ n)
    (hkeep : ∀ m, s.handled m = true → handled m = true)
    (hx : ExecutionOk settings { s with nextId := n } x)
    (hfresh : ∀ t, x.phase = .writing t → ∀ id, Waits t id → ∀ f y u, f ≠ e →
      s.executions f = some y → y.phase = .writing u → ¬Waits u id)
    (hhandled : ∀ m, handled m = true → s.handled m = true ∨
      (∃ content, s.messages m = some content) ∧ ∀ content r key, s.messages m = some content →
        target settings.workflow content = some (r, key) → Settled settings s r key) :
    Inv settings { s with executions := put s.executions e (some x), nextId := n, handled } where
  chain := h.chain
  made := h.made
  issued := fun t ht id hid => Nat.lt_of_lt_of_le (h.issued t ht id hid) hn
  waitsOnce := h.waitsOnce
  used := h.used
  usedOnce := h.usedOnce
  invocations := h.invocations
  results := h.results
  executions := by
    intro f y hf
    rcases put_eq_some_iff _ _ |>.mp hf with ⟨rfl, rfl⟩ | ⟨_, hf⟩
    · exact ⟨hx.delivered, hx.targeted, hx.phase⟩
    · have hy := h.executions f y hf
      refine ⟨hy.delivered, hy.targeted, ?_⟩
      have hphase := hy.phase
      cases hp : y.phase with
      | writing t =>
        rw [hp] at hphase
        exact ⟨hphase.1, fun id hid =>
          ⟨Nat.lt_of_lt_of_le (hphase.2 id hid).1 hn, (hphase.2 id hid).2⟩⟩
      | handling stored request => rw [hp] at hphase; exact hphase
      | invoking waiting step result => rw [hp] at hphase; exact hphase
      | reading | returned result | threw => trivial
  fresh := by
    intro f g y z t u hf hy hg hz hne id hid
    rcases put_eq_some_iff _ _ |>.mp hf with ⟨rfl, rfl⟩ | ⟨hfe, hf'⟩
    · rcases put_eq_some_iff _ _ |>.mp hg with ⟨rfl, _⟩ | ⟨hge, hg'⟩
      · exact absurd rfl hne
      · exact hfresh t hy id hid g z u hge hg' hz
    · rcases put_eq_some_iff _ _ |>.mp hg with ⟨rfl, rfl⟩ | ⟨_, hg'⟩
      · exact fun hu => hfresh u hz id hu f y t hfe hf' hy hid
      · exact h.fresh f g y z t u hf' hy hg' hz hne id hid
  handled := by
    intro m content r key hm hcontent htarget
    rcases hhandled m hm with hold | ⟨_, hnew⟩
    · exact ⟨(h.handled m content r key hold hcontent htarget).closed,
        (h.handled m content r key hold hcontent htarget).invoked⟩
    · exact ⟨(hnew content r key hcontent htarget).closed, (hnew content r key hcontent htarget).invoked⟩
  known := by
    intro m hm
    rcases hhandled m hm with hold | ⟨hsome, _⟩
    · exact h.known m hold
    · exact hsome
  removed := by
    intro m hm
    exact hkeep m (h.removed m hm)

end Update

/-! ## Changes of the store -/

section Store

variable {settings : Settings Data} {s : System Data} {t : Transition Data}

/-- The id of a result message is one that some transition waits for. -/
theorem Inv.waits_of_target (h : Inv settings s) {m : Nat} {content : Message Data} {r : String}
    {key : Key} (hm : s.messages m = some content)
    (htarget : target settings.workflow content = some (r, key)) :
    ∀ id, key = .result id → ∃ u ∈ s.history, u.runId = r ∧ Waits u id := by
  intro id hkey
  exact h.results m content r id hm (hkey ▸ htarget)

/-- A transition that can be stored now. -/
structure Storable (settings : Settings Data) (s : System Data) (t : Transition Data) : Prop where
  made : Made settings s.messages t
  before : s.runs t.runId = t.before
  issued : ∀ id, Waits t id → id < s.nextId
  fresh : ∀ id, Waits t id → ∀ u ∈ s.history, ¬Waits u id
  alone : ∀ id, Waits t id → ∀ f y u, s.executions f = some y → y.phase = .writing u → ¬Waits u id

/-- Storing a run makes no key pending that was known and wasn't. -/
theorem Storable.not_pending (ht : Storable settings s t) {r : String} {key : Key}
    (hknown : ∀ id, key = .result id → ∃ u ∈ s.history, Waits u id)
    (h : ¬Pending s.runs r key) : ¬Pending (put s.runs t.runId (some t.after)) r key := by
  intro hpending
  cases key with
  | start =>
    rw [Pending, put_apply] at hpending
    split at hpending
    · cases hpending
    · exact h hpending
  | result id =>
    obtain ⟨run, waiting, hrun, hwaiting, hid⟩ := hpending
    rcases put_eq_some_iff _ _ |>.mp hrun with ⟨_, hafter⟩ | ⟨_, hrun⟩
    · obtain ⟨u, hu, hwaits⟩ := hknown id rfl
      exact ht.fresh id ⟨waiting, hafter ▸ hwaiting, hid⟩ u hu hwaits
    · exact h ⟨run, waiting, hrun, hwaiting, hid⟩

/-- A run that is brought there by a key that wasn't pending was there before. -/
theorem Storable.run_of_trigger (ht : Storable settings s t) {r : String} {key : Key}
    {run : WorkflowRun Data} (h : ¬Pending s.runs r key)
    (hrun : put s.runs t.runId (some t.after) r = some run) (htrigger : run.trigger = key) :
    s.runs r = some run := by
  rcases put_eq_some_iff _ _ |>.mp hrun with ⟨rfl, rfl⟩ | ⟨_, hrun⟩
  · rw [ht.made.trigger] at htrigger
    exact absurd (htrigger ▸ ht.made.pending ht.before) h
  · exact hrun

theorem Storable.settled (ht : Storable settings s t) {r : String} {key : Key}
    (hknown : ∀ id, key = .result id → ∃ u ∈ s.history, Waits u id)
    (h : Settled settings s r key) : Settled settings (s.store t) r key where
  closed := ht.not_pending hknown h.closed
  invoked run waiting hrun htrigger hwaiting :=
    h.invoked run waiting (ht.run_of_trigger h.closed hrun htrigger) htrigger hwaiting

/-- What a transition was made of isn't pending once it is stored. -/
theorem Storable.closed (ht : Storable settings s t) :
    ¬Pending (put s.runs t.runId (some t.after)) t.runId t.key := by
  intro hpending
  cases hkey : t.key with
  | start =>
    rw [hkey, Pending, put_self] at hpending
    cases hpending
  | result id =>
    rw [hkey] at hpending
    obtain ⟨run, waiting, hrun, hwaiting, hid⟩ := hpending
    rw [put_self, Option.some.injEq] at hrun
    exact ht.made.ahead id ⟨waiting, hrun ▸ hwaiting, hid⟩ hkey

theorem Inv.waits_of_used (h : Inv settings s) {u : Transition Data} (hu : u ∈ s.history) :
    ∀ id, u.key = .result id → ∃ v ∈ s.history, v.runId = u.runId ∧ Waits v id := by
  obtain ⟨content, hm, htarget, _⟩ := (h.made u hu).delivered
  exact h.waits_of_target hm htarget

/-- The key of a transition that is stored now was used by none before. -/
theorem Inv.key_unused (h : Inv settings s) (ht : Storable settings s t) {u : Transition Data}
    (hu : u ∈ s.history) {id : Nat} (hkey : u.key = .result id) : t.key ≠ .result id := by
  intro htkey
  have hpending := ht.made.pending ht.before
  rw [htkey] at hpending
  obtain ⟨run, waiting, hrun, hwaiting, hid⟩ := hpending
  obtain ⟨v, hv, hvrun, hafter⟩ := h.stored hrun
  obtain ⟨w, hw, hwrun, hwaits⟩ := h.waits_of_used hu id hkey
  have hvw : v = w := h.eq_of_waits hv hw ⟨waiting, hafter ▸ hwaiting, hid⟩ hwaits
  have hrunId : u.runId = t.runId := by rw [← hwrun, ← hvw, hvrun]
  exact h.used u hu (hkey ▸ hrunId ▸ ⟨run, waiting, hrun, hwaiting, hid⟩)

theorem Inv.store (h : Inv settings s) (ht : Storable settings s t) :
    Inv settings (s.store t) where
  chain := by
    intro r
    by_cases hr : t.runId = r
    · subst hr
      have hchain := (h.chain t.runId).append ht.before.symm
      simpa [System.store, List.filter_append] using hchain
    · have hchain := h.chain r
      rw [← put_of_ne s.runs t.runId (some t.after) (Ne.symm hr)] at hchain
      simpa [System.store, List.filter_append, hr] using hchain
  made := by
    intro u hu
    rcases List.mem_append.mp hu with hu | hu
    · exact h.made u hu
    · exact List.mem_singleton.mp hu ▸ ht.made
  issued := by
    intro u hu
    rcases List.mem_append.mp hu with hu | hu
    · exact h.issued u hu
    · exact List.mem_singleton.mp hu ▸ ht.issued
  waitsOnce := by
    refine List.pairwise_append.mpr ⟨h.waitsOnce, List.pairwise_singleton _ _, ?_⟩
    intro u hu v hv id hid hvid
    exact ht.fresh id (List.mem_singleton.mp hv ▸ hvid) u hu hid
  used := by
    intro u hu
    rcases List.mem_append.mp hu with hu | hu
    · refine ht.not_pending (fun id hid => ?_) (h.used u hu)
      obtain ⟨v, hv, _, hwaits⟩ := h.waits_of_used hu id hid
      exact ⟨v, hv, hwaits⟩
    · exact List.mem_singleton.mp hu ▸ ht.closed
  usedOnce := by
    refine List.pairwise_append.mpr ⟨h.usedOnce, List.pairwise_singleton _ _, ?_⟩
    intro u hu v hv id hid
    exact List.mem_singleton.mp hv ▸ h.key_unused ht hu hid
  invocations := by
    intro i hi
    obtain ⟨u, hu, hrest⟩ := h.invocations i hi
    exact ⟨u, List.mem_append_left _ hu, hrest⟩
  results := by
    intro m content r id hm htarget
    obtain ⟨u, hu, hrest⟩ := h.results m content r id hm htarget
    exact ⟨u, List.mem_append_left _ hu, hrest⟩
  executions := by
    intro f y hf
    have hy := h.executions f y hf
    refine ⟨hy.delivered, hy.targeted, ?_⟩
    have hphase := hy.phase
    cases hp : y.phase with
    | handling stored request => rw [hp] at hphase; exact hphase
    | reading | returned result | threw => trivial
    | writing u =>
      rw [hp] at hphase
      refine ⟨hphase.1, fun id hid => ⟨(hphase.2 id hid).1, fun v hv => ?_⟩⟩
      rcases List.mem_append.mp hv with hv | hv
      · exact (hphase.2 id hid).2 v hv
      · rw [List.mem_singleton.mp hv]
        exact fun htid => ht.alone id htid f y u hf hp hid
    | invoking waiting step result =>
      rw [hp] at hphase
      obtain ⟨⟨u, hu, hstored⟩, hclosed, hsame⟩ := hphase
      refine ⟨⟨u, List.mem_append_left _ hu, hstored⟩, ?_, ?_⟩
      · refine ht.not_pending (fun id hid => ?_) hclosed
        obtain ⟨v, hv, _, hwaits⟩ := h.waits_of_target hy.delivered hy.targeted id hid
        exact ⟨v, hv, hwaits⟩
      · intro run other hrun htrigger hother
        exact hsame run other (ht.run_of_trigger hclosed hrun htrigger) htrigger hother
  fresh := h.fresh
  handled := by
    intro m content r key hm hcontent htarget
    refine ht.settled (fun id hid => ?_) (h.handled m content r key hm hcontent htarget)
    obtain ⟨v, hv, _, hwaits⟩ := h.waits_of_target hcontent htarget id hid
    exact ⟨v, hv, hwaits⟩
  known := h.known
  removed := h.removed

end Store

end Ez4.Agent.Workflow

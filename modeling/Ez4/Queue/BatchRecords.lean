import Ez4.Queue.BatchRun

/-! # What holds of each record of a batch

What a record keeps while it is processed, and what it keeps of its outcome
once the batch took that, holds of every record of a batch. -/
namespace Ez4.Queue.Batch
open Ez4.Library Ez4.Queue.Messages Ez4.Utils.Tasks BatchState

variable {ρ σ ε : Type} {P : Process ρ σ ε} {s t : BatchState ρ σ}

/-- `I` is kept in the processing of a record and `J` once it is processed. -/
def StatusOk (I : ρ → σ → Prop) (J : ρ → σ → Option RecordOutcome → Prop) (record : ρ) :
    TaskStatus (Work σ) (Ending σ) → Prop
  | .running (.processing _ state) => I record state
  | .settled (.processed state outcome) => J record state outcome
  | _ => True

def TasksOk (I : ρ → σ → Prop) (J : ρ → σ → Option RecordOutcome → Prop) (s : BatchState ρ σ) :
    Prop :=
  ∀ task ∈ s.tasks, StatusOk I J task.item task.status

/-- The state of a record whose processing started. -/
def stateOf : TaskStatus (Work σ) (Ending σ) → Option σ
  | .running (.processing _ state) => some state
  | .settled (.processed state _) => some state
  | _ => none

variable {I : ρ → σ → Prop} {J : ρ → σ → Option RecordOutcome → Prop}

theorem tasksOk_setTask {i : Nat} {u : BatchState ρ σ} {record : ρ}
    {status : TaskStatus (Work σ) (Ending σ)} (hs : TasksOk I J s)
    (task : s.tasks[i]? = some ⟨record, status⟩) (tasks : u.tasks = s.tasks)
    {status' : TaskStatus (Work σ) (Ending σ)} (new : StatusOk I J record status') :
    TasksOk I J (u.setTask i status') := by
  intro other hm
  obtain ⟨j, hj⟩ := List.getElem?_of_mem hm
  rw [setTask, getElem?_setStatus, tasks] at hj
  split at hj
  · rename_i hij
    rw [← hij, task, Option.map_some, Option.some.injEq] at hj
    subst hj
    exact new
  · exact hs other (List.mem_of_getElem? hj)

theorem tasksOk_resume {i : Nat} {record : ρ} (hs : TasksOk I J s)
    (task : s.tasks[i]? = some ⟨record, .running .awaitingTurn⟩)
    (hstart : ∀ record now, I record (P.start record now)) (timeLeft now : Int) :
    TasksOk I J (s.resume P i record timeLeft now) := by
  unfold BatchState.resume
  split
  · exact tasksOk_setTask hs task rfl trivial
  split
  · exact tasksOk_setTask hs task rfl trivial
  split
  · exact tasksOk_setTask hs task (by simp) trivial
  · have hok : TasksOk I J (s.setTask i (.running (.processing now (P.start record now)))) :=
      tasksOk_setTask hs task rfl (hstart record now)
    exact hok

/-- What happens in a record is the only way its state changes. `ok` is what
is known of the step. -/
theorem tasksOk_step {workers : Nat} (ok : ρ → Bool → σ → ε → Prop)
    (hstart : ∀ record now, I record (P.start record now))
    (hI : ∀ record state event state', ok record false state event → I record state →
      P.step record state event = some state' → I record state')
    (hend : ∀ record state outcome, I record state → P.outcome? state = some outcome →
      J record state outcome)
    (hJ : ∀ record state outcome event state', ok record true state event →
      J record state outcome → P.step record state event = some state' →
      J record state' outcome)
    {e : BatchEvent ε} (hs : TasksOk I J s)
    (hok : ∀ i event record status, e = .inner i event → s.tasks[i]? = some ⟨record, status⟩ →
      (∀ startTime state, status = .running (.processing startTime state) →
        ok record false state event) ∧
      ∀ state outcome, status = .settled (.processed state outcome) → ok record true state event)
    (h : step P workers s e = some t) : TasksOk I J t := by
  cases e with
  | take =>
    obtain ⟨i, hi, rfl⟩ := Option.map_eq_some_iff.mp h
    obtain ⟨⟨record, status⟩, task, -⟩ := next?_eq_some hi
    exact tasksOk_setTask hs task rfl trivial
  | resume i timeLeft now =>
    simp only [step] at h
    split at h
    · rename_i record hr
      split at h
      · cases h
        exact tasksOk_resume hs (running?_eq_some.mp hr) hstart timeLeft now
      · cases h
    · cases h
  | inner i event =>
    simp only [step, BatchState.inner] at h
    split at h
    · rename_i record startTime state task
      obtain ⟨state', hstep, rfl⟩ := Option.map_eq_some_iff.mp h
      exact tasksOk_setTask hs task rfl (hI record state event state'
        ((hok i event record _ rfl task).1 startTime state rfl)
        (hs _ (List.mem_of_getElem? task)) hstep)
    · rename_i record state outcome task
      obtain ⟨state', hstep, rfl⟩ := Option.map_eq_some_iff.mp h
      exact tasksOk_setTask hs task rfl (hJ record state outcome event state'
        ((hok i event record _ rfl task).2 state outcome rfl)
        (hs _ (List.mem_of_getElem? task)) hstep)
    · cases h
  | settle i now =>
    simp only [step] at h
    split at h
    · rename_i record startTime state hr
      obtain ⟨outcome, hout, rfl⟩ := Option.map_eq_some_iff.mp h
      obtain ⟨u, hu, -, heq⟩ := settle_eq (P := P) (s := s) (i := i) record startTime state outcome
        now
      have task := running?_eq_some.mp hr
      rw [heq]
      exact tasksOk_setTask hs task hu
        (hend record state outcome (hs _ (List.mem_of_getElem? task)) hout)
    · cases h

theorem tasksOk_init (P : Process ρ σ ε) (parallelism : Parallelism) (records : List ρ) :
    TasksOk I J (batch P parallelism records).init := by
  intro task hm
  rw [(status_of_mem_start hm).1]
  trivial

/-! ## Records handed back -/

/-- The record goes back to the queue by the batch response. -/
def Stage.handsBack : Stage → Bool
  | .skipped | .leftOut => true
  | .processed (some outcome) => outcome.handedBack
  | _ => false

/-- Every id in the set of failures is that of a record that's handed back. -/
def Explained (P : Process ρ σ ε) (s : BatchState ρ σ) : Prop :=
  ∀ id ∈ s.failedMessageIds, ∃ task ∈ s.tasks, P.messageId task.item = id ∧
    (stageOf task.status).handsBack = true

theorem explained_setTask {i : Nat} {u : BatchState ρ σ} {record : ρ}
    {status status' : TaskStatus (Work σ) (Ending σ)} (hs : Explained P s)
    (task : s.tasks[i]? = some ⟨record, status⟩) (tasks : u.tasks = s.tasks)
    (kept : (stageOf status).handsBack = true → (stageOf status').handsBack = true)
    (new : ∀ id ∈ u.failedMessageIds, id ∈ s.failedMessageIds ∨
      id = P.messageId record ∧ (stageOf status').handsBack = true) :
    Explained P (u.setTask i status') := by
  have hget : (u.setTask i status').tasks[i]? = some ⟨record, status'⟩ := by
    rw [setTask, getElem?_setStatus, if_pos rfl, tasks, task]
    rfl
  intro id hid
  rcases new id hid with hid | ⟨rfl, hback⟩
  · obtain ⟨other, hm, hmid, hback⟩ := hs id hid
    obtain ⟨j, hj⟩ := List.getElem?_of_mem hm
    by_cases hij : i = j
    · subst hij
      rw [task, Option.some.injEq] at hj
      subst hj
      exact ⟨_, List.mem_of_getElem? hget, hmid, kept hback⟩
    · refine ⟨other, List.mem_of_getElem? (i := j) ?_, hmid, hback⟩
      rw [setTask, getElem?_setStatus, if_neg hij, tasks, hj]
  · exact ⟨_, List.mem_of_getElem? hget, rfl, hback⟩

theorem failedMessageIds_failGroup {record : ρ} :
    (s.failGroup P record).failedMessageIds = s.failedMessageIds := by
  unfold BatchState.failGroup
  split <;> rfl

/-- The ids `settle` adds. -/
theorem settle_messages (record : ρ) (startTime : Int) (state : σ)
    (outcome : Option RecordOutcome) (now : Int) (i : Nat) : ∃ u : BatchState ρ σ,
      u.tasks = s.tasks ∧ (∀ id ∈ u.failedMessageIds, id ∈ s.failedMessageIds ∨
        id = P.messageId record ∧ (Stage.processed outcome).handsBack = true) ∧
      s.settle P i record startTime state outcome now =
        u.setTask i (.settled (.processed state outcome)) := by
  cases outcome with
  | none => exact ⟨{ s with batchFailure := true }, rfl, fun _ h => .inl h, rfl⟩
  | some outcome =>
    refine ⟨_, ?_, ?_, rfl⟩
    · split <;> split <;> simp
    · intro id hid
      cases hb : outcome.handedBack with
      | false =>
        rw [hb] at hid
        split at hid
        · rw [failedMessageIds_failGroup] at hid
          exact .inl hid
        · exact .inl hid
      | true =>
        have hid : id ∈ s.failedMessageIds ++ [P.messageId record] := by
          rw [hb] at hid
          split at hid
          · rw [failedMessageIds_failGroup] at hid
            exact hid
          · exact hid
        rcases List.mem_append.mp hid with hid | hid
        · exact .inl hid
        · exact .inr ⟨List.mem_singleton.mp hid, hb⟩

theorem explained_moved (hs : Explained P s) (h : Moved P s t) : Explained P t := by
  have hadded : ∀ {record : ρ} {status : TaskStatus (Work σ) (Ending σ)},
      (stageOf status).handsBack = true →
      ∀ id ∈ (s.failMessage P record).failedMessageIds, id ∈ s.failedMessageIds ∨
        id = P.messageId record ∧ (stageOf status).handsBack = true := fun hb id hid => by
    rcases List.mem_append.mp hid with hid | hid
    · exact .inl hid
    · exact .inr ⟨List.mem_singleton.mp hid, hb⟩
  cases h with
  | take task => exact explained_setTask hs task rfl nofun fun _ h => .inl h
  | stop task => exact explained_setTask hs task rfl nofun fun _ h => .inl h
  | skip task => exact explained_setTask hs task rfl nofun (hadded rfl)
  | leaveOut task =>
    refine explained_setTask hs task (by simp) nofun fun id hid => ?_
    rw [failedMessageIds_failGroup] at hid
    exact hadded rfl id hid
  | @begin i record task _ _ now =>
    have hok : Explained P (s.setTask i (.running (.processing now (P.start record now)))) :=
      explained_setTask hs task rfl nofun fun _ h => .inl h
    exact hok
  | inner task same =>
    exact explained_setTask hs task rfl (fun h => same ▸ h) fun _ h => .inl h
  | settle task outcome _ now =>
    obtain ⟨u, hu, hnew, heq⟩ := settle_messages (P := P) (s := s) _ _ _ outcome now _
    rw [heq]
    exact explained_setTask hs task hu nofun hnew

end Ez4.Queue.Batch

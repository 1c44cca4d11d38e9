import Ez4.Queue.BatchRecords
import Ez4.Library.Machine

/-! # Two ways to process the same batch

A way to process one record that follows another one, event by event, makes
the batches run alike: the same records start in the same order, and the same
messages are handed back. -/
namespace Ez4.Queue.Batch
open Ez4.Library Ez4.Queue.Messages Ez4.Utils.Tasks

variable {ρ σ ε ρ' τ δ : Type}

/-- The second process follows the first one on the steps that are `ok`: `reads`
gives the event it takes, if any. Both start a handler together. -/
structure ProcessSimulation (P : Process ρ σ ε) (Q : Process ρ' τ δ) where
  SameItem : ρ → ρ' → Prop
  SameState : ρ → σ → τ → Prop
  ok : σ → ε → Bool
  reads : σ → ε → Option δ
  starts : σ → ε → Bool
  starts' : τ → δ → Bool
  messageId {r : ρ} {r' : ρ'} : SameItem r r' → Q.messageId r' = P.messageId r
  group {r : ρ} {r' : ρ'} : SameItem r r' → Q.group r' = P.group r
  start {r : ρ} {r' : ρ'} {now : Int} : SameItem r r' → 0 ≤ now →
    SameState r (P.start r now) (Q.start r' now)
  step {r : ρ} {r' : ρ'} {a t : σ} {l : τ} {e : ε} : SameItem r r' → SameState r a l →
    ok a e = true → P.step r a e = some t → match reads a e with
      | none => starts a e = false ∧ SameState r t l
      | some d => ∃ m, Q.step r' l d = some m ∧ starts' l d = starts a e ∧ SameState r t m
  outcome {r : ρ} {a : σ} {l : τ} {outcome : Option RecordOutcome} : SameState r a l →
    P.outcome? a = some outcome → Q.outcome? l = some outcome

/-- What a record is in once its processing started. -/
def BatchState.stateAt (s : BatchState ρ σ) (i : Nat) : Option σ :=
  s.tasks[i]?.bind fun task => stateOf task.status

/-- The record whose handler starts at a step. -/
def handlerStarts (starts : σ → ε → Bool) (s : BatchState ρ σ) : BatchEvent ε → Option Nat
  | .inner index event => (s.stateAt index).bind fun state =>
    if starts state event then some index else none
  | _ => none

/-- The event of a batch in which each record takes the events read off another's. -/
def readEvent (reads : σ → ε → Option δ) (s : BatchState ρ σ) :
    BatchEvent ε → Option (BatchEvent δ)
  | .take => some .take
  | .resume index timeLeft now => some (.resume index timeLeft now)
  | .inner index event => (s.stateAt index).bind fun state =>
    (reads state event).map (.inner index)
  | .settle index now => some (.settle index now)

/-- Each step of a record is `ok`, and the clock isn't before its start. -/
def okEvent (ok : σ → ε → Bool) (s : BatchState ρ σ) : BatchEvent ε → Bool
  | .resume _ _ now => 0 ≤ now
  | .inner index event => (s.stateAt index).all fun state => ok state event
  | _ => true

/-! ## Batches in the same state -/

inductive SameStatus (R : σ → τ → Prop) :
    TaskStatus (Work σ) (Ending σ) → TaskStatus (Work τ) (Ending τ) → Prop
  | waiting : SameStatus R .waiting .waiting
  | awaitingTurn : SameStatus R (.running .awaitingTurn) (.running .awaitingTurn)
  | processing {a : σ} {l : τ} (startTime : Int) (same : R a l) :
      SameStatus R (.running (.processing startTime a)) (.running (.processing startTime l))
  | stopped : SameStatus R (.settled .stopped) (.settled .stopped)
  | skipped : SameStatus R (.settled .skipped) (.settled .skipped)
  | leftOut : SameStatus R (.settled .leftOut) (.settled .leftOut)
  | processed {a : σ} {l : τ} (outcome : Option RecordOutcome) (same : R a l) :
      SameStatus R (.settled (.processed a outcome)) (.settled (.processed l outcome))

variable {P : Process ρ σ ε} {Q : Process ρ' τ δ} (sim : ProcessSimulation P Q)

structure SameTask (task : Task ρ (Work σ) (Ending σ)) (task' : Task ρ' (Work τ) (Ending τ)) :
    Prop where
  item : sim.SameItem task.item task'.item
  status : SameStatus (sim.SameState task.item) task.status task'.status

structure SameBatch (s : BatchState ρ σ) (u : BatchState ρ' τ) : Prop where
  tasks : ∀ i : Nat, Option.Rel (SameTask sim) s.tasks[i]? u.tasks[i]?
  failedMessageIds : u.failedMessageIds = s.failedMessageIds
  failedGroupIds : u.failedGroupIds = s.failedGroupIds
  slowestRecord : u.slowestRecord = s.slowestRecord
  batchFailure : u.batchFailure = s.batchFailure
  started : u.started = s.started

variable {sim} {s t : BatchState ρ σ} {u : BatchState ρ' τ} {i : Nat}

theorem stageOf_of_same {R : σ → τ → Prop} {status : TaskStatus (Work σ) (Ending σ)}
    {status' : TaskStatus (Work τ) (Ending τ)} (h : SameStatus R status status') :
    stageOf status' = stageOf status := by
  cases h <;> rfl

theorem SameBatch.task (h : SameBatch sim s u) {record : ρ}
    {status : TaskStatus (Work σ) (Ending σ)} (task : s.tasks[i]? = some ⟨record, status⟩) :
    ∃ record' status', u.tasks[i]? = some ⟨record', status'⟩ ∧ sim.SameItem record record' ∧
      SameStatus (sim.SameState record) status status' := by
  have hrel := h.tasks i
  rw [task] at hrel
  cases hu : u.tasks[i]? with
  | none => rw [hu] at hrel; cases hrel
  | some task' =>
    rw [hu] at hrel
    cases hrel with
    | some hsame => exact ⟨task'.item, task'.status, rfl, hsame.item, hsame.status⟩

theorem SameBatch.stages (h : SameBatch sim s u) :
    u.tasks.map (stageOf ·.status) = s.tasks.map (stageOf ·.status) := by
  apply List.ext_getElem?
  intro i
  have hrel := h.tasks i
  rw [List.getElem?_map, List.getElem?_map]
  revert hrel
  generalize s.tasks[i]? = first
  generalize u.tasks[i]? = second
  rintro (⟨hsame⟩ | _)
  · exact congrArg some (stageOf_of_same hsame.status)
  · rfl

theorem SameBatch.groupAt (h : SameBatch sim s u) (i : Nat) :
    u.records[i]?.bind Q.group = s.records[i]?.bind P.group := by
  have hrel := h.tasks i
  rw [BatchState.records, BatchState.records, List.getElem?_map, List.getElem?_map]
  revert hrel
  generalize s.tasks[i]? = first
  generalize u.tasks[i]? = second
  rintro (⟨hsame⟩ | _)
  · exact sim.group hsame.item
  · rfl

theorem countP_stage {pool : Pool ρ (Work σ) (Ending σ)} :
    pool.countP (·.status.isRunning) =
      (pool.map (stageOf ·.status)).countP fun stage =>
        stage = .awaitingTurn || stage = .processing := by
  rw [List.countP_map]
  congr 1
  funext ⟨record, status⟩
  rcases status with _ | (_ | _) | (_ | _ | _ | _) <;> rfl

theorem findIdx?_stage {pool : Pool ρ (Work σ) (Ending σ)} :
    pool.findIdx? (·.status.isWaiting) =
      (pool.map (stageOf ·.status)).findIdx? fun stage => stage = .waiting := by
  rw [List.findIdx?_map]
  congr 1
  funext ⟨record, status⟩
  rcases status with _ | (_ | _) | (_ | _ | _ | _) <;> rfl

theorem SameBatch.next? (h : SameBatch sim s u) (workers : Nat) :
    next? u.tasks workers = next? s.tasks workers := by
  rw [Utils.Tasks.next?, Utils.Tasks.next?, countP_stage, findIdx?_stage, h.stages, ← countP_stage,
    ← findIdx?_stage]

theorem SameBatch.settled (h : SameBatch sim s u) (i : Nat) : u.settled i = s.settled i := by
  have hstage : u.stage i = s.stage i := by
    have hget := congrArg (·[i]?) h.stages
    rw [List.getElem?_map, List.getElem?_map] at hget
    exact hget
  rw [Bool.eq_iff_iff, BatchState.settled_iff, BatchState.settled_iff, hstage]

theorem finished_stage : s.finished = (s.tasks.map (stageOf ·.status)).all Stage.ended := by
  rw [List.all_map]
  exact congrArg (s.tasks.all ·) (funext fun task => ended_stageOf.symm)

theorem SameBatch.finished (h : SameBatch sim s u) : u.finished = s.finished := by
  rw [finished_stage, finished_stage, h.stages]

theorem SameBatch.turnCame (h : SameBatch sim s u) (i : Nat) :
    u.turnCame Q i = s.turnCame P i := by
  have hprevious : previousInGroup Q u.records i = previousInGroup P s.records i := by
    simp only [previousInGroup, h.groupAt]
  rw [BatchState.turnCame, BatchState.turnCame, hprevious]
  split
  · rfl
  · exact h.settled _

theorem SameBatch.groupFailed (h : SameBatch sim s u) {record : ρ} {record' : ρ'}
    (item : sim.SameItem record record') : u.groupFailed Q record' = s.groupFailed P record := by
  rw [BatchState.groupFailed, BatchState.groupFailed, sim.group item, h.failedGroupIds]

/-! ## The functions of the batch -/

theorem SameBatch.failMessage (h : SameBatch sim s u) {record : ρ} {record' : ρ'}
    (item : sim.SameItem record record') :
    SameBatch sim (s.failMessage P record) (u.failMessage Q record') := by
  refine ⟨h.tasks, ?_, h.failedGroupIds, h.slowestRecord, h.batchFailure, h.started⟩
  rw [BatchState.failMessage, BatchState.failMessage, h.failedMessageIds, sim.messageId item]

theorem SameBatch.failGroup (h : SameBatch sim s u) {record : ρ} {record' : ρ'}
    (item : sim.SameItem record record') :
    SameBatch sim (s.failGroup P record) (u.failGroup Q record') := by
  unfold BatchState.failGroup
  rw [sim.group item]
  split
  · exact h
  · exact ⟨h.tasks, h.failedMessageIds, congrArg (· ++ _) h.failedGroupIds, h.slowestRecord,
      h.batchFailure, h.started⟩

theorem SameBatch.setTask (h : SameBatch sim s u) {record : ρ}
    {old status : TaskStatus (Work σ) (Ending σ)} {status' : TaskStatus (Work τ) (Ending τ)}
    (task : s.tasks[i]? = some ⟨record, old⟩)
    (new : SameStatus (sim.SameState record) status status') :
    SameBatch sim (s.setTask i status) (u.setTask i status') := by
  refine ⟨fun j => ?_, h.failedMessageIds, h.failedGroupIds, h.slowestRecord, h.batchFailure,
    h.started⟩
  rw [BatchState.setTask, BatchState.setTask, getElem?_setStatus, getElem?_setStatus]
  split
  next hij =>
    subst hij
    obtain ⟨record', status'', task', item, -⟩ := h.task task
    rw [task, task']
    exact .some ⟨item, new⟩
  · exact h.tasks j

/-- Only the first batch goes on. -/
theorem SameBatch.setTaskLeft (h : SameBatch sim s u) {record : ρ} {record' : ρ'}
    {old status : TaskStatus (Work σ) (Ending σ)} {status' : TaskStatus (Work τ) (Ending τ)}
    (task : s.tasks[i]? = some ⟨record, old⟩) (task' : u.tasks[i]? = some ⟨record', status'⟩)
    (item : sim.SameItem record record')
    (new : SameStatus (sim.SameState record) status status') :
    SameBatch sim (s.setTask i status) u := by
  refine ⟨fun j => ?_, h.failedMessageIds, h.failedGroupIds, h.slowestRecord, h.batchFailure,
    h.started⟩
  rw [BatchState.setTask, getElem?_setStatus]
  split
  next hij =>
    subst hij
    rw [task, task']
    exact .some ⟨item, new⟩
  · exact h.tasks j

theorem SameBatch.resume (h : SameBatch sim s u) {record : ρ} {record' : ρ'}
    (item : sim.SameItem record record') (task : s.tasks[i]? = some ⟨record, .running .awaitingTurn⟩)
    (timeLeft : Int) {now : Int} (hnow : 0 ≤ now) :
    SameBatch sim (s.resume P i record timeLeft now) (u.resume Q i record' timeLeft now) := by
  unfold BatchState.resume
  rw [h.batchFailure, h.groupFailed item, h.slowestRecord]
  split
  · exact h.setTask task .stopped
  split
  · exact (h.failMessage item).setTask task .skipped
  split
  · exact ((h.failMessage item).failGroup item).setTask (by simpa using task) .leftOut
  · have hset := h.setTask task (.processing now (sim.start item hnow))
    exact ⟨hset.tasks, hset.failedMessageIds, hset.failedGroupIds, hset.slowestRecord,
      hset.batchFailure, congrArg (· ++ [i]) h.started⟩

theorem SameBatch.settle (h : SameBatch sim s u) {record : ρ} {record' : ρ'}
    (item : sim.SameItem record record') {status : TaskStatus (Work σ) (Ending σ)}
    (task : s.tasks[i]? = some ⟨record, status⟩) {a : σ} {l : τ} (same : sim.SameState record a l)
    (startTime : Int) (outcome : Option RecordOutcome) (now : Int) :
    SameBatch sim (s.settle P i record startTime a outcome now)
      (u.settle Q i record' startTime l outcome now) := by
  cases outcome with
  | none =>
    have hset := h.setTask task (.processed none same)
    exact ⟨hset.tasks, hset.failedMessageIds, hset.failedGroupIds, hset.slowestRecord, rfl,
      hset.started⟩
  | some outcome =>
    have hslowest : SameBatch sim { s with slowestRecord := max s.slowestRecord (now - startTime) }
        { u with slowestRecord := max u.slowestRecord (now - startTime) } :=
      ⟨h.tasks, h.failedMessageIds, h.failedGroupIds, congrArg (max · _) h.slowestRecord,
        h.batchFailure, h.started⟩
    unfold BatchState.settle
    dsimp only
    split <;> split
    · exact ((hslowest.failMessage item).failGroup item).setTask (by simpa using task)
        (.processed _ same)
    · exact (hslowest.failGroup item).setTask (by simpa using task) (.processed _ same)
    · exact (hslowest.failMessage item).setTask task (.processed _ same)
    · exact hslowest.setTask task (.processed _ same)

/-! ## Steps and runs -/

theorem stateAt_of_task {record : ρ} {status : TaskStatus (Work σ) (Ending σ)}
    (task : s.tasks[i]? = some ⟨record, status⟩) : s.stateAt i = stateOf status := by
  rw [BatchState.stateAt, task]
  rfl

theorem ok_of_okEvent {ok : σ → ε → Bool} {record : ρ} {status : TaskStatus (Work σ) (Ending σ)}
    {a : σ} {event : ε} (hok : okEvent ok s (.inner i event) = true)
    (task : s.tasks[i]? = some ⟨record, status⟩) (state : stateOf status = some a) :
    ok a event = true := by
  rw [okEvent, stateAt_of_task task, state] at hok
  exact hok

/-- What happens in a record happens in the other one, when that takes an event.
`f` and `g` give the statuses the new states are put in. -/
theorem follows_put {workers : Nat} (h : SameBatch sim s u) (init : BatchState ρ' τ)
    {record : ρ} {record' : ρ'} {f : σ → TaskStatus (Work σ) (Ending σ)}
    {g : τ → TaskStatus (Work τ) (Ending τ)} {a b : σ} {l : τ}
    (task : s.tasks[i]? = some ⟨record, f a⟩) (task' : u.tasks[i]? = some ⟨record', g l⟩)
    (item : sim.SameItem record record') (state : stateOf (f a) = some a)
    (state' : stateOf (g l) = some l) (same : sim.SameState record a l) {event : ε}
    (hok : okEvent sim.ok s (.inner i event) = true) (hstep : P.step record a event = some b)
    (hput : ∀ b m, sim.SameState record b m → SameStatus (sim.SameState record) (f b) (g m))
    (hinner : ∀ d, u.inner Q i d = (Q.step record' l d).map fun m => u.setTask i (g m)) :
    Machine.Follows ⟨init, BatchState.step Q workers⟩ (SameBatch sim)
      (handlerStarts sim.starts s (.inner i event)) (handlerStarts sim.starts')
      (s.setTask i (f b)) u (readEvent sim.reads s (.inner i event)) := by
  have hstate := (stateAt_of_task task).trans state
  have hstate' := (stateAt_of_task task').trans state'
  have hnext := sim.step item same (ok_of_okEvent hok task state) hstep
  rw [readEvent, handlerStarts, hstate]
  cases hreads : sim.reads a event with
  | none =>
    rw [hreads] at hnext
    obtain ⟨hstarts, hsame⟩ := hnext
    simp only [Option.bind_some, hreads, Option.map_none, hstarts]
    exact ⟨rfl, h.setTaskLeft task task' item (hput b l hsame)⟩
  | some d =>
    rw [hreads] at hnext
    obtain ⟨m, hm, hstarts, hsame⟩ := hnext
    simp only [Option.bind_some, hreads, Option.map_some]
    refine ⟨u.setTask i (g m), ?_, ?_, h.setTask task (hput b m hsame)⟩
    · exact (hinner d).trans (by rw [hm, Option.map_some])
    · rw [handlerStarts, hstate', Option.bind_some, hstarts]

theorem follows_step {workers : Nat} (h : SameBatch sim s u) {e : BatchEvent ε}
    (hok : okEvent sim.ok s e = true) (hs : BatchState.step P workers s e = some t)
    (init : BatchState ρ' τ) :
    Machine.Follows ⟨init, BatchState.step Q workers⟩ (SameBatch sim)
      (handlerStarts sim.starts s e) (handlerStarts sim.starts') t u
      (readEvent sim.reads s e) := by
  cases e with
  | take =>
    obtain ⟨index, hnext, rfl⟩ := Option.map_eq_some_iff.mp hs
    obtain ⟨task, htask, -⟩ := next?_eq_some hnext
    refine ⟨_, ?_, rfl, h.setTask htask .awaitingTurn⟩
    simp only [BatchState.step, h.next?, hnext, Option.map_some]
  | resume index timeLeft now =>
    simp only [BatchState.step] at hs
    split at hs
    next record hrun =>
      have task := running?_eq_some.mp hrun
      obtain ⟨record', status', task', item, hstatus⟩ := h.task task
      cases hstatus
      split at hs
      next hturn =>
        cases hs
        have hnow : 0 ≤ now := of_decide_eq_true hok
        refine ⟨_, ?_, rfl, h.resume item task timeLeft hnow⟩
        simp only [BatchState.step, running?_eq_some.mpr task', h.turnCame, hturn, if_pos]
      · cases hs
    · cases hs
  | inner index event =>
    rw [BatchState.step] at hs
    unfold BatchState.inner at hs
    split at hs
    next record startTime a task =>
      obtain ⟨b, hstep, rfl⟩ := Option.map_eq_some_iff.mp hs
      obtain ⟨record', status', task', item, hstatus⟩ := h.task task
      cases hstatus with
      | @processing _ l _ same =>
        refine follows_put (f := fun b => .running (.processing startTime b))
          (g := fun m => .running (.processing startTime m)) h init task task' item rfl rfl same
          hok hstep (fun _ _ same => .processing startTime same) (fun d => ?_)
        rw [BatchState.inner, task']
    next record a outcome task =>
      obtain ⟨b, hstep, rfl⟩ := Option.map_eq_some_iff.mp hs
      obtain ⟨record', status', task', item, hstatus⟩ := h.task task
      cases hstatus with
      | @processed _ l _ same =>
        refine follows_put h init task task' item rfl rfl same hok hstep
          (fun _ _ same => .processed outcome same) (fun d => ?_)
        rw [BatchState.inner, task']
    · cases hs
  | settle index now =>
    simp only [BatchState.step] at hs
    split at hs
    next record startTime a hrun =>
      have task := running?_eq_some.mp hrun
      obtain ⟨record', status', task', item, hstatus⟩ := h.task task
      cases hstatus with
      | @processing _ l _ same =>
        obtain ⟨outcome, hended, rfl⟩ := Option.map_eq_some_iff.mp hs
        refine ⟨_, ?_, rfl, h.settle item task same startTime outcome now⟩
        simp only [BatchState.step, running?_eq_some.mpr task', sim.outcome same hended,
          Option.map_some]
    · cases hs

theorem sameBatch_init (sim : ProcessSimulation P Q) (parallelism : Parallelism)
    {records : List ρ} {records' : List ρ'} (hsame : List.Forall₂ sim.SameItem records records') :
    SameBatch sim (batch P parallelism records).init (batch Q parallelism records').init := by
  refine ⟨fun i => ?_, rfl, rfl, rfl, rfl, rfl⟩
  simp only [batch, start, List.getElem?_map]
  induction hsame generalizing i with
  | nil => exact .none
  | cons hitem _ ih =>
    cases i with
    | zero => exact .some ⟨hitem, .waiting⟩
    | succ i => exact ih i

/-- **A batch follows the batch whose records it follows**, run by run. -/
theorem follows_run (sim : ProcessSimulation P Q) (parallelism : Parallelism) {records : List ρ}
    {records' : List ρ'} (hsame : List.Forall₂ sim.SameItem records records')
    {events : List (BatchEvent ε)} {s : BatchState ρ σ}
    (hok : (batch P parallelism records).Meets (okEvent sim.ok · · = true) events
      (batch P parallelism records).init)
    (hrun : (batch P parallelism records).run events (batch P parallelism records).init = some s) :
    ∃ u, (batch Q parallelism records').run ((batch P parallelism records).trace
        (readEvent sim.reads) events (batch P parallelism records).init)
        (batch Q parallelism records').init = some u ∧ SameBatch sim s u ∧
      (batch Q parallelism records').trace (handlerStarts sim.starts')
        ((batch P parallelism records).trace (readEvent sim.reads) events
          (batch P parallelism records).init) (batch Q parallelism records').init =
        (batch P parallelism records).trace (handlerStarts sim.starts) events
          (batch P parallelism records).init := by
  have hworkers : parallelism.workers records'.length = parallelism.workers records.length := by
    rw [hsame.length_eq]
  refine Machine.run_follows (fun s e t u h hok hs => ?_) (sameBatch_init sim parallelism hsame)
    hok hrun
  rw [batch, hworkers]
  exact follows_step h hok hs _

end Ez4.Queue.Batch

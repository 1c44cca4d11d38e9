import Ez4.Queue.BatchOrder

/-! # Runs of a batch

A batch never gets stuck: whenever it isn't finished, a record is being
processed or a worker can go on, and it goes on at most three times for each
record. With the order of its groups this is what a batch promises. -/
namespace Ez4.Queue.Batch
open Ez4.Library Ez4.Queue.Messages Ez4.Utils.Tasks BatchState

variable {ρ σ ε : Type} {P : Process ρ σ ε} {records : List ρ} {s t : BatchState ρ σ}

/-- The batch itself goes on, not a record in its processing. -/
def BatchEvent.isSchedule : BatchEvent ε → Bool
  | .inner _ _ => false
  | _ => true

/-! ## Progress -/

theorem workers_pos (parallelism : Parallelism) {n : Nat} (h : 0 < n) :
    0 < parallelism.workers n := by
  unfold Parallelism.workers
  split <;> omega

/-- The first record that waits for its turn has its turn, unless one is
being processed. -/
theorem turnCame_of_idle (ht : InTurns P records s) (idle : ∀ i, s.stage i ≠ some .processing)
    {j : Nat} (hj : s.stage j = some .awaitingTurn)
    (first : ∀ i < j, s.stage i ≠ some .awaitingTurn) : s.turnCame P j = true := by
  unfold BatchState.turnCame
  split
  · rfl
  · rename_i p hp
    rw [ht.items] at hp
    obtain ⟨hpj, -⟩ := sameGroup_of_previous hp
    obtain ⟨_, _, task, _⟩ := stage_eq_some.mp hj
    obtain ⟨hlt, -⟩ := List.getElem?_eq_some_iff.mp task
    have hp : p < s.tasks.length := Nat.lt_trans hpj hlt
    have hsome : s.stage p = some (stageOf s.tasks[p].status) :=
      stage_eq_some.mpr ⟨_, _, List.getElem?_eq_getElem _, rfl⟩
    rw [settled_iff]
    refine ⟨_, hsome, ?_⟩
    generalize stageOf s.tasks[p].status = a at hsome
    cases a with
    | waiting => cases ht.inOrder p j hpj hsome _ hj
    | awaitingTurn => exact absurd hsome (first p hpj)
    | processing => exact absurd hsome (idle p)
    | stopped | skipped | leftOut | processed => rfl

/-- **A batch never gets stuck.** -/
theorem schedule_of_idle {workers : Nat} (ht : InTurns P records s)
    (hw : 0 < records.length → 0 < workers) (hf : s.finished = false)
    (idle : ∀ i, s.stage i ≠ some .processing) :
    ∃ e t, BatchEvent.isSchedule e = true ∧ step P workers s e = some t := by
  by_cases hwait : ∃ j, s.stage j = some .awaitingTurn
  · have hj := Nat.find_spec hwait
    have hturn := turnCame_of_idle ht idle hj fun i hi => Nat.find_min hwait hi
    obtain ⟨record, status, task, hstatus⟩ := stage_eq_some.mp hj
    rw [stageOf_eq_awaitingTurn.mp hstatus] at task
    refine ⟨.resume (Nat.find hwait) 0 0, s.resume P (Nat.find hwait) record 0 0, rfl, ?_⟩
    simp only [step, running?_eq_some.mpr task, hturn, if_true]
  · have hpos : 0 < workers := by
      refine hw ?_
      rw [← ht.items, BatchState.records, List.length_map, List.length_pos_iff]
      rintro heq
      simp [BatchState.finished, done, heq] at hf
    rcases running_or_next hpos hf with ⟨i, ⟨record, status⟩, work, task, hs⟩ | ⟨i, hi⟩
    · simp only at hs
      subst hs
      cases work with
      | awaitingTurn => exact absurd ⟨i, stage_eq_some.mpr ⟨_, _, task, rfl⟩⟩ hwait
      | processing => exact absurd (stage_eq_some.mpr ⟨_, _, task, rfl⟩) (idle i)
    · refine ⟨.take, s.setTask i (.running .awaitingTurn), rfl, ?_⟩
      simp only [step, hi, Option.map_some]

/-! ## Length -/

/-- How often the batch itself goes on with a record yet. -/
def weight (status : TaskStatus (Work σ) (Ending σ)) : Nat :=
  match stageOf status with
  | .waiting => 3
  | .awaitingTurn => 2
  | .processing => 1
  | _ => 0

theorem total_setTask {i : Nat} {u : BatchState ρ σ} {record : ρ}
    {status : TaskStatus (Work σ) (Ending σ)} (task : s.tasks[i]? = some ⟨record, status⟩)
    (tasks : u.tasks = s.tasks) (status' : TaskStatus (Work σ) (Ending σ)) :
    total weight (u.setTask i status').tasks + weight status =
      total weight s.tasks + weight status' := by
  have := total_setStatus task weight status'
  rw [setTask, tasks]
  exact this

theorem total_resume {i : Nat} {record : ρ}
    (task : s.tasks[i]? = some ⟨record, .running .awaitingTurn⟩) (timeLeft now : Int) :
    total weight (s.resume P i record timeLeft now).tasks + 1 ≤ total weight s.tasks := by
  have hsettled : ∀ (u : BatchState ρ σ) (ending : Ending σ), u.tasks = s.tasks →
      weight (.settled ending) = 0 →
      total weight (u.setTask i (.settled ending)).tasks + 1 ≤ total weight s.tasks := by
    intro u ending hu hw
    have := total_setTask task hu (.settled ending)
    simp only [hw, show weight (.running (.awaitingTurn : Work σ) : TaskStatus _ (Ending σ)) = 2
      from rfl] at this
    omega
  unfold BatchState.resume
  split
  · exact hsettled s _ rfl rfl
  split
  · exact hsettled _ _ rfl rfl
  split
  · exact hsettled _ _ (by simp) rfl
  · have := total_setTask (u := s) task rfl (.running (.processing now (P.start record now)))
    simp only [weight, stageOf] at this
    show total weight (s.setTask i _).tasks + 1 ≤ _
    omega

theorem total_inner {i : Nat} {event : ε} (h : s.inner P i event = some t) :
    total weight t.tasks = total weight s.tasks := by
  unfold BatchState.inner at h
  split at h
  · rename_i record startTime state task
    obtain ⟨state', -, rfl⟩ := Option.map_eq_some_iff.mp h
    have := total_setTask (u := s) task rfl (.running (.processing startTime state'))
    simp only [weight, stageOf] at this
    omega
  · rename_i record state outcome task
    obtain ⟨state', -, rfl⟩ := Option.map_eq_some_iff.mp h
    have := total_setTask (u := s) task rfl (.settled (.processed state' outcome))
    simp only [weight, stageOf] at this
    omega
  · cases h

/-- Every event but those in the processing of a record makes the batch lighter. -/
theorem total_step {workers : Nat} {e : BatchEvent ε} (h : step P workers s e = some t) :
    total weight t.tasks + 1 ≤ total weight s.tasks + if e.isSchedule then 0 else 1 := by
  cases e with
  | take =>
    obtain ⟨i, hi, rfl⟩ := Option.map_eq_some_iff.mp h
    obtain ⟨⟨record, status⟩, task, rfl⟩ := next?_eq_some hi
    have := total_setTask (u := s) task rfl (.running .awaitingTurn)
    simp only [weight, stageOf] at this
    simp only [BatchEvent.isSchedule, if_true]
    omega
  | resume i timeLeft now =>
    simp only [step] at h
    split at h
    · rename_i record hr
      split at h
      · cases h
        exact total_resume (running?_eq_some.mp hr) timeLeft now
      · cases h
    · cases h
  | inner i event =>
    exact (congrArg (· + 1) (total_inner h)).le
  | settle i now =>
    simp only [step] at h
    split at h
    · rename_i record startTime state hr
      obtain ⟨outcome, -, rfl⟩ := Option.map_eq_some_iff.mp h
      obtain ⟨u, hu, -, heq⟩ := settle_eq (P := P) (s := s) (i := i) record startTime state outcome
        now
      have := total_setTask (running?_eq_some.mp hr) hu (.settled (.processed state outcome))
      simp only [weight, stageOf] at this
      rw [heq]
      simp only [BatchEvent.isSchedule, if_true]
      omega
    · cases h

theorem length_le_of_run {parallelism : Parallelism} {events : List (BatchEvent ε)}
    (h : (batch P parallelism records).run events (batch P parallelism records).init = some s) :
    events.countP (·.isSchedule) ≤ 3 * records.length := by
  have hstep : ∀ (s : BatchState ρ σ) (e : BatchEvent ε) (t : BatchState ρ σ), True →
      (batch P parallelism records).step s e = some t →
      total weight t.tasks + 1 ≤ total weight s.tasks + if e.isSchedule then 0 else 1 :=
    fun _ _ _ _ hstep => total_step hstep
  have hrun := Machine.length_le_of_potential (fun _ _ _ _ _ => trivial) hstep trivial h
  have hinit : total weight (batch P parallelism records).init.tasks = 3 * records.length :=
    total_start _ _
  have hcount : ∀ events : List (BatchEvent ε),
      events.length = events.countP (·.isSchedule) +
        (events.map fun e => if e.isSchedule then 0 else 1).sum := by
    intro events
    induction events with
    | nil => rfl
    | cons e rest ih =>
      rw [List.length_cons, ih, List.countP_cons, List.map_cons, List.sum_cons]
      split <;> omega
  have := hcount events
  simp only [hinit] at hrun
  omega

/-! ## The order of a batch -/

/-- What the groups of a batch keep to at any time. -/
structure RunsInTurn (P : Process ρ σ ε) (records : List ρ) (s : BatchState ρ σ) : Prop where
  /-- Two records of a group are not processed at the same time. -/
  apart : ∀ i j, i ≠ j → SameGroup P records i j →
    ¬ (s.stage i = some .processing ∧ s.stage j = some .processing)
  /-- The records whose processing started are those in the record of starts,
  and those of a group stand there in batch order. -/
  started : ∀ i, i ∈ s.started ↔ ∃ a, s.stage i = some a ∧ a.ran = true
  inOrder : s.started.Pairwise fun i j => SameGroup P records i j → i < j
  /-- After a record that held its group or was left out no later one of the
  group starts, and each is handed back. -/
  stops : ∀ i j a, i < j → SameGroup P records i j → s.stage i = some a → a.holds = true →
    j ∉ s.started ∧ (s.Returned → ∀ record, records[j]? = some record →
      P.messageId record ∈ s.batchItemFailures P)

/-- Something can happen in a record, or the batch goes on by itself. -/
def NeverStuck (P : Process ρ σ ε) (workers : Nat) (s : BatchState ρ σ) : Prop :=
  s.finished = false → (∃ i, s.stage i = some .processing) ∨
    ∃ e t, BatchEvent.isSchedule e = true ∧ step P workers s e = some t

theorem apart_of_turns (ht : InTurns P records s) {i j : Nat} (hij : i < j)
    (hg : SameGroup P records i j) (hi : s.stage i = some .processing)
    (hj : s.stage j = some .processing) : False := by
  obtain ⟨a, ha, he⟩ := settled_iff.mp (ht.turns i j _ hij hg hj rfl)
  rw [hi, Option.some.injEq] at ha
  subst ha
  cases he

/-- A record that never started is in the batch response. -/
theorem mem_batchItemFailures (ht : InTurns P records s) (hr : AllReported P s)
    (hs : Starts P records s) (hret : s.Returned) {j : Nat} (hj : j ∉ s.started) {record : ρ}
    (hrecord : records[j]? = some record) : P.messageId record ∈ s.batchItemFailures P := by
  obtain ⟨hdone, hfailure⟩ := hret
  rw [← ht.items, BatchState.records, List.getElem?_map, Option.map_eq_some_iff] at hrecord
  obtain ⟨⟨item, status⟩, task, rfl⟩ := hrecord
  have hm := List.mem_of_getElem? task
  have hreported := hr _ hm
  have hfailed : P.messageId item ∈ s.failedMessageIds := by
    obtain ⟨ending, rfl⟩ : ∃ ending, status = .settled ending := settled_of_done hdone hm
    cases ending with
    | stopped =>
      have := hreported.failure (.inl rfl)
      rw [hfailure] at this
      cases this
    | skipped => exact hreported.message (.inl rfl)
    | leftOut => exact hreported.message (.inr rfl)
    | processed state outcome =>
      exact absurd ((hs.ran j).mpr ⟨_, stage_eq_some.mpr ⟨_, _, task, rfl⟩, rfl⟩) hj
  refine List.mem_map.mpr ⟨item, List.mem_filter.mpr ⟨?_, ?_⟩, rfl⟩
  · exact List.mem_map.mpr ⟨_, hm, rfl⟩
  · simpa using hfailed

theorem runsInTurn_of_run {parallelism : Parallelism} {events : List (BatchEvent ε)}
    (h : (batch P parallelism records).run events (batch P parallelism records).init = some s) :
    RunsInTurn P records s ∧ NeverStuck P (parallelism.workers records.length) s := by
  obtain ⟨ht, hr, hs⟩ := invariants_of_run h
  refine ⟨⟨?_, hs.ran, hs.order, ?_⟩, ?_⟩
  · rintro i j hne hg ⟨hi, hj⟩
    rcases Nat.lt_or_gt_of_ne hne with hlt | hgt
    · exact apart_of_turns ht hlt hg hi hj
    · exact apart_of_turns ht hgt hg.symm hj hi
  · intro i j a hij hg hi ha
    have hj := hs.held i j a hij hg hi ha
    exact ⟨hj, fun hret _ hrecord => mem_batchItemFailures ht hr hs hret hj hrecord⟩
  · intro hf
    by_cases hp : ∃ i, s.stage i = some .processing
    · exact .inl hp
    · exact .inr (schedule_of_idle ht (workers_pos parallelism) hf fun i hi => hp ⟨i, hi⟩)

/-! ## The queue runtime -/

open Ez4.Queue.ProcessRecord

/-- **A FIFO batch runs each group in order.** After any run of the batch the
records of a group took turns in batch order, none started after one that held
the group or was left out, and those are all handed back; the batch can go on
unless it is finished, and it goes on at most three times for each record. -/
theorem processAllRecords_runsInTurn (options : Options) (acknowledge : String)
    (parallelism : Parallelism) (records : List SqsRecord)
    (events : List (BatchEvent RecordEvent)) (s : BatchState SqsRecord RecordState)
    (h : (processAllRecords options acknowledge parallelism records).run events
      (processAllRecords options acknowledge parallelism records).init = some s) :
    RunsInTurn (recordProcess options (deletesEachRecord acknowledge records)) records s ∧
      NeverStuck (recordProcess options (deletesEachRecord acknowledge records))
        (parallelism.workers records.length) s ∧
      events.countP (·.isSchedule) ≤ 3 * records.length :=
  ⟨(runsInTurn_of_run h).1, (runsInTurn_of_run h).2, length_le_of_run h⟩

/-- Two records of the group `g`. -/
def groupedRecords : List SqsRecord :=
  [{ messageId := "1", body := "x", messageGroupId := some "g" },
    { messageId := "2", body := "y", messageGroupId := some "g" }]

/-- The first record isn't valid and is handed back, with its group. -/
def groupedEvents : List (BatchEvent RecordEvent) :=
  [.take, .take, .resume 0 5000 0, .inner 0 (.answer (.rejected false) ⟨0, 0, 0⟩),
    .inner 0 (.answer .fulfilled ⟨0, 0, 0⟩), .inner 0 (.answer .fulfilled ⟨0, 0, 0⟩), .settle 0 4,
    .resume 1 5000 4]

/-- The batch of the two records once the first one failed. -/
def groupedEnd : BatchState SqsRecord RecordState :=
  ((processAllRecords {} "record" (.finite 2) groupedRecords).run groupedEvents
    (processAllRecords {} "record" (.finite 2) groupedRecords).init).getD { tasks := [] }

theorem groupedRecords_runsInTurn : groupedEnd.started = [0] ∧ groupedEnd.Returned ∧
    RunsInTurn (recordProcess {} true) groupedRecords groupedEnd :=
  ⟨by decide, ⟨by decide, by decide⟩,
    (processAllRecords_runsInTurn {} "record" (.finite 2) groupedRecords groupedEvents groupedEnd
      (by decide)).1⟩

end Ez4.Queue.Batch

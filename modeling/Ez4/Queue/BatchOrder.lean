import Ez4.Queue.Batch

/-! # The order of a batch

The records of a group take turns: no two of them are processed at the same
time, they start in batch order, and none starts after the group failed. All
of it follows from what one step can do to the stages of the records. -/
namespace Ez4.Queue.Batch
open Ez4.Library Ez4.Queue.Messages Ez4.Utils.Tasks

variable {ρ σ ε : Type} {P : Process ρ σ ε}

/-! ## Stages -/

/-- How far a record is, but for what goes on in its processing. -/
inductive Stage
  | waiting
  | awaitingTurn
  | processing
  | stopped
  | skipped
  | leftOut
  | processed (outcome : Option RecordOutcome)
deriving DecidableEq, Repr

def stageOf : TaskStatus (Work σ) (Ending σ) → Stage
  | .waiting => .waiting
  | .running .awaitingTurn => .awaitingTurn
  | .running (.processing _ _) => .processing
  | .settled .stopped => .stopped
  | .settled .skipped => .skipped
  | .settled .leftOut => .leftOut
  | .settled (.processed _ outcome) => .processed outcome

/-- The record no longer waits for its turn. -/
def Stage.pastTurn : Stage → Bool
  | .waiting | .awaitingTurn => false
  | _ => true

def Stage.ended : Stage → Bool
  | .waiting | .awaitingTurn | .processing => false
  | _ => true

/-- The record held its group, or was left out for lack of time. -/
def Stage.holds : Stage → Bool
  | .leftOut => true
  | .processed (some outcome) => outcome.holdsGroup
  | _ => false

/-- The record started. -/
def Stage.ran : Stage → Bool
  | .processing | .processed _ => true
  | _ => false

theorem stageOf_eq_waiting {status : TaskStatus (Work σ) (Ending σ)} :
    stageOf status = .waiting ↔ status = .waiting := by
  constructor
  · intro h
    rcases status with _ | (_ | _) | (_ | _ | _ | _) <;> first | rfl | cases h
  · rintro rfl
    rfl

theorem stageOf_eq_awaitingTurn {status : TaskStatus (Work σ) (Ending σ)} :
    stageOf status = .awaitingTurn ↔ status = .running .awaitingTurn := by
  constructor
  · intro h
    rcases status with _ | (_ | _) | (_ | _ | _ | _) <;> first | rfl | cases h
  · rintro rfl
    rfl

theorem ended_stageOf {status : TaskStatus (Work σ) (Ending σ)} :
    (stageOf status).ended = status.result?.isSome := by
  rcases status with _ | (_ | _) | (_ | _ | _ | _) <;> rfl

theorem Stage.pastTurn_of_ended {stage : Stage} (h : stage.ended = true) :
    stage.pastTurn = true := by
  cases stage <;> first | rfl | cases h

theorem Stage.pastTurn_of_ran {stage : Stage} (h : stage.ran = true) : stage.pastTurn = true := by
  cases stage <;> first | rfl | cases h

namespace BatchState

def stage (s : BatchState ρ σ) (i : Nat) : Option Stage := s.tasks[i]?.map (stageOf ·.status)

variable {s t : BatchState ρ σ} {i j : Nat}

theorem stage_eq_some {stage : Stage} :
    s.stage i = some stage ↔ ∃ record status,
      s.tasks[i]? = some ⟨record, status⟩ ∧ stageOf status = stage := by
  unfold BatchState.stage
  rw [Option.map_eq_some_iff]
  constructor
  · rintro ⟨⟨record, status⟩, h, rfl⟩
    exact ⟨record, status, h, rfl⟩
  · rintro ⟨record, status, h, rfl⟩
    exact ⟨⟨record, status⟩, h, rfl⟩

theorem settled_iff : s.settled i = true ↔ ∃ stage, s.stage i = some stage ∧
    stage.ended = true := by
  unfold BatchState.settled BatchState.stage
  cases s.tasks[i]? with
  | none => simp
  | some task => simp [ended_stageOf]

theorem stage_setTask {status : TaskStatus (Work σ) (Ending σ)} :
    (s.setTask i status).stage j =
      if i = j then (s.stage j).map fun _ => stageOf status else s.stage j := by
  unfold BatchState.stage setTask
  simp only [getElem?_setStatus]
  split <;> simp [Function.comp_def]

@[simp] theorem records_setTask {status : TaskStatus (Work σ) (Ending σ)} :
    (s.setTask i status).records = s.records := by
  simp [BatchState.records, setTask]

/-! ## What a step can do -/

/-- One step of a batch, by what becomes of a record. -/
inductive Moved (P : Process ρ σ ε) (s : BatchState ρ σ) : BatchState ρ σ → Prop
  | take {i : Nat} {record : ρ} (task : s.tasks[i]? = some ⟨record, .waiting⟩)
      (first : ∀ j < i, s.stage j ≠ some .waiting) :
      Moved P s (s.setTask i (.running .awaitingTurn))
  | stop {i : Nat} {record : ρ} (task : s.tasks[i]? = some ⟨record, .running .awaitingTurn⟩)
      (turn : s.turnCame P i = true) (failure : s.batchFailure = true) :
      Moved P s (s.setTask i (.settled .stopped))
  | skip {i : Nat} {record : ρ} (task : s.tasks[i]? = some ⟨record, .running .awaitingTurn⟩)
      (turn : s.turnCame P i = true) (failed : s.groupFailed P record = true) :
      Moved P s ((s.failMessage P record).setTask i (.settled .skipped))
  | leaveOut {i : Nat} {record : ρ}
      (task : s.tasks[i]? = some ⟨record, .running .awaitingTurn⟩)
      (turn : s.turnCame P i = true) :
      Moved P s (((s.failMessage P record).failGroup P record).setTask i (.settled .leftOut))
  | begin {i : Nat} {record : ρ} (task : s.tasks[i]? = some ⟨record, .running .awaitingTurn⟩)
      (turn : s.turnCame P i = true) (open' : s.groupFailed P record = false) (now : Int) :
      Moved P s { s.setTask i (.running (.processing now (P.start record now))) with
        started := s.started ++ [i] }
  | inner {i : Nat} {record : ρ} {status status' : TaskStatus (Work σ) (Ending σ)}
      (task : s.tasks[i]? = some ⟨record, status⟩) (same : stageOf status' = stageOf status) :
      Moved P s (s.setTask i status')
  | settle {i : Nat} {record : ρ} {startTime : Int} {state : σ}
      (task : s.tasks[i]? = some ⟨record, .running (.processing startTime state)⟩)
      (outcome : Option RecordOutcome) (ended : P.outcome? state = some outcome) (now : Int) :
      Moved P s (s.settle P i record startTime state outcome now)

theorem moved_resume {record : ρ} (task : s.tasks[i]? = some ⟨record, .running .awaitingTurn⟩)
    (turn : s.turnCame P i = true) (timeLeft now : Int) :
    Moved P s (s.resume P i record timeLeft now) := by
  unfold BatchState.resume
  split
  · rename_i hf
    exact .stop task turn hf
  split
  · rename_i hg
    exact .skip task turn hg
  split
  · exact .leaveOut task turn
  · rename_i hg _
    exact .begin task turn (by simpa using hg) now

theorem moved_inner {event : ε} (h : s.inner P i event = some t) : Moved P s t := by
  unfold BatchState.inner at h
  split at h
  · rename_i record startTime state task
    obtain ⟨state', -, rfl⟩ := Option.map_eq_some_iff.mp h
    exact .inner task rfl
  · rename_i record state outcome task
    obtain ⟨state', -, rfl⟩ := Option.map_eq_some_iff.mp h
    exact .inner task rfl
  · cases h

theorem moved_step {workers : Nat} {e : BatchEvent ε} (h : step P workers s e = some t) :
    Moved P s t := by
  cases e with
  | take =>
    obtain ⟨i, hi, rfl⟩ := Option.map_eq_some_iff.mp h
    obtain ⟨⟨record, status⟩, task, rfl⟩ := next?_eq_some hi
    refine .take task fun j hj hs => ?_
    obtain ⟨_, _, hjt, hst⟩ := stage_eq_some.mp hs
    exact not_waiting_of_next? hi hj hjt (stageOf_eq_waiting.mp hst)
  | resume i timeLeft now =>
    simp only [step] at h
    split at h
    · rename_i record hr
      split at h
      · rename_i turn
        cases h
        exact moved_resume (running?_eq_some.mp hr) turn timeLeft now
      · cases h
    · cases h
  | inner i event => exact moved_inner h
  | settle i now =>
    simp only [step] at h
    split at h
    · rename_i record startTime state hr
      obtain ⟨outcome, ended, rfl⟩ := Option.map_eq_some_iff.mp h
      exact .settle (running?_eq_some.mp hr) outcome ended now
    · cases h

/-- What every step keeps of the stages. -/
structure StageMove (P : Process ρ σ ε) (s t : BatchState ρ σ) (i : Nat) (a b : Stage) :
    Prop where
  before : s.stage i = some a
  after : ∀ j, t.stage j = if i = j then some b else s.stage j
  ended : a.ended = true → b = a
  past : a.pastTurn = true → b.pastTurn = true
  turn : b.pastTurn = true → a.pastTurn = true ∨ s.turnCame P i = true
  first : a = .waiting → b ≠ .waiting → ∀ j < i, s.stage j ≠ some .waiting
  taken : b = .waiting → a = .waiting

theorem stageMove_setTask {u : BatchState ρ σ} {record : ρ}
    {status status' : TaskStatus (Work σ) (Ending σ)}
    (task : s.tasks[i]? = some ⟨record, status⟩) (tasks : u.tasks = s.tasks)
    (ended : (stageOf status).ended = true → stageOf status' = stageOf status)
    (past : (stageOf status).pastTurn = true → (stageOf status').pastTurn = true)
    (turn : (stageOf status').pastTurn = true → (stageOf status).pastTurn = true ∨
      s.turnCame P i = true)
    (first : stageOf status = .waiting → stageOf status' ≠ .waiting →
      ∀ j < i, s.stage j ≠ some .waiting)
    (taken : stageOf status' = .waiting → stageOf status = .waiting) :
    StageMove P s (u.setTask i status') i (stageOf status) (stageOf status') where
  before := stage_eq_some.mpr ⟨record, status, task, rfl⟩
  after j := by
    have hu : ∀ j, u.stage j = s.stage j := fun j => by unfold BatchState.stage; rw [tasks]
    rw [stage_setTask, hu]
    split
    · rename_i h
      subst h
      rw [stage_eq_some.mpr ⟨record, status, task, rfl⟩]
      rfl
    · rfl
  ended := ended
  past := past
  turn := turn
  first := first
  taken := taken

@[simp] theorem tasks_failMessage {record : ρ} : (s.failMessage P record).tasks = s.tasks := rfl

@[simp] theorem tasks_failGroup {record : ρ} : (s.failGroup P record).tasks = s.tasks := by
  unfold BatchState.failGroup
  split <;> rfl

/-- The state in which `settle` settles the task. -/
theorem settle_eq (record : ρ) (startTime : Int) (state : σ) (outcome : Option RecordOutcome)
    (now : Int) : ∃ u : BatchState ρ σ, u.tasks = s.tasks ∧ u.started = s.started ∧
      s.settle P i record startTime state outcome now =
        u.setTask i (.settled (.processed state outcome)) := by
  cases outcome with
  | none => exact ⟨{ s with batchFailure := true }, rfl, rfl, rfl⟩
  | some outcome =>
    refine ⟨_, ?_, ?_, rfl⟩
    · split <;> split <;> simp
    · split <;> split <;> simp [failMessage, failGroup] <;> split <;> rfl

/-- What every step keeps of the record of starts. -/
def StartMove (P : Process ρ σ ε) (s t : BatchState ρ σ) (i : Nat) (a b : Stage) : Prop :=
  (t.started = s.started ∧ b.ran = a.ran) ∨
    (t.started = s.started ++ [i] ∧ a = .awaitingTurn ∧ b = .processing ∧
      ∃ record, s.records[i]? = some record ∧ s.groupFailed P record = false)

theorem record_of_task {record : ρ} {status : TaskStatus (Work σ) (Ending σ)}
    (task : s.tasks[i]? = some ⟨record, status⟩) : s.records[i]? = some record := by
  rw [BatchState.records, List.getElem?_map, task]
  rfl

theorem Moved.stages (h : Moved P s t) :
    ∃ i a b, StageMove P s t i a b ∧ StartMove P s t i a b := by
  cases h with
  | take task first =>
    exact ⟨_, _, _, stageMove_setTask task rfl nofun nofun nofun (fun _ _ => first) nofun,
      .inl ⟨rfl, rfl⟩⟩
  | stop task turn _ =>
    exact ⟨_, _, _, stageMove_setTask task rfl nofun nofun (fun _ => .inr turn) nofun nofun,
      .inl ⟨rfl, rfl⟩⟩
  | skip task turn _ =>
    exact ⟨_, _, _, stageMove_setTask task (by simp) nofun nofun (fun _ => .inr turn) nofun nofun,
      .inl ⟨rfl, rfl⟩⟩
  | leaveOut task turn =>
    refine ⟨_, _, _, stageMove_setTask task (by simp) nofun nofun (fun _ => .inr turn) nofun nofun,
      .inl ⟨?_, rfl⟩⟩
    simp only [setTask, failGroup, failMessage]
    split <;> rfl
  | @begin i record task turn open' now =>
    have hm : StageMove P s (s.setTask i (.running (.processing now (P.start record now)))) i
        .awaitingTurn .processing :=
      stageMove_setTask task rfl nofun nofun (fun _ => .inr turn) nofun nofun
    exact ⟨_, _, _, ⟨hm.before, hm.after, hm.ended, hm.past, hm.turn, hm.first, hm.taken⟩,
      .inr ⟨rfl, rfl, rfl, _, record_of_task task, open'⟩⟩
  | inner task same =>
    exact ⟨_, _, _, stageMove_setTask task rfl (fun _ => same) (fun h => same ▸ h)
      (fun h => .inl (same ▸ h)) (fun h h' => absurd (same.trans h) h') (fun h => same ▸ h),
      .inl ⟨rfl, congrArg Stage.ran same⟩⟩
  | settle task outcome _ now =>
    obtain ⟨u, hu, hstarted, heq⟩ := settle_eq (P := P) _ _ _ outcome now
    rw [heq]
    exact ⟨_, _, _, stageMove_setTask task hu nofun (fun _ => rfl) (fun _ => .inl rfl) nofun
      nofun, .inl ⟨hstarted, rfl⟩⟩

end BatchState

/-! ## Turns -/

open BatchState

variable {records : List ρ} {s t : BatchState ρ σ}

/-- The group of the record at a place. -/
def groupAt (P : Process ρ σ ε) (records : List ρ) (i : Nat) : Option String :=
  records[i]?.bind P.group

/-- Two places whose records have the same group. -/
def SameGroup (P : Process ρ σ ε) (records : List ρ) (i j : Nat) : Prop :=
  ∃ group, groupAt P records i = some group ∧ groupAt P records j = some group

theorem SameGroup.symm {i j : Nat} (h : SameGroup P records i j) : SameGroup P records j i :=
  h.imp fun _ h => h.symm

theorem SameGroup.trans {i j k : Nat} (h : SameGroup P records i j)
    (h' : SameGroup P records j k) : SameGroup P records i k := by
  obtain ⟨group, hi, hj⟩ := h
  obtain ⟨group', hj', hk⟩ := h'
  rw [hj, Option.some.injEq] at hj'
  exact ⟨group, hi, hj' ▸ hk⟩

/-- The record a record waits for is the last one of its group before it. -/
theorem previousInGroup_spec {i j : Nat} (hlt : i < j) (hg : SameGroup P records i j) :
    ∃ p, previousInGroup P records j = some p ∧ i ≤ p ∧ p < j ∧ SameGroup P records p j := by
  obtain ⟨group, hi, hj⟩ := hg
  unfold groupAt at hi hj
  unfold previousInGroup
  rw [hj]
  have hmem : i ∈ (List.range j).filter fun k => records[k]?.bind P.group = some group := by
    simp [hlt, hi]
  obtain ⟨init, last, hlast⟩ := List.eq_nil_or_concat'
    ((List.range j).filter fun k => records[k]?.bind P.group = some group) |>.resolve_left
      (List.ne_nil_of_mem hmem)
  have hpair : List.Pairwise (· < ·)
      ((List.range j).filter fun k => records[k]?.bind P.group = some group) :=
    List.pairwise_lt_range.filter _
  have hm : last ∈ (List.range j).filter fun k => records[k]?.bind P.group = some group := by
    rw [hlast]
    exact List.mem_append_right _ (List.mem_singleton_self _)
  simp only [List.mem_filter, List.mem_range, decide_eq_true_eq] at hm
  refine ⟨last, by simp only [hlast, List.getLast?_append, List.getLast?_singleton, Option.some_or],
    ?_, hm.1, group, hm.2, hj⟩
  rw [hlast] at hmem hpair
  rcases List.mem_append.mp hmem with h | h
  · exact Nat.le_of_lt ((List.pairwise_append.mp hpair).2.2 i h last (List.mem_singleton_self _))
  · exact Nat.le_of_eq (List.mem_singleton.mp h)

theorem sameGroup_of_previous {j p : Nat} (h : previousInGroup P records j = some p) :
    p < j ∧ SameGroup P records p j := by
  unfold previousInGroup at h
  cases hg : records[j]?.bind P.group with
  | none => rw [hg] at h; cases h
  | some group =>
    rw [hg] at h
    have hm := List.mem_of_getLast? h
    simp only [List.mem_filter, List.mem_range, decide_eq_true_eq] at hm
    exact ⟨hm.1, group, hm.2, hg⟩

/-- Records are taken in order, and past their turn in the order of their group. -/
structure InTurns (P : Process ρ σ ε) (records : List ρ) (s : BatchState ρ σ) : Prop where
  items : s.records = records
  inOrder : ∀ i j, i < j → s.stage i = some .waiting → ∀ a, s.stage j = some a → a = .waiting
  turns : ∀ i j a, i < j → SameGroup P records i j → s.stage j = some a → a.pastTurn = true →
    s.settled i = true

theorem settled_of_stageMove {i k : Nat} {a b : Stage} (h : StageMove P s t i a b)
    (hk : s.settled k = true) : t.settled k = true := by
  obtain ⟨c, hc, he⟩ := settled_iff.mp hk
  rw [settled_iff, h.after]
  split
  · rename_i hik
    subst hik
    rw [h.before, Option.some.injEq] at hc
    subst hc
    exact ⟨b, rfl, h.ended he ▸ he⟩
  · exact ⟨c, hc, he⟩

theorem BatchState.Moved.records_eq (h : Moved P s t) : t.records = s.records := by
  cases h with
  | take | stop | inner => exact records_setTask
  | skip => exact records_setTask
  | leaveOut task turn =>
    rw [records_setTask]
    unfold BatchState.records
    rw [tasks_failGroup, tasks_failMessage]
  | begin => exact records_setTask
  | settle task outcome _ now =>
    obtain ⟨u, hu, -, heq⟩ := settle_eq (P := P) _ _ _ outcome now
    rw [heq, records_setTask]
    unfold BatchState.records
    rw [hu]

theorem inTurns_moved (hs : InTurns P records s) (h : Moved P s t) : InTurns P records t := by
  obtain ⟨k, a, b, hm, -⟩ := h.stages
  refine ⟨h.records_eq.trans hs.items, fun i j hij hi c hj => ?_, fun i j c hij hg hj hp => ?_⟩
  · -- only `take` makes a record stop waiting, and it takes the first one
    rw [hm.after] at hi hj
    have hi' : s.stage i = some .waiting := by
      split at hi
      · rename_i hki
        rw [Option.some.injEq] at hi
        rw [← hki, hm.before, hm.taken hi]
      · exact hi
    split at hj
    · rename_i hkj
      subst hkj
      rw [Option.some.injEq] at hj
      subst hj
      have ha := hs.inOrder i k hij hi' a hm.before
      by_contra hb
      exact hm.first ha hb i hij hi'
    · exact hs.inOrder i j hij hi' c hj
  · apply settled_of_stageMove hm
    rw [hm.after] at hj
    split at hj
    · rename_i hkj
      subst hkj
      rw [Option.some.injEq] at hj
      subst hj
      rcases hm.turn hp with ha | hturn
      · exact hs.turns i k a hij hg hm.before ha
      · obtain ⟨p, hprev, hip, hpk, hgp⟩ := previousInGroup_spec hij hg
        unfold BatchState.turnCame at hturn
        rw [hs.items, hprev] at hturn
        rcases Nat.lt_or_eq_of_le hip with hlt | rfl
        · obtain ⟨d, hd, he⟩ := settled_iff.mp hturn
          exact hs.turns i p d hlt (hg.trans hgp.symm) hd (Stage.pastTurn_of_ended he)
        · exact hturn
    · exact hs.turns i j c hij hg hj hp

/-! ## Failures -/

/-- What a stage leaves in the sets of failures. -/
structure Reported (P : Process ρ σ ε) (s : BatchState ρ σ) (record : ρ) (a : Stage) : Prop where
  group : a.holds = true → ∀ group, P.group record = some group → group ∈ s.failedGroupIds
  message : a = .skipped ∨ a = .leftOut → P.messageId record ∈ s.failedMessageIds
  handedBack : ∀ outcome, a = .processed (some outcome) → outcome.handedBack = true →
    P.messageId record ∈ s.failedMessageIds
  failure : a = .stopped ∨ a = .processed none → s.batchFailure = true

def AllReported (P : Process ρ σ ε) (s : BatchState ρ σ) : Prop :=
  ∀ task ∈ s.tasks, Reported P s task.item (stageOf task.status)

/-- The sets of failures only grow. -/
structure Grows (s t : BatchState ρ σ) : Prop where
  groups : s.failedGroupIds ⊆ t.failedGroupIds
  messages : s.failedMessageIds ⊆ t.failedMessageIds
  failure : s.batchFailure = true → t.batchFailure = true

theorem Grows.refl (s : BatchState ρ σ) : Grows s s := ⟨fun _ h => h, fun _ h => h, id⟩

theorem Grows.trans {u : BatchState ρ σ} (h : Grows s t) (h' : Grows t u) : Grows s u :=
  ⟨fun _ hm => h'.groups (h.groups hm), fun _ hm => h'.messages (h.messages hm),
    fun hf => h'.failure (h.failure hf)⟩

theorem grows_failMessage {record : ρ} : Grows s (s.failMessage P record) :=
  ⟨fun _ h => h, List.subset_append_left _ _, id⟩

theorem grows_failGroup {record : ρ} : Grows s (s.failGroup P record) := by
  unfold BatchState.failGroup
  split
  · exact .refl s
  · exact ⟨List.subset_append_left _ _, fun _ h => h, id⟩

theorem mem_failGroup {record : ρ} {group : String} (h : P.group record = some group) :
    group ∈ (s.failGroup P record).failedGroupIds := by
  simp [BatchState.failGroup, h]

theorem mem_failMessage {record : ρ} :
    P.messageId record ∈ (s.failMessage P record).failedMessageIds := by
  simp [BatchState.failMessage]

theorem Reported.mono {record : ρ} {a : Stage} (h : Reported P s record a) (hg : Grows s t) :
    Reported P t record a :=
  ⟨fun ha group hr => hg.groups (h.group ha group hr), fun ha => hg.messages (h.message ha),
    fun outcome ha hb => hg.messages (h.handedBack outcome ha hb),
    fun ha => hg.failure (h.failure ha)⟩

theorem allReported_setTask {i : Nat} {u : BatchState ρ σ} {record : ρ}
    {status status' : TaskStatus (Work σ) (Ending σ)} (hs : AllReported P s)
    (task : s.tasks[i]? = some ⟨record, status⟩) (tasks : u.tasks = s.tasks) (grows : Grows s u)
    (new : Reported P u record (stageOf status')) : AllReported P (u.setTask i status') := by
  have hsame : ∀ r a, Reported P u r a → Reported P (u.setTask i status') r a :=
    fun r a h => ⟨h.group, h.message, h.handedBack, h.failure⟩
  intro other hm
  obtain ⟨j, hj⟩ := List.getElem?_of_mem hm
  rw [setTask, getElem?_setStatus, tasks] at hj
  split at hj
  · rename_i hij
    rw [← hij, task, Option.map_some, Option.some.injEq] at hj
    subst hj
    exact hsame _ _ new
  · exact hsame _ _ ((hs other (List.mem_of_getElem? hj)).mono grows)

theorem reported_quiet {record : ρ} {a : Stage} (hp : a.ended = false) : Reported P s record a := by
  cases a with
  | waiting | awaitingTurn | processing => exact ⟨nofun, nofun, nofun, nofun⟩
  | stopped | skipped | leftOut | processed => cases hp

theorem reported_leftOut {record : ρ} :
    Reported P ((s.failMessage P record).failGroup P record) record .leftOut :=
  ⟨fun _ _ hg => mem_failGroup hg,
    fun _ => grows_failGroup.messages mem_failMessage, nofun, nofun⟩

/-- What `settle` reports of an outcome before it settles the task. -/
theorem settle_reported (record : ρ) (startTime : Int) (state : σ)
    (outcome : Option RecordOutcome) (now : Int) (i : Nat) : ∃ u : BatchState ρ σ,
      u.tasks = s.tasks ∧ Grows s u ∧ Reported P u record (.processed outcome) ∧
      s.settle P i record startTime state outcome now =
        u.setTask i (.settled (.processed state outcome)) := by
  cases outcome with
  | none =>
    exact ⟨{ s with batchFailure := true }, rfl, ⟨fun _ h => h, fun _ h => h, fun _ => rfl⟩,
      ⟨nofun, nofun, nofun, fun _ => rfl⟩, rfl⟩
  | some outcome =>
    let s₁ := { s with slowestRecord := max s.slowestRecord (now - startTime) }
    let s₂ := if outcome.handedBack then s₁.failMessage P record else s₁
    let s₃ := if outcome.holdsGroup then s₂.failGroup P record else s₂
    have h₁ : Grows s s₁ := ⟨fun _ h => h, fun _ h => h, id⟩
    have h₂ : Grows s₁ s₂ := by
      simp only [s₂]
      split
      · exact grows_failMessage
      · exact .refl _
    have h₃ : Grows s₂ s₃ := by
      simp only [s₃]
      split
      · exact grows_failGroup
      · exact .refl _
    have htasks : s₃.tasks = s.tasks := by
      simp only [s₃, s₂]
      split <;> split <;> simp [s₁]
    refine ⟨s₃, htasks, (h₁.trans h₂).trans h₃, ⟨fun hh group hr => ?_, nofun, ?_, nofun⟩, rfl⟩
    · simp only [s₃, if_pos (show outcome.holdsGroup = true from hh)]
      exact mem_failGroup hr
    · rintro outcome' heq hb
      cases heq
      apply h₃.messages
      simp only [s₂, if_pos hb]
      exact mem_failMessage

theorem allReported_moved (hs : AllReported P s) (h : Moved P s t) : AllReported P t := by
  cases h with
  | take task => exact allReported_setTask hs task rfl (.refl s) (reported_quiet rfl)
  | stop task _ failure =>
    exact allReported_setTask hs task rfl (.refl s) ⟨nofun, nofun, nofun, fun _ => failure⟩
  | skip task =>
    exact allReported_setTask hs task rfl grows_failMessage
      ⟨nofun, fun _ => mem_failMessage, nofun, nofun⟩
  | leaveOut task =>
    exact allReported_setTask hs task (by simp) (grows_failMessage.trans grows_failGroup)
      reported_leftOut
  | @begin i record task _ _ now =>
    have := allReported_setTask hs task rfl (.refl s)
      (reported_quiet (a := stageOf (.running (.processing now (P.start record now)))) rfl)
    exact fun task hm => ⟨(this task hm).group, (this task hm).message, (this task hm).handedBack,
      (this task hm).failure⟩
  | inner task same =>
    refine allReported_setTask hs task rfl (.refl s) ?_
    rw [same]
    exact hs _ (List.mem_of_getElem? task)
  | settle task outcome _ now =>
    obtain ⟨u, hu, hg, hr, heq⟩ := settle_reported (P := P) (s := s) _ _ _ outcome now _
    rw [heq]
    exact allReported_setTask hs task hu hg hr

/-! ## Starts -/

/-- What the record of starts says of the stages. -/
structure Starts (P : Process ρ σ ε) (records : List ρ) (s : BatchState ρ σ) : Prop where
  ran : ∀ i, i ∈ s.started ↔ ∃ a, s.stage i = some a ∧ a.ran = true
  order : s.started.Pairwise fun i j => SameGroup P records i j → i < j
  /-- No record of a group starts after one that held it. -/
  held : ∀ i j a, i < j → SameGroup P records i j → s.stage i = some a → a.holds = true →
    j ∉ s.started

theorem stage_of_move {i k : Nat} {a b c : Stage} (h : StageMove P s t i a b)
    (hk : t.stage k = some c) : (k = i ∧ c = b) ∨ (k ≠ i ∧ s.stage k = some c) := by
  rw [h.after] at hk
  split at hk
  · rename_i hik
    rw [Option.some.injEq] at hk
    exact .inl ⟨hik.symm, hk.symm⟩
  · rename_i hik
    exact .inr ⟨fun h => hik h.symm, hk⟩

theorem ran_of_move {i k : Nat} {a b : Stage} (h : StageMove P s t i a b) :
    (∃ c, t.stage k = some c ∧ c.ran = true) ↔
      (k = i ∧ b.ran = true) ∨ (k ≠ i ∧ ∃ c, s.stage k = some c ∧ c.ran = true) := by
  constructor
  · rintro ⟨c, hc, hr⟩
    rcases stage_of_move h hc with ⟨rfl, rfl⟩ | ⟨hne, hc⟩
    · exact .inl ⟨rfl, hr⟩
    · exact .inr ⟨hne, c, hc, hr⟩
  · rintro (⟨rfl, hr⟩ | ⟨hne, c, hc, hr⟩)
    · exact ⟨b, by rw [h.after, if_pos rfl], hr⟩
    · exact ⟨c, by rw [h.after, if_neg (Ne.symm hne), hc], hr⟩

/-- A record that is not past its turn started before no record of its group after it. -/
theorem not_started_of_turn (ht : InTurns P records s) (hs : Starts P records s) {i j : Nat}
    {a : Stage} (hij : i < j) (hg : SameGroup P records i j) (hi : s.stage i = some a)
    (ha : a.ended = false) : j ∉ s.started := by
  intro hj
  obtain ⟨b, hb, hr⟩ := (hs.ran j).mp hj
  obtain ⟨c, hc, he⟩ := settled_iff.mp (ht.turns i j b hij hg hb (Stage.pastTurn_of_ran hr))
  rw [hi, Option.some.injEq] at hc
  subst hc
  rw [ha] at he
  cases he

theorem mem_failedGroupIds (hr : AllReported P s) (ht : InTurns P records s) {i : Nat} {a : Stage}
    {group : String} (hi : s.stage i = some a) (ha : a.holds = true)
    (hg : groupAt P records i = some group) : group ∈ s.failedGroupIds := by
  obtain ⟨record, status, task, rfl⟩ := stage_eq_some.mp hi
  refine (hr _ (List.mem_of_getElem? task)).group ha group ?_
  rw [groupAt, ← ht.items, record_of_task task] at hg
  exact hg

theorem starts_moved (ht : InTurns P records s) (hr : AllReported P s) (hs : Starts P records s)
    (h : Moved P s t) : Starts P records t := by
  obtain ⟨k, a, b, hm, hstart⟩ := h.stages
  rcases hstart with ⟨hsame, hran⟩ | ⟨hnew, rfl, rfl, record, hrecord, hopen⟩
  · refine ⟨fun i => ?_, hsame ▸ hs.order, fun i j c hij hg hi hc => ?_⟩
    · rw [hsame, hs.ran, ran_of_move hm, hran]
      constructor
      · rintro ⟨c, hc, hr⟩
        by_cases hik : i = k
        · subst hik
          rw [hm.before, Option.some.injEq] at hc
          exact .inl ⟨rfl, hc ▸ hr⟩
        · exact .inr ⟨hik, c, hc, hr⟩
      · rintro (⟨rfl, hr⟩ | ⟨-, h⟩)
        · exact ⟨a, hm.before, hr⟩
        · exact h
    · rw [hsame]
      rcases stage_of_move hm hi with ⟨rfl, rfl⟩ | ⟨-, hi⟩
      · cases ha : a.ended with
        | true => exact hs.held i j a hij hg hm.before (hm.ended ha ▸ hc)
        | false => exact not_started_of_turn ht hs hij hg hm.before ha
      · exact hs.held i j c hij hg hi hc
  · refine ⟨fun i => ?_, ?_, fun i j c hij hg hi hc => ?_⟩
    · rw [hnew, List.mem_append, List.mem_singleton, hs.ran, ran_of_move hm]
      constructor
      · rintro (⟨c, hc, hr⟩ | rfl)
        · refine .inr ⟨?_, c, hc, hr⟩
          rintro rfl
          rw [hm.before, Option.some.injEq] at hc
          subst hc
          cases hr
        · exact .inl ⟨rfl, rfl⟩
      · rintro (⟨rfl, -⟩ | ⟨-, h⟩)
        · exact .inr rfl
        · exact .inl h
    · rw [hnew]
      refine List.pairwise_append.mpr ⟨hs.order, List.pairwise_singleton _ _, ?_⟩
      rintro i hi j hk hg
      rw [List.mem_singleton.mp hk] at hg ⊢
      rcases Nat.lt_trichotomy i k with hlt | rfl | hgt
      · exact hlt
      · obtain ⟨c, hc, hr⟩ := (hs.ran i).mp hi
        rw [hm.before, Option.some.injEq] at hc
        subst hc
        cases hr
      · exact absurd hi (not_started_of_turn ht hs hgt hg.symm hm.before rfl)
    · rw [hnew, List.mem_append, List.mem_singleton]
      rcases stage_of_move hm hi with ⟨-, rfl⟩ | ⟨-, hi⟩
      · cases hc
      rintro (hj | rfl)
      · exact hs.held i j c hij hg hi hc hj
      · -- the group was already failed when its record started
        obtain ⟨group, hgi, hgj⟩ := hg
        have hfailed := mem_failedGroupIds hr ht hi hc hgi
        rw [groupAt, ← ht.items, hrecord, Option.bind_some] at hgj
        simp [BatchState.groupFailed, hgj, hfailed] at hopen

/-! ## Runs -/

variable {parallelism : Parallelism}

theorem stage_init {i : Nat} {a : Stage} (h : (batch P parallelism records).init.stage i = some a) :
    a = .waiting := by
  obtain ⟨record, status, task, rfl⟩ := stage_eq_some.mp h
  have := status_of_mem_start (List.mem_of_getElem? task)
  rw [show status = .waiting from this.1]
  rfl

theorem invariants_init (P : Process ρ σ ε) (parallelism : Parallelism) (records : List ρ) :
    InTurns P records (batch P parallelism records).init ∧
      AllReported P (batch P parallelism records).init ∧
      Starts P records (batch P parallelism records).init := by
  refine ⟨⟨?_, ?_, ?_⟩, ?_, ⟨?_, ?_, ?_⟩⟩
  · exact map_item_start
  · exact fun i j _ _ a ha => stage_init ha
  · intro i j a _ _ hj ha
    rw [stage_init hj] at ha
    cases ha
  · intro task hm
    rw [(status_of_mem_start hm).1]
    exact reported_quiet rfl
  · intro i
    constructor
    · intro hi
      cases hi
    · rintro ⟨a, ha, hr⟩
      rw [stage_init ha] at hr
      cases hr
  · exact List.Pairwise.nil
  · intro i j a _ _ hi ha
    rw [stage_init hi] at ha
    cases ha

/-- What holds of a batch at any time. -/
theorem invariants_of_run {events : List (BatchEvent ε)}
    (h : (batch P parallelism records).run events (batch P parallelism records).init = some s) :
    InTurns P records s ∧ AllReported P s ∧ Starts P records s := by
  refine Machine.run_invariant
    (I := fun s => InTurns P records s ∧ AllReported P s ∧ Starts P records s)
    (fun u e v hu hv => ?_) (invariants_init P parallelism records) h
  have hm : Moved P u v := moved_step hv
  exact ⟨inTurns_moved hu.1 hm, allReported_moved hu.2.1 hm, starts_moved hu.1 hu.2.1 hu.2.2 hm⟩

end Ez4.Queue.Batch

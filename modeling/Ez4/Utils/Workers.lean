import Ez4.Library.Machine
import Mathlib.Data.List.Perm.Basic
import Mathlib.Data.List.Range

/-! # The workers of the task pool

`Tasks.run` and `Tasks.safeRun` (`tasks.ts`), worker by worker. `Array.from`
starts the workers one after the other, each takes tasks from the shared
cursor until none is left, and a task settles when it wants to: right after
its call, before the next worker starts, when it throws at once. What a task
comes to is the choice of events, and so is the order of the workers. -/
namespace Ez4.Utils.Workers
open Ez4.Library
open scoped List

/-- What a task comes to. -/
inductive Result (α ε : Type)
  | success (result : α)
  | failure (error : ε)
deriving DecidableEq, Repr

/-- Where a worker is: at an `await`, or through. -/
inductive Worker (ε : Type)
  | awaiting (currentTask : Nat)
  | returned
  | rejected (error : ε)
deriving DecidableEq, Repr

/-- What the pool did. The code keeps no such record: it is for statements
only. -/
inductive Happening (α ε : Type)
  | called (task : Nat)
  | settled (task : Nat) (result : Result α ε)
  | progress (completed total : Nat)
deriving DecidableEq, Repr

/-- The variables that the workers share. -/
structure PoolState (α ε ρ : Type) where
  /-- A place is empty until its task settled. -/
  results : List (Option ρ)
  completedTasks : Nat := 0
  nextTask : Nat := 0
  workers : List (Worker ε) := []
  log : List (Happening α ε) := []
deriving DecidableEq, Repr

inductive PoolEvent (α ε : Type)
  /-- `Array.from` starts the next worker. -/
  | start
  /-- The task a worker awaits settles. -/
  | settles (worker : Nat) (result : Result α ε)
deriving DecidableEq, Repr

variable {α ε ρ : Type}

/-- The loop of a worker up to its next `await`, or its end. -/
def takeTask (totalTasks : Nat) (s : PoolState α ε ρ) : PoolState α ε ρ × Worker ε :=
  if s.nextTask < totalTasks then
    ({ s with nextTask := s.nextTask + 1, log := s.log ++ [.called s.nextTask] },
      .awaiting s.nextTask)
  else (s, .returned)

/-- `Math.min(tasks.length, concurrency)` -/
def workerCount (totalTasks concurrency : Nat) : Nat := min totalTasks concurrency

def startWorker (totalTasks : Nat) (s : PoolState α ε ρ) : PoolState α ε ρ :=
  let (s, worker) := takeTask totalTasks s
  { s with workers := s.workers ++ [worker] }

/-- The rest of the loop body once a worker's task is recorded. -/
def completeTask (totalTasks currentTask : Nat) (value : ρ) (s : PoolState α ε ρ) :
    PoolState α ε ρ :=
  { s with
    results := s.results.set currentTask (some value)
    completedTasks := s.completedTasks + 1
    log := s.log ++ [.progress (s.completedTasks + 1) totalTasks] }

/-- A task settles. `record` says what becomes of its result: a place in
`results`, or the error that ends the worker. -/
def settleTask (record : Result α ε → Except ε ρ) (totalTasks worker currentTask : Nat)
    (result : Result α ε) (s : PoolState α ε ρ) : PoolState α ε ρ :=
  let s := { s with log := s.log ++ [.settled currentTask result] }
  match record result with
  | .ok value =>
    let (s, next) := takeTask totalTasks (completeTask totalTasks currentTask value s)
    { s with workers := s.workers.set worker next }
  | .error error => { s with workers := s.workers.set worker (.rejected error) }

/-- The pool of either function. -/
def pool (record : Result α ε → Except ε ρ) (totalTasks concurrency : Nat) :
    Machine (PoolState α ε ρ) (PoolEvent α ε) where
  init := { results := List.replicate totalTasks none }
  step s
    | .start =>
      if s.workers.length < workerCount totalTasks concurrency then some (startWorker totalTasks s)
      else none
    | .settles worker result =>
      match s.workers[worker]? with
      | some (.awaiting currentTask) =>
        some (settleTask record totalTasks worker currentTask result s)
      | _ => none

/-- `await tasks[currentTask]()` -/
def Result.value : Result α ε → Except ε α
  | .success result => .ok result
  | .failure error => .error error

/-- `Tasks.run`: an error rejects the worker, and `Promise.all` with it. -/
def run (totalTasks concurrency : Nat) : Machine (PoolState α ε α) (PoolEvent α ε) :=
  pool Result.value totalTasks concurrency

/-- `Tasks.safeRun`: an error is a result as well. -/
def safeRun (totalTasks concurrency : Nat) : Machine (PoolState α ε (Result α ε)) (PoolEvent α ε) :=
  pool .ok totalTasks concurrency

/-- `Promise.all(workers)` resolves, and the function with `results`. -/
def Resolved (totalTasks concurrency : Nat) (s : PoolState α ε ρ) : Prop :=
  s.workers.length = workerCount totalTasks concurrency ∧ ∀ w ∈ s.workers, w = .returned

/-! ## Reading the log -/

def calledTasks (log : List (Happening α ε)) : List Nat :=
  log.filterMap fun | .called task => some task | _ => none

def settledTasks (log : List (Happening α ε)) : List Nat :=
  log.filterMap fun | .settled task _ => some task | _ => none

/-- The arguments of the calls of `onProgress`. -/
def reported (log : List (Happening α ε)) : List (Nat × Nat) :=
  log.filterMap fun | .progress completed total => some (completed, total) | _ => none

/-- The tasks that were called and did not settle yet. -/
def unfinished (log : List (Happening α ε)) : List Nat :=
  (calledTasks log).filter (· ∉ settledTasks log)

@[simp] theorem calledTasks_append (log more : List (Happening α ε)) :
    calledTasks (log ++ more) = calledTasks log ++ calledTasks more := List.filterMap_append

@[simp] theorem settledTasks_append (log more : List (Happening α ε)) :
    settledTasks (log ++ more) = settledTasks log ++ settledTasks more := List.filterMap_append

@[simp] theorem reported_append (log more : List (Happening α ε)) :
    reported (log ++ more) = reported log ++ reported more := List.filterMap_append

/-- What a pool does of a run so far, whoever settles when. -/
structure Served (record : Result α ε → Except ε ρ) (totalTasks concurrency : Nat)
    (events : List (PoolEvent α ε)) (s : PoolState α ε ρ) : Prop where
  /-- Each task is called at most once, in the order of the list. -/
  calls : calledTasks s.log = List.range s.nextTask ∧ s.nextTask ≤ totalTasks
  /-- Only called tasks settle, once. -/
  settles : (settledTasks s.log).Nodup ∧ settledTasks s.log ⊆ calledTasks s.log
  bounded : (unfinished s.log).length ≤ concurrency
  progress : reported s.log = (List.range s.completedTasks).map fun k => (k + 1, totalTasks)
  /-- No run goes on for ever. -/
  ends : events.length ≤ workerCount totalTasks concurrency + totalTasks
  /-- Nothing but a called task is waited for. -/
  waits : s.workers.length = workerCount totalTasks concurrency → unfinished s.log = [] →
    Resolved totalTasks concurrency s
  /-- Then all tasks were called and settled, each with its outcome in place. -/
  resolved : Resolved totalTasks concurrency s →
    calledTasks s.log = List.range totalTasks ∧
    reported s.log = (List.range totalTasks).map (fun k => (k + 1, totalTasks)) ∧
    s.results.length = totalTasks ∧
    ∀ task < totalTasks, ∃ result value, .settled task result ∈ s.log ∧
      record result = .ok value ∧ s.results[task]? = some (some value)

/-! ## The invariant -/

/-- The tasks that workers await. -/
def awaited (workers : List (Worker ε)) : List Nat :=
  workers.filterMap fun | .awaiting task => some task | _ => none

@[simp] theorem awaited_append (workers more : List (Worker ε)) :
    awaited (workers ++ more) = awaited workers ++ awaited more := List.filterMap_append

theorem length_awaited_le (workers : List (Worker ε)) :
    (awaited workers).length ≤ workers.length := List.length_filterMap_le ..

/-- The worker that awaits `task`, apart from the others. -/
theorem awaited_eraseIdx {workers : List (Worker ε)} {worker task : Nat}
    (h : workers[worker]? = some (.awaiting task)) :
    awaited workers ~ task :: awaited (workers.eraseIdx worker) := by
  obtain ⟨hlt, hw⟩ := List.getElem?_eq_some_iff.mp h
  conv_lhs => rw [← List.take_append_drop worker workers, List.drop_eq_getElem_cons hlt, hw]
  rw [List.eraseIdx_eq_take_drop_succ, awaited_append, awaited_append]
  exact List.perm_middle

theorem awaited_set {workers : List (Worker ε)} {worker : Nat} (h : worker < workers.length)
    (next : Worker ε) :
    awaited (workers.set worker next) ~ awaited [next] ++ awaited (workers.eraseIdx worker) := by
  rw [List.set_eq_take_append_cons_drop, if_pos h, ← List.singleton_append,
    List.eraseIdx_eq_take_drop_succ]
  simp only [awaited_append, ← List.append_assoc]
  exact List.perm_append_comm.append_right _

/-- Every called task is awaited or settled, and no task is both. -/
structure Counted (totalTasks concurrency : Nat) (s : PoolState α ε ρ) : Prop where
  calls : calledTasks s.log = List.range s.nextTask
  next_le : s.nextTask ≤ totalTasks
  tasks : (settledTasks s.log ++ awaited s.workers).Perm (List.range s.nextTask)
  workers_le : s.workers.length ≤ workerCount totalTasks concurrency

/-- What holds as long as no worker is rejected. -/
structure Sound (record : Result α ε → Except ε ρ) (totalTasks concurrency : Nat)
    (s : PoolState α ε ρ) : Prop extends Counted totalTasks concurrency s where
  completed : s.completedTasks = (settledTasks s.log).length
  progress : reported s.log = (List.range s.completedTasks).map fun k => (k + 1, totalTasks)
  size : s.results.length = totalTasks
  stored : ∀ task result, .settled task result ∈ s.log → ∃ value,
    record result = .ok value ∧ s.results[task]? = some (some value)
  returned : .returned ∈ s.workers → s.nextTask = totalTasks
  not_rejected : ∀ error, .rejected error ∉ s.workers

section Steps

variable {record : Result α ε → Except ε ρ} {totalTasks concurrency : Nat} {s : PoolState α ε ρ}

theorem counted_init : Counted totalTasks concurrency (pool record totalTasks concurrency).init :=
  ⟨rfl, Nat.zero_le _, List.Perm.refl _, Nat.zero_le _⟩

theorem sound_init :
    Sound record totalTasks concurrency (pool record totalTasks concurrency).init where
  toCounted := counted_init
  completed := rfl
  progress := rfl
  size := List.length_replicate
  stored := by simp [pool]
  returned := by simp [pool]
  not_rejected := by simp [pool]

/-- A worker takes the next task, or is through. -/
theorem takeTask_cases (totalTasks : Nat) (s : PoolState α ε ρ) :
    s.nextTask < totalTasks ∧ takeTask totalTasks s =
      ({ s with nextTask := s.nextTask + 1, log := s.log ++ [.called s.nextTask] },
        .awaiting s.nextTask) ∨
    totalTasks ≤ s.nextTask ∧ takeTask totalTasks s = (s, .returned) := by
  unfold takeTask
  split
  · exact .inl ⟨‹_›, rfl⟩
  · exact .inr ⟨Nat.le_of_not_lt ‹_›, rfl⟩

@[simp] theorem workers_takeTask (totalTasks : Nat) (s : PoolState α ε ρ) :
    (takeTask totalTasks s).1.workers = s.workers := by
  rcases takeTask_cases totalTasks s with ⟨-, htake⟩ | ⟨-, htake⟩ <;> rw [htake]

/-- Starting the next worker, or going on with one: `workers` are those who
were `busy`, and the one that takes a task. -/
theorem Counted.take {busy workers : List (Worker ε)}
    (h : Counted totalTasks concurrency { s with workers := busy })
    (hle : workers.length ≤ workerCount totalTasks concurrency)
    (hworkers : awaited workers ~ awaited [(takeTask totalTasks s).2] ++ awaited busy) :
    Counted totalTasks concurrency { (takeTask totalTasks s).1 with workers } := by
  rcases takeTask_cases totalTasks s with ⟨hnext, htake⟩ | ⟨-, htake⟩
  · rw [htake] at hworkers ⊢
    refine ⟨?_, hnext, ?_, hle⟩
    · rw [calledTasks_append, show calledTasks s.log = _ from h.calls, List.range_succ]
      rfl
    · have hsettled : settledTasks (s.log ++ [Happening.called s.nextTask]) = settledTasks s.log :=
        (settledTasks_append ..).trans (List.append_nil _)
      rw [hsettled, List.range_succ]
      calc settledTasks s.log ++ awaited workers
        _ ~ settledTasks s.log ++ ([s.nextTask] ++ awaited busy) := hworkers.append_left _
        _ ~ settledTasks s.log ++ (awaited busy ++ [s.nextTask]) :=
            List.perm_append_comm.append_left _
        _ = settledTasks s.log ++ awaited busy ++ [s.nextTask] := (List.append_assoc ..).symm
        _ ~ List.range s.nextTask ++ [s.nextTask] := h.tasks.append_right _
  · rw [htake] at hworkers ⊢
    exact ⟨h.calls, h.next_le, (hworkers.append_left _).trans h.tasks, hle⟩

theorem Counted.start (h : Counted totalTasks concurrency s)
    (hlt : s.workers.length < workerCount totalTasks concurrency) :
    Counted totalTasks concurrency (startWorker totalTasks s) := by
  show Counted totalTasks concurrency { (takeTask totalTasks s).1 with
    workers := (takeTask totalTasks s).1.workers ++ [(takeTask totalTasks s).2] }
  rw [workers_takeTask]
  have hle : (s.workers ++ [(takeTask totalTasks s).2]).length ≤
      workerCount totalTasks concurrency := by
    rw [List.length_append]
    exact hlt
  have hperm : awaited (s.workers ++ [(takeTask totalTasks s).2]) ~
      awaited [(takeTask totalTasks s).2] ++ awaited s.workers := by
    rw [awaited_append]
    exact List.perm_append_comm
  exact h.take hle hperm

variable {worker task : Nat}

/-- The worker of a settled task is between two tasks. -/
theorem Counted.between (h : Counted totalTasks concurrency s)
    (hw : s.workers[worker]? = some (.awaiting task)) (result : Result α ε) :
    Counted totalTasks concurrency { s with
      log := s.log ++ [.settled task result], workers := s.workers.eraseIdx worker } := by
  refine ⟨?_, h.next_le, ?_, (List.length_eraseIdx_le ..).trans h.workers_le⟩
  · rw [calledTasks_append, h.calls]
    exact List.append_nil _
  · calc settledTasks (s.log ++ [.settled task result]) ++ awaited (s.workers.eraseIdx worker)
      _ = settledTasks s.log ++ ([task] ++ awaited (s.workers.eraseIdx worker)) := by
          rw [settledTasks_append, List.append_assoc]
          rfl
      _ ~ settledTasks s.log ++ awaited s.workers := (awaited_eraseIdx hw).symm.append_left _
      _ ~ List.range s.nextTask := h.tasks

variable (record) in
theorem Counted.settle (h : Counted totalTasks concurrency s)
    (hw : s.workers[worker]? = some (.awaiting task)) (result : Result α ε) :
    Counted totalTasks concurrency (settleTask record totalTasks worker task result s) := by
  have hlt : worker < s.workers.length := (List.getElem?_eq_some_iff.mp hw).1
  have hbetween := h.between hw result
  have hlength : ∀ next : Worker ε,
      (s.workers.set worker next).length ≤ workerCount totalTasks concurrency := fun next => by
    rw [List.length_set]
    exact h.workers_le
  unfold settleTask
  dsimp only
  split
  · rename_i value hrecord
    have hcomplete : Counted totalTasks concurrency (completeTask totalTasks task value { s with
        log := s.log ++ [.settled task result], workers := s.workers.eraseIdx worker }) := by
      refine ⟨?_, hbetween.next_le, ?_, hbetween.workers_le⟩
      · exact (calledTasks_append ..).trans ((List.append_nil _).trans hbetween.calls)
      · have hsettled := (settledTasks_append (s.log ++ [.settled task result])
          [Happening.progress (s.completedTasks + 1) totalTasks]).trans (List.append_nil _)
        simp only [completeTask, hsettled]
        exact hbetween.tasks
    have hset := awaited_set hlt (takeTask totalTasks (completeTask totalTasks task value
      { s with log := s.log ++ [.settled task result] })).2
    rw [workers_takeTask]
    exact hcomplete.take (hlength _) hset
  · exact ⟨hbetween.calls, hbetween.next_le,
      ((awaited_set hlt _).append_left _).trans hbetween.tasks, hlength _⟩

/-- A worker that takes a task, or is through, leaves the rest as it is. -/
theorem Sound.take {busy workers : List (Worker ε)}
    (h : Sound record totalTasks concurrency { s with workers := busy })
    (hcounted : Counted totalTasks concurrency { (takeTask totalTasks s).1 with workers })
    (hworkers : ∀ w ∈ workers, w ∈ busy ∨ w = (takeTask totalTasks s).2) :
    Sound record totalTasks concurrency { (takeTask totalTasks s).1 with workers } := by
  rcases takeTask_cases totalTasks s with ⟨hnext, htake⟩ | ⟨hnext, htake⟩
  · rw [htake] at hcounted hworkers ⊢
    have hsettled : settledTasks (s.log ++ [Happening.called s.nextTask]) = settledTasks s.log :=
      (settledTasks_append ..).trans (List.append_nil _)
    have hreported : reported (s.log ++ [Happening.called s.nextTask]) = reported s.log :=
      (reported_append ..).trans (List.append_nil _)
    refine { hcounted with
      completed := by rw [hsettled]; exact h.completed
      progress := by rw [hreported]; exact h.progress
      size := h.size, stored := fun task result hm => ?_, returned := fun hm => ?_,
      not_rejected := fun error hm => ?_ }
    · refine h.stored task result ?_
      simpa using hm
    · rcases hworkers _ hm with hm | hm
      · exact absurd (h.returned hm) (Nat.ne_of_lt hnext)
      · cases hm
    · rcases hworkers _ hm with hm | hm
      · exact h.not_rejected error hm
      · cases hm
  · rw [htake] at hcounted hworkers ⊢
    refine { hcounted with
      completed := h.completed, progress := h.progress, size := h.size, stored := h.stored
      returned := fun _ => Nat.le_antisymm hcounted.next_le hnext
      not_rejected := fun error hm => ?_ }
    rcases hworkers _ hm with hm | hm
    · exact h.not_rejected error hm
    · cases hm

theorem Sound.start (h : Sound record totalTasks concurrency s)
    (hlt : s.workers.length < workerCount totalTasks concurrency) :
    Sound record totalTasks concurrency (startWorker totalTasks s) := by
  have hcounted := h.toCounted.start hlt
  unfold startWorker at hcounted ⊢
  dsimp only at hcounted ⊢
  rw [workers_takeTask] at hcounted ⊢
  refine h.take hcounted fun w hw => ?_
  simpa using hw

/-- A task that settles is recorded in its place, and reported. -/
theorem Sound.settle (h : Sound record totalTasks concurrency s)
    (hw : s.workers[worker]? = some (.awaiting task)) {result : Result α ε} {value : ρ}
    (hrecord : record result = .ok value) :
    Sound record totalTasks concurrency (settleTask record totalTasks worker task result s) := by
  have hlt : worker < s.workers.length := (List.getElem?_eq_some_iff.mp hw).1
  have hcounted := h.toCounted.settle record hw result
  have hbetween := h.toCounted.between hw result
  -- A task that is awaited did not settle before.
  have hmem : task ∈ awaited s.workers := (awaited_eraseIdx hw).mem_iff.mpr List.mem_cons_self
  have hnodup := h.tasks.nodup_iff.mpr List.nodup_range
  have hnew : task ∉ settledTasks s.log := fun hs =>
    (List.nodup_append.mp hnodup).2.2 task hs task hmem rfl
  have htask : task < totalTasks := by
    have := h.tasks.mem_iff.mp (List.mem_append_right _ hmem)
    exact Nat.lt_of_lt_of_le (List.mem_range.mp this) h.next_le
  have hsettled : settledTasks (s.log ++ [.settled task result] ++
      [.progress (s.completedTasks + 1) totalTasks]) = settledTasks s.log ++ [task] := by
    rw [settledTasks_append, settledTasks_append]
    exact List.append_nil _
  have hreported : reported (s.log ++ [.settled task result] ++
      [.progress (s.completedTasks + 1) totalTasks]) =
        reported s.log ++ [(s.completedTasks + 1, totalTasks)] := by
    rw [reported_append, reported_append]
    simp [reported]
  unfold settleTask at hcounted ⊢
  simp only [hrecord, workers_takeTask] at hcounted ⊢
  have hcomplete : Sound record totalTasks concurrency (completeTask totalTasks task value { s with
      log := s.log ++ [.settled task result], workers := s.workers.eraseIdx worker }) := by
    refine ⟨⟨?_, hbetween.next_le, ?_, hbetween.workers_le⟩, ?_, ?_, ?_, fun i r hm => ?_,
      fun hm => h.returned (List.mem_of_mem_eraseIdx hm),
      fun error hm => h.not_rejected error (List.mem_of_mem_eraseIdx hm)⟩
    · exact (calledTasks_append ..).trans ((List.append_nil _).trans hbetween.calls)
    · simp only [completeTask, hsettled]
      have htasks := hbetween.tasks
      rw [show settledTasks (s.log ++ [Happening.settled task result]) =
        settledTasks s.log ++ [task] from settledTasks_append ..] at htasks
      exact htasks
    · simp only [completeTask, hsettled, List.length_append, List.length_singleton]
      rw [h.completed]
    · simp only [completeTask, hreported, h.progress, List.range_succ, List.map_append,
        List.map_singleton]
    · simp only [completeTask, List.length_set, h.size]
    · simp only [completeTask, List.mem_append, List.mem_singleton, reduceCtorEq, or_false,
        Happening.settled.injEq] at hm ⊢
      rcases hm with hm | ⟨rfl, rfl⟩
      · obtain ⟨v, hv, hplace⟩ := h.stored i r hm
        have hne : task ≠ i := by
          rintro rfl
          exact hnew (List.mem_filterMap.mpr ⟨_, hm, rfl⟩)
        exact ⟨v, hv, by rw [List.getElem?_set_ne hne, hplace]⟩
      · exact ⟨value, hrecord, by rw [List.getElem?_set_self (h.size ▸ htask)]⟩
  refine hcomplete.take hcounted fun w hm => ?_
  rw [List.set_eq_take_append_cons_drop, if_pos (by exact hlt), List.mem_append,
    List.mem_cons] at hm
  rw [List.eraseIdx_eq_take_drop_succ, List.mem_append]
  rcases hm with hm | hm | hm
  · exact .inl (.inl hm)
  · exact .inr hm
  · exact .inl (.inr hm)

/-- **A step of the pool**, whoever it is that goes on. -/
theorem Counted.step (h : Counted totalTasks concurrency s) {event : PoolEvent α ε}
    {t : PoolState α ε ρ} (hstep : (pool record totalTasks concurrency).step s event = some t) :
    Counted totalTasks concurrency t := by
  cases event with
  | start =>
    simp only [pool, Option.ite_none_right_eq_some, Option.some.injEq] at hstep
    obtain ⟨hlt, rfl⟩ := hstep
    exact h.start hlt
  | settles worker result =>
    simp only [pool] at hstep
    split at hstep
    · rename_i task hw
      obtain rfl := Option.some.inj hstep
      exact h.settle record hw result
    · cases hstep

/-- The result, if one settles, is one that `record` takes. -/
def Recorded (record : Result α ε → Except ε ρ) (_ : PoolState α ε ρ) : PoolEvent α ε → Prop
  | .start => True
  | .settles _ result => ∃ value, record result = .ok value

theorem Sound.step (h : Sound record totalTasks concurrency s) {event : PoolEvent α ε}
    {t : PoolState α ε ρ} (hok : Recorded record s event)
    (hstep : (pool record totalTasks concurrency).step s event = some t) :
    Sound record totalTasks concurrency t := by
  cases event with
  | start =>
    simp only [pool, Option.ite_none_right_eq_some, Option.some.injEq] at hstep
    obtain ⟨hlt, rfl⟩ := hstep
    exact h.start hlt
  | settles worker result =>
    obtain ⟨value, hrecord⟩ := hok
    simp only [pool] at hstep
    split at hstep
    · rename_i task hw
      obtain rfl := Option.some.inj hstep
      exact h.settle hw hrecord
    · cases hstep

/-- What is left to do: to start the workers, and to settle the tasks. -/
def left (totalTasks concurrency : Nat) (s : PoolState α ε ρ) : Nat :=
  workerCount totalTasks concurrency - s.workers.length +
    (totalTasks - (settledTasks s.log).length)

theorem settledTasks_takeTask (totalTasks : Nat) (s : PoolState α ε ρ) :
    settledTasks (takeTask totalTasks s).1.log = settledTasks s.log := by
  rcases takeTask_cases totalTasks s with ⟨-, htake⟩ | ⟨-, htake⟩ <;> rw [htake]
  exact (settledTasks_append ..).trans (List.append_nil _)

theorem settledTasks_settleTask {worker task : Nat} {result : Result α ε} :
    settledTasks (settleTask record totalTasks worker task result s).log =
      settledTasks s.log ++ [task] := by
  unfold settleTask
  dsimp only
  split
  · simp only [settledTasks_takeTask, completeTask, settledTasks_append]
    exact List.append_nil _
  · exact settledTasks_append ..

theorem length_workers_settleTask {worker task : Nat} {result : Result α ε} :
    (settleTask record totalTasks worker task result s).workers.length = s.workers.length := by
  unfold settleTask
  dsimp only
  split
  · rw [List.length_set, workers_takeTask]
    rfl
  · exact List.length_set

theorem Counted.length_settledTasks (h : Counted totalTasks concurrency s) :
    (settledTasks s.log).length + (awaited s.workers).length = s.nextTask := by
  have hlength := h.tasks.length_eq
  rwa [List.length_append, List.length_range] at hlength

theorem left_step (h : Counted totalTasks concurrency s) {event : PoolEvent α ε}
    {t : PoolState α ε ρ} (hstep : (pool record totalTasks concurrency).step s event = some t) :
    left totalTasks concurrency t + 1 ≤ left totalTasks concurrency s := by
  have ht := h.step hstep
  have hsettled := ht.length_settledTasks
  have hle := ht.next_le
  cases event with
  | start =>
    simp only [pool, Option.ite_none_right_eq_some, Option.some.injEq] at hstep
    obtain ⟨hlt, rfl⟩ := hstep
    simp only [left, startWorker, settledTasks_takeTask, workers_takeTask, List.length_append,
      List.length_singleton]
    omega
  | settles worker result =>
    simp only [pool] at hstep
    split at hstep
    · obtain rfl := Option.some.inj hstep
      simp only [left, settledTasks_settleTask, length_workers_settleTask, List.length_append,
        List.length_singleton] at hsettled ⊢
      omega
    · cases hstep

/-- The unfinished tasks are those awaited. -/
theorem Counted.unfinished (h : Counted totalTasks concurrency s) :
    unfinished s.log ~ awaited s.workers := by
  have hnodup := h.tasks.nodup_iff.mpr List.nodup_range
  obtain ⟨hsettled, -, hapart⟩ := List.nodup_append.mp hnodup
  have hfilter := (h.tasks.filter (· ∉ settledTasks s.log)).symm
  rw [Workers.unfinished, h.calls]
  refine hfilter.trans ?_
  rw [List.filter_append, List.filter_eq_nil_iff.mpr (by simp), List.nil_append,
    List.filter_eq_self.mpr fun task hm => ?_]
  simpa using fun hs => hapart task hs task hm rfl

/-- **Every run of a pool whose results are all recorded.** -/
theorem served (hc : 1 ≤ concurrency) {events : List (PoolEvent α ε)}
    (hok : (pool record totalTasks concurrency).Meets (Recorded record) events
      (pool record totalTasks concurrency).init)
    (hrun : (pool record totalTasks concurrency).run events
      (pool record totalTasks concurrency).init = some s) :
    Served record totalTasks concurrency events s := by
  have h : Sound record totalTasks concurrency s :=
    Machine.run_invariant_of_meets (fun _ _ _ hs => hs.step) sound_init hok hrun
  have hnodup := h.tasks.nodup_iff.mpr List.nodup_range
  have hlength := h.length_settledTasks
  have hnext : Resolved totalTasks concurrency s → s.nextTask = totalTasks := fun hr => by
    cases hw : s.workers with
    | nil =>
      have hcount := hr.1
      have hle := h.next_le
      rw [hw, List.length_nil, workerCount] at hcount
      omega
    | cons w rest =>
      have hm : w ∈ s.workers := hw ▸ List.mem_cons_self
      exact h.returned (hr.2 w hm ▸ hm)
  have hawaited : Resolved totalTasks concurrency s → awaited s.workers = [] := fun hr => by
    refine List.filterMap_eq_nil_iff.mpr fun w hm => ?_
    rw [hr.2 w hm]
  refine ⟨⟨h.calls, h.next_le⟩, ⟨(List.nodup_append.mp hnodup).1, fun task hm => ?_⟩, ?_,
    h.progress, ?_, fun hstarted hdone => ⟨hstarted, fun w hm => ?_⟩,
    fun hr => ⟨?_, ?_, h.size, fun task hlt => ?_⟩⟩
  · rw [h.calls]
    exact h.tasks.mem_iff.mp (List.mem_append_left _ hm)
  · rw [h.unfinished.length_eq]
    exact (length_awaited_le _).trans (h.workers_le.trans (Nat.min_le_right ..))
  · have hleft : events.length + left totalTasks concurrency s ≤
        left totalTasks concurrency (pool record totalTasks concurrency).init +
          (events.map fun _ => 0).sum :=
      Machine.length_le_of_potential (I := Counted totalTasks concurrency)
        (fun _ _ _ hs => hs.step) (fun _ _ _ hs => left_step hs) counted_init hrun
    have hinit : left totalTasks concurrency (pool record totalTasks concurrency).init =
        workerCount totalTasks concurrency + totalTasks := rfl
    have hzero : (events.map fun _ => 0).sum = 0 := by simp
    omega
  · -- A worker that neither awaits a task nor was rejected is through.
    have hunfinished := h.unfinished
    rw [hdone] at hunfinished
    cases w with
    | awaiting task =>
      have hmem : task ∈ awaited s.workers := List.mem_filterMap.mpr ⟨_, hm, rfl⟩
      exact absurd (hunfinished.mem_iff.mpr hmem) (by simp)
    | returned => rfl
    | rejected error => exact absurd hm (h.not_rejected error)
  · rw [h.calls, hnext hr]
  · have hcompleted : s.completedTasks = totalTasks := by
      rw [h.completed, ← hnext hr, ← hlength, hawaited hr, List.length_nil, Nat.add_zero]
    rw [h.progress, hcompleted]
  · have hmem : task ∈ settledTasks s.log := by
      have hall := h.tasks
      rw [hawaited hr, List.append_nil, hnext hr] at hall
      exact hall.mem_iff.mpr (List.mem_range.mpr hlt)
    obtain ⟨happening, hlog, htask⟩ := List.mem_filterMap.mp hmem
    cases happening with
    | settled other result =>
      obtain rfl := Option.some.inj htask
      obtain ⟨value, hrecord, hplace⟩ := h.stored other result hlog
      exact ⟨result, value, hlog, hrecord, hplace⟩
    | called other => cases htask
    | progress completed total => cases htask

end Steps

/-- The events of a run that meets a condition on events only. -/
theorem meets_of_forall {record : Result α ε → Except ε ρ} {M : Machine (PoolState α ε ρ) (PoolEvent α ε)}
    {events : List (PoolEvent α ε)} (h : ∀ event ∈ events, ∀ s, Recorded record s event)
    (s : PoolState α ε ρ) : M.Meets (Recorded record) events s := by
  induction events generalizing s with
  | nil => trivial
  | cons event rest ih =>
    refine ⟨h event List.mem_cons_self s, ?_⟩
    split
    · exact ih (fun e he => h e (List.mem_cons_of_mem _ he)) _
    · trivial

/-- **The task pool serves every task**: `safeRun` whatever the tasks come to,
`run` as long as none throws. -/
theorem tasks_served {α ε : Type} (totalTasks concurrency : Nat) (hc : 1 ≤ concurrency) :
    (∀ (events : List (PoolEvent α ε)) (s : PoolState α ε (Result α ε)),
      (safeRun totalTasks concurrency).run events (safeRun totalTasks concurrency).init = some s →
        Served .ok totalTasks concurrency events s) ∧
    (∀ (events : List (PoolEvent α ε)) (s : PoolState α ε α),
      (∀ worker error, .settles worker (.failure error) ∉ events) →
      (run totalTasks concurrency).run events (run totalTasks concurrency).init = some s →
        Served Result.value totalTasks concurrency events s) := by
  refine ⟨fun events s hrun => served hc (meets_of_forall (fun event _ _ => ?_) _) hrun,
    fun events s hok hrun => served hc (meets_of_forall (fun event hm _ => ?_) _) hrun⟩
  · cases event with
    | start => trivial
    | settles worker result => exact ⟨result, rfl⟩
  · cases event with
    | start => trivial
    | settles worker result =>
      cases result with
      | success value => exact ⟨value, rfl⟩
      | failure error => exact absurd hm (hok worker error)

/-- One worker, two tasks, the first of which throws. -/
theorem two_tasks_served :
    Served (α := Nat) (ε := String) .ok 2 1
      [.start, .settles 0 (.failure "no"), .settles 0 (.success 7)]
      { results := [some (.failure "no"), some (.success 7)], completedTasks := 2, nextTask := 2,
        workers := [.returned],
        log := [.called 0, .settled 0 (.failure "no"), .progress 1 2, .called 1,
          .settled 1 (.success 7), .progress 2 2] } :=
  (tasks_served 2 1 (by decide)).1 _ _ rfl

end Ez4.Utils.Workers

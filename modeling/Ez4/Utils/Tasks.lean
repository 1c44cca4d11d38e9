import Mathlib.Algebra.GroupWithZero.Nat
import Mathlib.Data.List.Basic
import Mathlib.Algebra.BigOperators.Group.List.Basic

/-! # The task pool

`Tasks.run` (`tasks.ts`): at most `concurrency` workers take the tasks in
order, each its next one as soon as its last one settled, and the results
come in the order of the tasks. Which running task settles next is not up to
the pool. -/
namespace Ez4.Utils.Tasks

/-- Where a task is. `ω` is what a running one has collected. -/
inductive TaskStatus (ω ρ : Type)
  | waiting
  | running (work : ω)
  | settled (result : ρ)
deriving DecidableEq, Repr

structure Task (ι ω ρ : Type) where
  item : ι
  status : TaskStatus ω ρ := .waiting
deriving DecidableEq, Repr

abbrev Pool (ι ω ρ : Type) := List (Task ι ω ρ)

variable {ι ω ρ : Type}

def TaskStatus.isWaiting : TaskStatus ω ρ → Bool
  | .waiting => true
  | _ => false

def TaskStatus.isRunning : TaskStatus ω ρ → Bool
  | .running _ => true
  | _ => false

def TaskStatus.result? : TaskStatus ω ρ → Option ρ
  | .settled result => some result
  | _ => none

/-- The tasks before any worker took one. -/
def start (items : List ι) : Pool ι ω ρ := items.map fun item => { item }

/-- The task a free worker takes, when there is such a worker. -/
def next? (pool : Pool ι ω ρ) (concurrency : Nat) : Option Nat :=
  if pool.countP (·.status.isRunning) < concurrency then
    pool.findIdx? (·.status.isWaiting)
  else none

def setStatus (pool : Pool ι ω ρ) (index : Nat) (status : TaskStatus ω ρ) : Pool ι ω ρ :=
  pool.modify index fun task => { task with status }

/-- The running task at a place. -/
def running? (pool : Pool ι ω ρ) (index : Nat) : Option (ι × ω) :=
  match pool[index]? with
  | some ⟨item, .running work⟩ => some (item, work)
  | _ => none

def done (pool : Pool ι ω ρ) : Bool := pool.all (·.status.result?.isSome)

def results (pool : Pool ι ω ρ) : List ρ := pool.filterMap (·.status.result?)

variable {pool : Pool ι ω ρ} {index concurrency : Nat} {status : TaskStatus ω ρ}

theorem getElem?_setStatus {i : Nat} : (setStatus pool index status)[i]? =
    if index = i then (pool[i]?).map fun task => { task with status } else pool[i]? := by
  rw [setStatus, List.getElem?_modify]
  split <;> simp

@[simp] theorem map_item_setStatus :
    (setStatus pool index status).map Task.item = pool.map Task.item := by
  apply List.ext_getElem?
  intro i
  rw [List.getElem?_map, List.getElem?_map, getElem?_setStatus]
  split
  · rw [Option.map_map]; rfl
  · rfl

@[simp] theorem map_item_start {items : List ι} :
    (start items : Pool ι ω ρ).map Task.item = items := by
  simp [start, Function.comp_def]

theorem status_of_mem_start {items : List ι} {task : Task ι ω ρ} (h : task ∈ start items) :
    task.status = .waiting ∧ task.item ∈ items := by
  obtain ⟨item, hitem, rfl⟩ := List.mem_map.mp h
  exact ⟨rfl, hitem⟩

theorem TaskStatus.isWaiting_iff : status.isWaiting = true ↔ status = .waiting := by
  cases status <;> simp [TaskStatus.isWaiting]

theorem next?_eq_some (h : next? pool concurrency = some index) :
    ∃ task, pool[index]? = some task ∧ task.status = .waiting := by
  unfold next? at h
  split at h
  · obtain ⟨hlt, hwaiting, _⟩ := List.findIdx?_eq_some_iff_getElem.mp h
    exact ⟨pool[index], List.getElem?_eq_getElem hlt, TaskStatus.isWaiting_iff.mp hwaiting⟩
  · cases h

/-- A worker takes no task before an earlier one. -/
theorem not_waiting_of_next? (h : next? pool concurrency = some index) {i : Nat} (hi : i < index)
    {task : Task ι ω ρ} (ht : pool[i]? = some task) : task.status ≠ .waiting := by
  unfold next? at h
  split at h
  · obtain ⟨hlt, _, hfirst⟩ := List.findIdx?_eq_some_iff_getElem.mp h
    intro hs
    have heq := List.getElem?_eq_getElem (Nat.lt_trans hi hlt)
    rw [ht, Option.some.injEq] at heq
    exact hfirst i hi (TaskStatus.isWaiting_iff.mpr (heq ▸ hs))
  · cases h

/-- **The pool never blocks**: with a worker, a pool that is not done has a
running task or a waiting one that a free worker takes. -/
theorem running_or_next (hc : 0 < concurrency) (hd : done pool = false) :
    (∃ (i : Nat) (task : Task ι ω ρ) (work : ω),
        pool[i]? = some task ∧ task.status = .running work) ∨
      ∃ i, next? pool concurrency = some i := by
  by_cases hrun : ∃ task ∈ pool, task.status.isRunning = true
  · obtain ⟨task, hm, hr⟩ := hrun
    obtain ⟨i, hi⟩ := List.getElem?_of_mem hm
    left
    cases hs : task.status with
    | running work => exact ⟨i, task, work, hi, hs⟩
    | waiting => rw [hs] at hr; cases hr
    | settled result => rw [hs] at hr; cases hr
  · right
    have hzero : pool.countP (·.status.isRunning) = 0 := by
      rw [List.countP_eq_zero]
      exact fun task hm hr => hrun ⟨task, hm, hr⟩
    have hwaiting : ∃ task ∈ pool, task.status.isWaiting = true := by
      simp only [done, List.all_eq_false] at hd
      obtain ⟨task, hm, hs⟩ := hd
      refine ⟨task, hm, ?_⟩
      have hr : task.status.isRunning ≠ true := fun hr => hrun ⟨task, hm, hr⟩
      revert hs hr
      cases task.status <;> simp [TaskStatus.isRunning, TaskStatus.isWaiting, TaskStatus.result?]
    rw [next?, hzero, if_pos hc]
    exact Option.isSome_iff_exists.mp (List.findIdx?_isSome.trans (List.any_eq_true.mpr hwaiting))

theorem running?_eq_some {item : ι} {work : ω} :
    running? pool index = some (item, work) ↔ pool[index]? = some ⟨item, .running work⟩ := by
  unfold running?
  split
  · rename_i h
    simp [h]
  · rename_i h
    constructor
    · intro h'; cases h'
    · intro h'; exact absurd h' (h item work)

theorem settled_of_done (h : done pool = true) {task : Task ι ω ρ} (hm : task ∈ pool) :
    ∃ result, task.status = .settled result := by
  have := List.all_eq_true.mp h task hm
  cases hs : task.status with
  | settled result => exact ⟨result, rfl⟩
  | waiting => rw [hs] at this; cases this
  | running work => rw [hs] at this; cases this

theorem done_setStatus (h : done pool = true) (hs : status.result?.isSome = true) :
    done (setStatus pool index status) = true := by
  rw [done, List.all_eq_true]
  intro task hm
  obtain ⟨i, hi⟩ := List.getElem?_of_mem hm
  rw [getElem?_setStatus] at hi
  split at hi
  · obtain ⟨old, -, rfl⟩ := Option.map_eq_some_iff.mp hi
    exact hs
  · exact List.all_eq_true.mp h task (List.mem_of_getElem? hi)

/-! ## Counting what is left to do -/

/-- A waiting task is yet to be taken and to settle, a running one to settle. -/
def TaskStatus.left : TaskStatus ω ρ → Nat
  | .waiting => 2
  | .running _ => 1
  | .settled _ => 0

/-- The weights of the tasks, added up. -/
def total (weight : TaskStatus ω ρ → Nat) (pool : Pool ι ω ρ) : Nat :=
  (pool.map fun task => weight task.status).sum

@[simp] theorem total_start (weight : TaskStatus ω ρ → Nat) (items : List ι) :
    total weight (start items : Pool ι ω ρ) = weight .waiting * items.length := by
  simp [total, start, Function.comp_def, Nat.mul_comm]

theorem total_setStatus {task : Task ι ω ρ} (h : pool[index]? = some task)
    (weight : TaskStatus ω ρ → Nat) (status : TaskStatus ω ρ) :
    total weight (setStatus pool index status) + weight task.status =
      total weight pool + weight status := by
  induction pool generalizing index with
  | nil => simp at h
  | cons first rest ih =>
    cases index with
    | zero =>
      simp only [List.getElem?_cons_zero, Option.some.injEq] at h
      subst h
      simp only [total, setStatus, List.modify_zero_cons, List.map_cons, List.sum_cons]
      omega
    | succ index =>
      rw [List.getElem?_cons_succ] at h
      have := ih h
      simp only [total, setStatus, List.modify_succ_cons, List.map_cons, List.sum_cons] at this ⊢
      omega

def left (pool : Pool ι ω ρ) : Nat := (pool.map fun task => task.status.left).sum

@[simp] theorem left_start (items : List ι) :
    left (start items : Pool ι ω ρ) = 2 * items.length :=
  total_start TaskStatus.left items

theorem left_setStatus {task : Task ι ω ρ} (h : pool[index]? = some task)
    (status : TaskStatus ω ρ) :
    left (setStatus pool index status) + task.status.left = left pool + status.left :=
  total_setStatus h TaskStatus.left status

end Ez4.Utils.Tasks

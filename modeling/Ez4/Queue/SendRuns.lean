import Mathlib.Data.List.Range
import Ez4.Queue.SendBatches

/-! # Runs of `sendMessages`

Each batch has its own requests: none before a worker took it, then a first
one, and one more for what failed on the side of SQS. With one worker they
follow those of the batches before it. -/
namespace Ez4.Queue.SendMessages
open Ez4.Library Ez4.Utils

variable {T ε : Type} {call : Call T ε} {pool pool' : BatchPool T ε} {log : List (Request T ε)}

/-! ## The requests of a batch -/

/-- What has become of a batch, with its requests so far. -/
inductive History (task : Nat) (batch : List (BatchEntry T)) :
    Tasks.TaskStatus (Sending T ε) (List (SendMessageFailure T ε)) → List (Request T ε) → Prop
  | waiting : History task batch .waiting []
  | first : History task batch (.running .first) []
  | again {answer : Answer ε} (hretry : retryBatchOf batch answer ≠ []) :
    History task batch
      (.running (.again (retryBatchOf batch answer) (failuresOf true batch answer)))
      [{ task, isRetry := false, batch, answer }]
  | once {answer : Answer ε} (hretry : retryBatchOf batch answer = []) :
    History task batch (.settled (failuresOf true batch answer))
      [{ task, isRetry := false, batch, answer }]
  | twice {answer answer' : Answer ε} (hretry : retryBatchOf batch answer ≠ []) :
    History task batch
      (.settled (failuresOf true batch answer ++
        failuresOf false (retryBatchOf batch answer) answer'))
      [{ task, isRetry := false, batch, answer },
        { task, isRetry := true, batch := retryBatchOf batch answer, answer := answer' }]

section
variable {task : Nat} {batch retryBatch : List (BatchEntry T)}
  {failures : List (SendMessageFailure T ε)} {requests : List (Request T ε)}

theorem History.of_waiting (h : History task batch .waiting requests) : requests = [] := by
  cases h
  rfl

theorem History.of_first (h : History task batch (.running .first) requests) : requests = [] := by
  cases h
  rfl

theorem History.of_again (h : History task batch (.running (.again retryBatch failures)) requests) :
    ∃ answer, retryBatchOf batch answer ≠ [] ∧ retryBatch = retryBatchOf batch answer ∧
      failures = failuresOf true batch answer ∧
      requests = [{ task, isRetry := false, batch, answer }] := by
  cases h with
  | again hretry => exact ⟨_, hretry, rfl, rfl, rfl⟩

end

/-- The requests of a batch. -/
def requestsOf (log : List (Request T ε)) (task : Nat) : List (Request T ε) :=
  log.filter fun request => request.task == task

theorem requestsOf_append (log : List (Request T ε)) (request : Request T ε) (task : Nat) :
    requestsOf (log ++ [request]) task =
      requestsOf log task ++ if request.task = task then [request] else [] := by
  rw [requestsOf, List.filter_append, List.filter_singleton, requestsOf]
  rw [Bool.cond_eq_ite]
  simp only [beq_iff_eq]

structure Sound (call : Call T ε) (pool : BatchPool T ε) (log : List (Request T ε)) : Prop where
  items : pool.map Tasks.Task.item = getBatches call.batchEntries
  tasks : ∀ request ∈ log, request.task < pool.length
  history : ∀ k task, pool[k]? = some task →
    History k task.item task.status (requestsOf log k)

theorem Sound.start : Sound call (Tasks.start (getBatches call.batchEntries)) [] := by
  refine ⟨Tasks.map_item_start, by simp, fun k task hk => ?_⟩
  rw [(Tasks.status_of_mem_start (List.mem_of_getElem? hk)).1]
  exact .waiting

/-- A worker takes a batch. -/
theorem Sound.take (h : Sound call pool log) {index : Nat}
    (hnext : Tasks.next? pool call.concurrency = some index) :
    Sound call (Tasks.setStatus pool index (.running .first)) log := by
  obtain ⟨task, htask, hwaiting⟩ := Tasks.next?_eq_some hnext
  refine ⟨by rw [Tasks.map_item_setStatus, h.items], fun request hr => ?_, fun k task' hk => ?_⟩
  · rw [Tasks.setStatus, List.length_modify]
    exact h.tasks request hr
  · rw [Tasks.getElem?_setStatus] at hk
    split at hk
    · rename_i heq
      subst heq
      rw [htask] at hk
      obtain rfl := Option.some.inj hk
      have hhistory := h.history index task htask
      rw [hwaiting] at hhistory
      rw [hhistory.of_waiting]
      exact .first
    · exact h.history k task' hk

/-- A request of a batch is answered. -/
theorem Sound.answer (h : Sound call pool log) {index : Nat} {task : Tasks.Task _ _ _}
    (htask : pool[index]? = some task)
    {status : Tasks.TaskStatus (Sending T ε) (List (SendMessageFailure T ε))}
    {request : Request T ε} (hrequest : request.task = index)
    (hhistory : History index task.item status (requestsOf log index ++ [request])) :
    Sound call (Tasks.setStatus pool index status) (log ++ [request]) := by
  have hlength : (Tasks.setStatus pool index status).length = pool.length := List.length_modify ..
  refine ⟨by rw [Tasks.map_item_setStatus, h.items], fun other hr => ?_, fun k task' hk => ?_⟩
  · rw [hlength]
    rcases List.mem_append.mp hr with hr | hr
    · exact h.tasks other hr
    · rw [List.mem_singleton.mp hr, hrequest]
      exact (List.getElem?_eq_some_iff.mp htask).1
  · rw [Tasks.getElem?_setStatus] at hk
    rw [requestsOf_append, hrequest]
    split at hk
    · rename_i heq
      subst heq
      rw [htask] at hk
      obtain rfl := Option.some.inj hk
      rw [if_pos rfl]
      exact hhistory
    · rename_i hne
      rw [if_neg hne, List.append_nil]
      exact h.history k task' hk

/-- The steps that a batch has left. -/
def weight : Tasks.TaskStatus (Sending T ε) (List (SendMessageFailure T ε)) → Nat
  | .waiting => 3
  | .running .first => 2
  | .running (.again _ _) => 1
  | .settled _ => 0

/-- What `answerTask` does. -/
theorem answerTask_cases {index : Nat} {answer : Answer ε} {request : Request T ε}
    (h : Call.answerTask pool index answer = some (pool', request)) (hsound : Sound call pool log) :
    ∃ task work status, pool[index]? = some task ∧ task.status = .running work ∧
      pool' = Tasks.setStatus pool index status ∧ request.task = index ∧
      weight status < weight task.status ∧
      History index task.item status (requestsOf log index ++ [request]) := by
  unfold Call.answerTask at h
  split at h
  · cases h
  · rename_i batch hrunning
    have htask := Tasks.running?_eq_some.mp hrunning
    have hempty := (hsound.history index _ htask).of_first
    obtain ⟨rfl, rfl⟩ := Prod.mk.inj (Option.some.inj h)
    refine ⟨_, _, _, htask, rfl, rfl, rfl, ?_, ?_⟩
    · dsimp only
      split <;> simp [weight]
    · rw [hempty, List.nil_append]
      dsimp only
      split
      · rename_i hretry
        exact .once (List.isEmpty_iff.mp hretry)
      · rename_i hretry
        exact .again (by simpa using hretry)
  · rename_i item batch failures hrunning
    have htask := Tasks.running?_eq_some.mp hrunning
    have hhistory : History index item (.running (.again batch failures)) (requestsOf log index) :=
      hsound.history index _ htask
    obtain ⟨answer, hretry, rfl, rfl, hrequests⟩ := hhistory.of_again
    obtain ⟨rfl, rfl⟩ := Prod.mk.inj (Option.some.inj h)
    refine ⟨_, _, _, htask, rfl, rfl, rfl, by simp [weight], ?_⟩
    rw [hrequests]
    exact .twice hretry

theorem Sound.answerTask {index : Nat} {answer : Answer ε} {request : Request T ε}
    (hsound : Sound call pool log)
    (h : Call.answerTask pool index answer = some (pool', request)) :
    Sound call pool' (log ++ [request]) := by
  obtain ⟨task, work, status, htask, -, rfl, hrequest, -, hhistory⟩ := answerTask_cases h hsound
  exact hsound.answer htask hrequest hhistory

/-! ## One request at a time -/

/-- With one worker, no batch is taken before the ones in front of it are
settled, and the requests are in the order of their batches. -/
structure Sequential (pool : BatchPool T ε) (log : List (Request T ε)) : Prop where
  sorted : log.Pairwise fun request later => request.task ≤ later.task
  settled : ∀ (i j : Nat) (before behind : Tasks.Task _ _ _), i < j → pool[i]? = some before →
    pool[j]? = some behind → behind.status ≠ .waiting → ∃ result, before.status = .settled result

theorem Sequential.start {items : List (List (BatchEntry T))} :
    Sequential (Tasks.start items : BatchPool T ε) [] := by
  refine ⟨.nil, fun i j before behind _ _ hj hnot => absurd ?_ hnot⟩
  exact (Tasks.status_of_mem_start (List.mem_of_getElem? hj)).1

theorem Sequential.take (h : Sequential pool log) {index : Nat}
    (hnext : Tasks.next? pool 1 = some index) :
    Sequential (Tasks.setStatus pool index (.running .first)) log := by
  obtain ⟨task, htask, hwaiting⟩ := Tasks.next?_eq_some hnext
  have hidle : ∀ other ∈ pool, other.status.isRunning ≠ true := by
    unfold Tasks.next? at hnext
    split at hnext
    · rename_i hcount
      exact List.countP_eq_zero.mp (Nat.lt_one_iff.mp hcount)
    · cases hnext
  refine ⟨h.sorted, fun i j before behind hij hi hj hnot => ?_⟩
  rw [Tasks.getElem?_setStatus] at hi hj
  by_cases hji : index = j
  · subst hji
    rw [if_neg (Nat.ne_of_gt hij)] at hi
    have hbefore := Tasks.not_waiting_of_next? hnext hij hi
    have hstopped := hidle before (List.mem_of_getElem? hi)
    cases hstatus : before.status with
    | waiting => exact absurd hstatus hbefore
    | running work => rw [hstatus] at hstopped; exact absurd rfl hstopped
    | settled result => exact ⟨result, rfl⟩
  · rw [if_neg hji] at hj
    split at hi
    · rename_i heq
      subst heq
      -- a batch behind the one taken is waiting
      obtain ⟨result, hsettled⟩ := h.settled index j task behind hij htask hj hnot
      rw [hwaiting] at hsettled
      cases hsettled
    · exact h.settled i j before behind hij hi hj hnot

theorem Sequential.answerTask {index : Nat} {answer : Answer ε} {request : Request T ε}
    (h : Sequential pool log) (hsound : Sound call pool log)
    (hanswer : Call.answerTask pool index answer = some (pool', request)) :
    Sequential pool' (log ++ [request]) := by
  obtain ⟨task, work, status, htask, hrunning, rfl, hrequest, -, -⟩ := answerTask_cases hanswer hsound
  have hfirst : ∀ j behind, index < j → pool[j]? = some behind → behind.status = .waiting := by
    intro j behind hlt hj
    by_contra hnot
    obtain ⟨result, hsettled⟩ := h.settled index j task behind hlt htask hj hnot
    rw [hrunning] at hsettled
    cases hsettled
  refine ⟨List.pairwise_append.mpr ⟨h.sorted, List.pairwise_singleton _ _, ?_⟩, ?_⟩
  · intro other hother last hlast
    rw [List.mem_singleton.mp hlast, hrequest]
    by_contra hlt
    have hbound := hsound.tasks other hother
    have hbehind := List.getElem?_eq_getElem hbound
    have hhistory := hsound.history other.task _ hbehind
    rw [hfirst other.task _ (Nat.lt_of_not_le hlt) hbehind] at hhistory
    have hmem : other ∈ requestsOf log other.task := List.mem_filter.mpr ⟨hother, by simp⟩
    rw [hhistory.of_waiting] at hmem
    cases hmem
  · intro i j before behind hij hi hj hnot
    rw [Tasks.getElem?_setStatus] at hi hj
    split at hj
    · rename_i heq
      subst heq
      rw [if_neg (Nat.ne_of_gt hij)] at hi
      exact h.settled i index before task hij hi htask (by rw [hrunning]; simp)
    · split at hi
      · rename_i heq
        subst heq
        exact absurd (hfirst j behind hij hj) hnot
      · exact h.settled i j before behind hij hi hj hnot

end Ez4.Queue.SendMessages

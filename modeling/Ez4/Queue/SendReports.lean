import Ez4.Queue.SendAccounts

/-! # Exactly what was not sent

A call of `sendMessages` returns after every run, having sent each message once
and reported the others. A fifo queue keeps the order within a group unless an
entry that is sent once more is overtaken by a later one of its first request. -/
namespace Ez4.Queue.SendMessages
open Ez4.Library Ez4.Utils

variable {T ε : Type} {call : Call T ε} {pool : BatchPool T ε} {log : List (Request T ε)}

/-! ## What a call is to do -/

/-- What the requests and the error of a call are to be. -/
structure SentExactly (call : Call T ε) (log : List (Request T ε))
    (error : Option (SendMessagesError T ε)) : Prop where
  own : ∀ request ∈ log, ∀ batchEntry ∈ request.batch,
    call.messages[batchEntry.index]? = some batchEntry.message ∧
      call.getEntry batchEntry.message batchEntry.index = .ok batchEntry
  once : ∀ index, (indexes (log.flatMap firstOf)).count index = if call.passes index then 1 else 0
  again : ∀ index, (indexes (log.flatMap retryOf)).count index ≤ 1
  server : ∀ batchEntry ∈ log.flatMap retryOf, ∃ request ∈ log, request.isRetry = false ∧
    batchEntry ∈ request.batch ∧ failedByServer request.answer batchEntry = true
  limits : ∀ request ∈ log, 1 ≤ request.batch.length ∧ request.batch.length ≤ 10 ∧
    ((request.batch.map fun batchEntry => batchEntry.entry.bytes).sum ≤ 1048576 ∨
      request.batch.length = 1)
  silent : error = none ↔
    ∀ index < call.messages.length, index ∈ indexes (acceptedEntries log)
  failures : ∀ failed, error = some failed →
    failed.failures.map SendMessageFailure.index =
      (List.range call.messages.length).filter (fun index =>
        decide (index ∉ indexes (acceptedEntries log))) ∧
    (∀ failure ∈ failed.failures, call.messages[failure.index]? = some failure.message) ∧
    failed.total = call.messages.length

/-- The accepted messages of a group are accepted in list order. -/
def InOrder (log : List (Request T ε)) : Prop :=
  (acceptedEntries log).Pairwise fun a b =>
    a.entry.messageGroupId = b.entry.messageGroupId → a.index < b.index

/-- No message that is sent once more, and accepted then, comes before one of its group
that its first request accepted. -/
def NoneOvertaken (log : List (Request T ε)) : Prop :=
  ∀ request ∈ log, ∀ retry ∈ log, request.isRetry = false → retry.isRetry = true →
    ∀ late ∈ acceptedOf retry, late ∈ request.batch → ∀ other ∈ acceptedOf request,
      other.entry.messageGroupId = late.entry.messageGroupId → other.index < late.index

/-! ## Order -/

theorem pairwise_batchEntries : call.batchEntries.Pairwise fun a b => a.index < b.index := by
  have hsorted : (indexes call.batchEntries).Pairwise (· < ·) := by
    rw [indexes_batchEntries]
    exact List.pairwise_lt_range.filter _
  exact List.pairwise_map.mp hsorted

/-- The entries of a batch come before those of the batches behind it. -/
theorem Sound.index_lt (h : Sound call pool log) {i j : Nat} {before behind : Tasks.Task _ _ _}
    (hij : i < j) (hi : pool[i]? = some before) (hj : pool[j]? = some behind)
    {a b : BatchEntry T} (ha : a ∈ before.item) (hb : b ∈ behind.item) : a.index < b.index := by
  have hflat : (getBatches call.batchEntries).flatten.Pairwise fun a b => a.index < b.index := by
    rw [flatten_getBatches]
    exact pairwise_batchEntries
  rw [← h.items] at hflat
  have hbatches := (List.pairwise_flatten.mp hflat).2
  obtain ⟨hilt, rfl⟩ := List.getElem?_eq_some_iff.mp hi
  obtain ⟨hjlt, rfl⟩ := List.getElem?_eq_some_iff.mp hj
  exact List.pairwise_iff_getElem.mp (List.pairwise_map.mp hbatches) i j hilt hjlt hij a ha b hb

/-- The request of a run, with the history of its batch. -/
theorem Sound.history_of_request (h : Sound call pool log) {request : Request T ε}
    (hmem : request ∈ log) :
    ∃ task, pool[request.task]? = some task ∧
      History request.task task.item task.status (requestsOf log request.task) ∧
      request ∈ requestsOf log request.task ∧ task.item ∈ getBatches call.batchEntries := by
  have htask := List.getElem?_eq_getElem (h.tasks request hmem)
  refine ⟨_, htask, h.history _ _ htask, List.mem_filter.mpr ⟨hmem, by simp⟩, ?_⟩
  rw [← h.items]
  exact List.mem_map_of_mem (List.mem_of_getElem? htask)

/-- A request has entries of its batch, and some. -/
theorem Sound.sublist (h : Sound call pool log) {request : Request T ε} (hmem : request ∈ log) :
    ∃ task, pool[request.task]? = some task ∧ task.item ∈ getBatches call.batchEntries ∧
      request.batch.Sublist task.item ∧ request.batch ≠ [] := by
  obtain ⟨task, htask, hhistory, hrequest, hitem⟩ := h.history_of_request hmem
  have hne := (withinLimits_getBatches _ _ hitem).nonempty
  exact ⟨task, htask, hitem, hhistory.sublist hne request hrequest⟩

theorem Sound.mem_batchEntries (h : Sound call pool log) {request : Request T ε}
    (hmem : request ∈ log) {batchEntry : BatchEntry T} (hentry : batchEntry ∈ request.batch) :
    batchEntry ∈ call.batchEntries := by
  obtain ⟨task, -, hitem, hsublist, -⟩ := h.sublist hmem
  rw [← flatten_getBatches call.batchEntries]
  exact List.mem_flatten.mpr ⟨task.item, hitem, hsublist.subset hentry⟩

/-- Two requests of one entry are of one batch. -/
theorem Sound.task_eq (h : Sound call pool log) {request other : Request T ε}
    (hmem : request ∈ log) (hother : other ∈ log) {batchEntry : BatchEntry T}
    (hentry : batchEntry ∈ request.batch) (hentry' : batchEntry ∈ other.batch) :
    request.task = other.task := by
  obtain ⟨task, htask, -, hsublist, -⟩ := h.sublist hmem
  obtain ⟨task', htask', -, hsublist', -⟩ := h.sublist hother
  rcases Nat.lt_trichotomy request.task other.task with hlt | heq | hlt
  · exact absurd (h.index_lt hlt htask htask' (hsublist.subset hentry) (hsublist'.subset hentry'))
      (Nat.lt_irrefl _)
  · exact heq
  · exact absurd (h.index_lt hlt htask' htask (hsublist'.subset hentry') (hsublist.subset hentry))
      (Nat.lt_irrefl _)

/-- Of two requests of one batch, the first comes before the second. -/
theorem History.pair {task : Nat} {batch : List (BatchEntry T)}
    {status : Tasks.TaskStatus (Sending T ε) (List (SendMessageFailure T ε))}
    {requests : List (Request T ε)} (h : History task batch status requests)
    {request retry : Request T ε} (hmem : request ∈ requests) (hretry : retry ∈ requests)
    (hfirst : request.isRetry = false) (hagain : retry.isRetry = true) :
    requests = [request, retry] := by
  cases h with
  | waiting | first => cases hmem
  | again | once =>
    obtain rfl := List.mem_singleton.mp hretry
    cases hagain
  | twice =>
    simp only [List.mem_cons, List.not_mem_nil, or_false] at hmem hretry
    rcases hmem with rfl | rfl
    · rcases hretry with rfl | rfl
      · cases hagain
      · rfl
    · cases hfirst

theorem History.of_pair {task : Nat} {batch : List (BatchEntry T)}
    {status : Tasks.TaskStatus (Sending T ε) (List (SendMessageFailure T ε))}
    {requests : List (Request T ε)} (h : History task batch status requests)
    {request retry : Request T ε} (hpair : [request, retry].Sublist requests) :
    request.isRetry = false ∧ retry.isRetry = true ∧ retry.batch.Sublist request.batch := by
  have hlength := hpair.length_le
  cases h with
  | waiting | first | again | once => simp at hlength
  | twice =>
    obtain ⟨rfl, hrest⟩ := List.cons.inj (hpair.eq_of_length rfl)
    obtain ⟨rfl, -⟩ := List.cons.inj hrest
    exact ⟨rfl, rfl, List.filter_sublist⟩

/-- **One request at a time keeps the order, but for what is overtaken.** -/
theorem inOrder_iff (h : Sound call pool log) (hseq : Sequential pool log) :
    InOrder log ↔ NoneOvertaken log := by
  rw [InOrder, acceptedEntries, List.pairwise_flatMap]
  constructor
  · rintro ⟨-, hpairs⟩ request hmem retry hretry hfirst hagain late hlate hentry other hother hgroup
    have htask := h.task_eq hmem hretry hentry (List.mem_filter.mp hlate).1
    obtain ⟨task, -, hhistory, hrequest, -⟩ := h.history_of_request hmem
    have hretry' : retry ∈ requestsOf log request.task :=
      List.mem_filter.mpr ⟨hretry, by simp [htask]⟩
    have hsublist : [request, retry].Sublist log :=
      hhistory.pair hrequest hretry' hfirst hagain ▸ List.filter_sublist
    have hpair := List.pairwise_iff_forall_sublist.mp hpairs hsublist
    exact hpair other hother late hlate hgroup
  · intro hnone
    refine ⟨fun request hmem => ?_, List.pairwise_iff_forall_sublist.mpr fun {request later} hpair => ?_⟩
    · obtain ⟨task, -, hitem, hsublist, -⟩ := h.sublist hmem
      have hentries : task.item.Sublist call.batchEntries := by
        rw [← flatten_getBatches call.batchEntries]
        exact List.sublist_flatten_of_mem hitem
      have hall : (acceptedOf request).Sublist call.batchEntries :=
        (List.filter_sublist.trans hsublist).trans hentries
      refine (pairwise_batchEntries.sublist hall).imp ?_
      intro a b hlt _
      exact hlt
    · intro a ha b hb hgroup
      have hmem : request ∈ log := hpair.subset (by simp)
      have hlater : later ∈ log := hpair.subset (by simp)
      obtain ⟨task, htask, hitem, hsublist, -⟩ := h.sublist hmem
      obtain ⟨task', htask', hitem', hsublist', -⟩ := h.sublist hlater
      have hle := List.pairwise_iff_forall_sublist.mp hseq.sorted hpair
      rcases Nat.lt_or_eq_of_le hle with hlt | heq
      · exact h.index_lt hlt htask htask' (hsublist.subset (List.mem_filter.mp ha).1)
          (hsublist'.subset (List.mem_filter.mp hb).1)
      · obtain ⟨_, -, hhistory, -, -⟩ := h.history_of_request hmem
        have hparts : [request, later].Sublist (requestsOf log request.task) := by
          have hfilter := hpair.filter fun other => other.task == request.task
          rwa [List.filter_eq_self.mpr (by simp [heq])] at hfilter
        obtain ⟨hfirst, hagain, hbatch⟩ := hhistory.of_pair hparts
        exact hnone request hmem later hlater hfirst hagain b hb
          (hbatch.subset (List.mem_filter.mp hb).1) a ha hgroup

/-! ## Runs -/

/-- What holds of a call that waits for its requests. -/
structure Underway (call : Call T ε) (failures : List (SendMessageFailure T ε))
    (pool : BatchPool T ε) (log : List (Request T ε)) : Prop where
  checks : ∃ settled, Settled call settled ∧ settled.length = call.messages.length ∧
    failures = call.checkFailures settled
  sound : Sound call pool log
  sequential : call.parameters.fifoMode.isSome = true → Sequential pool log

def Kept (call : Call T ε) (s : State T ε) : Prop :=
  match s.stage with
  | .checking settled => Settled call settled ∧ s.log = []
  | .sending failures pool => Underway call failures pool s.log
  | .returned error => ∃ failures pool, Underway call failures pool s.log ∧
      Tasks.done pool = true ∧
      error = call.conclude (failures ++ (Tasks.results pool).flatten)

/-- The steps a call has left. -/
def stepsLeft (call : Call T ε) (s : State T ε) : Nat :=
  match s.stage with
  | .checking settled =>
    call.messages.length - settled.length + 2 + 3 * (getBatches call.batchEntries).length
  | .sending _ pool => Tasks.total weight pool + 1
  | .returned _ => 0

theorem Underway.start {settled : List Nat} (h : Settled call settled)
    (hall : settled.length = call.messages.length) :
    Underway call (call.checkFailures settled) (Tasks.start (getBatches call.batchEntries)) [] :=
  ⟨⟨settled, h, hall, rfl⟩, .start, fun _ => .start⟩

theorem Underway.take {failures : List (SendMessageFailure T ε)} {index : Nat}
    (h : Underway call failures pool log)
    (hnext : Tasks.next? pool call.concurrency = some index) :
    Underway call failures (Tasks.setStatus pool index (.running .first)) log := by
  refine ⟨h.checks, h.sound.take hnext, fun hfifo => (h.sequential hfifo).take ?_⟩
  rwa [Call.concurrency, if_pos hfifo] at hnext

theorem Underway.answer {failures : List (SendMessageFailure T ε)} {index : Nat}
    {answer : Answer ε} {pool' : BatchPool T ε} {request : Request T ε}
    (h : Underway call failures pool log)
    (hanswer : Call.answerTask pool index answer = some (pool', request)) :
    Underway call failures pool' (log ++ [request]) :=
  ⟨h.checks, h.sound.answerTask hanswer,
    fun hfifo => (h.sequential hfifo).answerTask h.sound hanswer⟩

/-- One step keeps the account, and there are fewer steps left. -/
theorem step_kept {s t : State T ε} {event : Event ε} (h : Kept call s)
    (hstep : call.step s event = some t) :
    Kept call t ∧ stepsLeft call t + 1 ≤ stepsLeft call s := by
  obtain ⟨stage, log⟩ := s
  cases stage with
  | checking settled =>
    obtain ⟨hsettled, rfl⟩ : Settled call settled ∧ log = [] := h
    cases event with
    | check index =>
      obtain ⟨⟨hlt, hnew⟩, rfl⟩ := Option.ite_some_none_eq_some.mp hstep
      have hmore : Settled call (settled ++ [index]) :=
        ⟨List.nodup_append.mpr ⟨hsettled.nodup, List.nodup_singleton _, by
            rintro a ha b hb rfl
            exact hnew (List.mem_singleton.mp hb ▸ ha)⟩,
          fun i hi => (List.mem_append.mp hi).elim (hsettled.bound i) fun hi =>
            List.mem_singleton.mp hi ▸ hlt⟩
      have hle := hmore.length_le
      refine ⟨⟨hmore, rfl⟩, ?_⟩
      simp only [stepsLeft, List.length_append, List.length_singleton] at hle ⊢
      omega
    | prepare =>
      obtain ⟨hall, rfl⟩ := Option.ite_some_none_eq_some.mp hstep
      refine ⟨Underway.start hsettled hall, ?_⟩
      simp only [stepsLeft, Tasks.total_start, weight]
      omega
    | take | answer _ _ | finish => cases hstep
  | sending failures pool =>
    replace h : Underway call failures pool log := h
    cases event with
    | take =>
      obtain ⟨index, hnext, heq⟩ := Option.bind_eq_some_iff.mp hstep
      obtain rfl := Option.some.inj heq
      obtain ⟨task, htask, hwaiting⟩ := Tasks.next?_eq_some hnext
      have htotal := Tasks.total_setStatus htask weight (.running .first)
      rw [hwaiting] at htotal
      refine ⟨h.take hnext, ?_⟩
      simp only [stepsLeft, weight] at htotal ⊢
      omega
    | answer index answer =>
      obtain ⟨⟨pool', request⟩, hanswer, heq⟩ := Option.bind_eq_some_iff.mp hstep
      obtain rfl := Option.some.inj heq
      obtain ⟨task, work, status, htask, -, rfl, -, hweight, -⟩ := answerTask_cases hanswer h.sound
      have htotal := Tasks.total_setStatus htask weight status
      refine ⟨h.answer hanswer, ?_⟩
      simp only [stepsLeft]
      omega
    | finish =>
      obtain ⟨hdone, rfl⟩ := Option.ite_some_none_eq_some.mp hstep
      exact ⟨⟨failures, pool, h, hdone, rfl⟩, Nat.succ_le_succ (Nat.zero_le _)⟩
    | check _ | prepare => cases hstep
  | returned error => cases event <;> cases hstep

theorem kept_init : Kept call call.sendMessages.init := by
  change Settled call [] ∧ [] = []
  exact ⟨⟨List.nodup_nil, by simp⟩, rfl⟩

theorem kept_of_run {events : List (Event ε)} {s : State T ε}
    (h : call.sendMessages.run events call.sendMessages.init = some s) : Kept call s :=
  Machine.run_invariant (I := Kept call) (fun _ _ _ hkept hstep => (step_kept hkept hstep).1)
    kept_init h

/-- A call goes on until it returns. -/
theorem returned_or_step {s : State T ε} (h : Kept call s) :
    (∃ error, s.stage = .returned error) ∨ ∃ event t, call.step s event = some t := by
  obtain ⟨stage, log⟩ := s
  cases stage with
  | checking settled =>
    right
    obtain ⟨hsettled, -⟩ : Settled call settled ∧ log = [] := h
    by_cases hall : settled.length = call.messages.length
    · exact ⟨.prepare, _, if_pos hall⟩
    · -- some message is not settled
      have hlt := Nat.lt_of_le_of_ne hsettled.length_le hall
      obtain ⟨index, hmem, hnew⟩ : ∃ index ∈ List.range call.messages.length, index ∉ settled := by
        by_contra hnone
        push Not at hnone
        have hle := (List.subperm_of_subset List.nodup_range hnone).length_le
        rw [List.length_range] at hle
        omega
      exact ⟨.check index, _, if_pos ⟨List.mem_range.mp hmem, hnew⟩⟩
  | sending failures pool =>
    right
    cases hdone : Tasks.done pool with
    | true => exact ⟨.finish, _, if_pos hdone⟩
    | false =>
      have hworkers : 0 < call.concurrency := by
        unfold Call.concurrency
        split <;> decide
      rcases Tasks.running_or_next hworkers hdone with ⟨index, task, work, htask, hrunning⟩ | ⟨index, hnext⟩
      · obtain ⟨item, status⟩ := task
        obtain rfl : status = .running work := hrunning
        have hfound := Tasks.running?_eq_some.mpr htask
        refine ⟨.answer index (.answered []), ?_⟩
        simp only [Call.step, Call.answerTask, hfound]
        cases work <;> exact ⟨_, rfl⟩
      · refine ⟨.take, ?_⟩
        simp only [Call.step, hnext, Option.bind_eq_bind, Option.bind_some]
        exact ⟨_, rfl⟩
  | returned error => exact .inl ⟨error, rfl⟩

/-! ## The result -/

theorem passes_lt {index : Nat} (h : call.passes index = true) : index < call.messages.length := by
  by_contra hle
  rw [Call.passes, List.getElem?_eq_none (Nat.le_of_not_lt hle)] at h
  cases h

theorem count_batchEntries (call : Call T ε) (index : Nat) :
    (indexes call.batchEntries).count index = if call.passes index then 1 else 0 := by
  rw [nodup_indexes_batchEntries.count, indexes_batchEntries]
  refine if_congr ?_ rfl rfl
  rw [List.mem_filter, List.mem_range]
  exact ⟨And.right, fun h => ⟨passes_lt h, h⟩⟩

theorem Sound.limits (h : Sound call pool log) {request : Request T ε} (hmem : request ∈ log) :
    1 ≤ request.batch.length ∧ request.batch.length ≤ 10 ∧
      ((request.batch.map fun batchEntry => batchEntry.entry.bytes).sum ≤ 1048576 ∨
        request.batch.length = 1) := by
  obtain ⟨task, -, hitem, hsublist, hne⟩ := h.sublist hmem
  obtain ⟨-, hentries, hsize⟩ := (withinLimits_getBatches _ _ hitem).sublist hsublist hne
  have hbytes : sizeOf request.batch =
      (request.batch.map fun batchEntry => batchEntry.entry.bytes).sum := by
    refine congrArg List.sum (List.map_congr_left fun batchEntry hentry => ?_)
    exact (getEntry_ok (SendMessages.mem_batchEntries (h.mem_batchEntries hmem hentry)).2).2.2
  exact ⟨List.length_pos_iff.mpr hne, hentries, hbytes ▸ hsize⟩

theorem Sound.server (h : Sound call pool log) {batchEntry : BatchEntry T}
    (hmem : batchEntry ∈ log.flatMap retryOf) :
    ∃ request ∈ log, request.isRetry = false ∧ batchEntry ∈ request.batch ∧
      failedByServer request.answer batchEntry = true := by
  obtain ⟨retry, hretry, hentry⟩ := List.mem_flatMap.mp hmem
  obtain ⟨task, -, hhistory, hrequest, -⟩ := h.history_of_request hretry
  unfold SendMessages.retryOf at hentry
  split at hentry
  · rename_i hagain
    obtain ⟨request, hfirst, hnot, hbatch, hfault⟩ :=
      hhistory.failedByServer hrequest hagain hentry
    exact ⟨request, (List.mem_filter.mp hfirst).1, hnot, hbatch, hfault⟩
  · cases hentry

theorem History.mem_settled {task : Nat} {batch : List (BatchEntry T)}
    {failures : List (SendMessageFailure T ε)} {requests : List (Request T ε)}
    (h : History task batch (.settled failures) requests) {failure : SendMessageFailure T ε}
    (hmem : failure ∈ failures) :
    ∃ batchEntry ∈ batch, failure.index = batchEntry.index ∧
      failure.message = batchEntry.message := by
  cases h with
  | once => exact entry_of_mem_failuresOf hmem
  | twice =>
    rcases List.mem_append.mp hmem with hmem | hmem
    · exact entry_of_mem_failuresOf hmem
    · obtain ⟨batchEntry, hentry, hsame⟩ := entry_of_mem_failuresOf hmem
      exact ⟨batchEntry, (List.mem_filter.mp hentry).1, hsame⟩

/-- A failure is that of its message. -/
theorem Sound.mem_results (h : Sound call pool log) (hdone : Tasks.done pool = true)
    {failure : SendMessageFailure T ε} (hmem : failure ∈ (Tasks.results pool).flatten) :
    call.messages[failure.index]? = some failure.message := by
  rw [flatten_results] at hmem
  obtain ⟨part, hpart, hfailure⟩ := List.mem_flatMap.mp hmem
  obtain ⟨result, hresult⟩ := Tasks.settled_of_done hdone
    (List.mem_of_getElem? (List.mk_mem_zipIdx_iff_getElem?.mp hpart))
  have hhistory := h.history_of_mem hpart
  rw [hresult] at hhistory hfailure
  obtain ⟨batchEntry, hentry, hindex, hmessage⟩ := hhistory.mem_settled hfailure
  have hentries : batchEntry ∈ call.batchEntries := by
    rw [← h.flatMap_item]
    exact List.mem_flatMap.mpr ⟨part, hpart, hentry⟩
  rw [hindex, hmessage]
  exact (SendMessages.mem_batchEntries hentries).1

theorem conclude_eq_none {failures : List (SendMessageFailure T ε)} :
    call.conclude failures = none ↔ failures = [] := by
  cases failures with
  | nil => exact ⟨fun _ => rfl, fun _ => rfl⟩
  | cons failure failures => exact ⟨fun h => (by cases h), fun h => (by cases h)⟩

/-- The failures of the error, in list order. -/
theorem map_index_mergeSort {failures : List (SendMessageFailure T ε)} {indexes : List Nat}
    (h : (failures.map SendMessageFailure.index).Perm indexes)
    (hsorted : indexes.Pairwise (· < ·)) :
    (failures.mergeSort fun a b => decide (a.index ≤ b.index)).map SendMessageFailure.index =
      indexes := by
  have hperm := (List.mergeSort_perm failures fun a b => decide (a.index ≤ b.index)).map
    SendMessageFailure.index
  have hmerged : (failures.mergeSort fun a b => decide (a.index ≤ b.index)).Pairwise fun a b =>
      decide (a.index ≤ b.index) = true :=
    List.pairwise_mergeSort (by simp; omega) (by simp; omega) failures
  have hle : ((failures.mergeSort fun a b => decide (a.index ≤ b.index)).map
      SendMessageFailure.index).Pairwise (· ≤ ·) :=
    List.pairwise_map.mpr (hmerged.imp of_decide_eq_true)
  exact (hperm.trans h).eq_of_pairwise (fun a b _ _ => Nat.le_antisymm) hle
    (hsorted.imp Nat.le_of_lt)

/-- A message failed a check, failed in a request or was accepted. -/
theorem Underway.perm_range {failures : List (SendMessageFailure T ε)}
    (h : Underway call failures pool log) (hdone : Tasks.done pool = true) :
    ((failures ++ (Tasks.results pool).flatten).map SendMessageFailure.index ++
      indexes (acceptedEntries log)).Perm (List.range call.messages.length) := by
  obtain ⟨settled, hsettled, hall, rfl⟩ := h.checks
  have haccepted := h.sound.perm_settled hdone
  have hchecked : ((call.checkFailures settled).map SendMessageFailure.index).Perm
      ((List.range call.messages.length).filter fun index => !call.passes index) := by
    rw [map_index_checkFailures hsettled]
    exact (hsettled.perm_range hall).filter _
  rw [indexes_batchEntries] at haccepted
  rw [List.map_append, List.append_assoc]
  refine (hchecked.append haccepted).trans ?_
  exact List.perm_append_comm.trans (List.filter_append_perm _ _)

/-- **What was sent, and what is reported.** -/
theorem Underway.sentExactly {failures : List (SendMessageFailure T ε)}
    (h : Underway call failures pool log) (hdone : Tasks.done pool = true) :
    SentExactly call log (call.conclude (failures ++ (Tasks.results pool).flatten)) := by
  have hsound := h.sound
  have hfailed := Parts.perm_filter_not_mem (h.perm_range hdone) List.nodup_range
  refine ⟨fun request hmem batchEntry hentry =>
      SendMessages.mem_batchEntries (hsound.mem_batchEntries hmem hentry), fun index => ?_,
    fun index => ?_, fun _ hmem => hsound.server hmem, fun _ hmem => hsound.limits hmem, ?_,
    fun failed hfailedError => ?_⟩
  · rw [← count_batchEntries call index]
    exact ((hsound.perm_first hdone).map BatchEntry.index).count_eq index
  · refine Nat.le_trans (hsound.count_retry_le index) ?_
    rw [count_batchEntries call index]
    split <;> decide
  · rw [conclude_eq_none, ← List.map_eq_nil_iff (f := SendMessageFailure.index),
      ← List.length_eq_zero_iff, hfailed.length_eq, List.length_eq_zero_iff,
      List.filter_eq_nil_iff]
    simp
  · unfold Call.conclude at hfailedError
    split at hfailedError
    · cases hfailedError
    · obtain rfl := Option.some.inj hfailedError
      refine ⟨map_index_mergeSort hfailed (List.pairwise_lt_range.filter _), fun failure hmem => ?_,
        rfl⟩
      rcases List.mem_append.mp (List.mem_mergeSort.mp hmem) with hmem | hmem
      · obtain ⟨settled, -, -, rfl⟩ := h.checks
        exact mem_checkFailures hmem
      · exact hsound.mem_results hdone hmem

/-- **Each message is sent once, within the limits, and what was not sent is reported**, and a
fifo queue keeps the order within a group exactly when nothing sent once more is overtaken. -/
theorem sendMessages_exact (call : Call T ε) {events : List (Event ε)} {s : State T ε}
    (hrun : call.sendMessages.run events call.sendMessages.init = some s) :
    events.length ≤ stepsLeft call call.sendMessages.init ∧
    ((∃ error, s.stage = .returned error) ∨ ∃ event t, call.step s event = some t) ∧
    ∀ error, s.stage = .returned error →
      ((SentExactly call s.log error ∧ (call.parameters.fifoMode.isSome = true → InOrder s.log)) ↔
        (call.parameters.fifoMode.isSome = true → NoneOvertaken s.log)) := by
  have hkept := kept_of_run hrun
  refine ⟨?_, returned_or_step hkept, fun error hstage => ?_⟩
  · have hbound : events.length + stepsLeft call s ≤
        stepsLeft call call.sendMessages.init + (events.map fun _ => 0).sum :=
      Machine.length_le_of_potential (I := Kept call)
        (fun _ _ _ h hstep => (step_kept h hstep).1) (fun _ _ _ h hstep => (step_kept h hstep).2)
        kept_init hrun
    rw [List.map_const', List.sum_replicate, Nat.nsmul_eq_mul, Nat.mul_zero] at hbound
    omega
  · obtain ⟨stage, log⟩ := s
    obtain rfl : stage = .returned error := hstage
    obtain ⟨failures, pool, hunderway, hdone, rfl⟩ := hkept
    have horder : ∀ hfifo : call.parameters.fifoMode.isSome = true,
        (InOrder log ↔ NoneOvertaken log) := fun hfifo =>
      inOrder_iff hunderway.sound (hunderway.sequential hfifo)
    exact ⟨fun h hfifo => (horder hfifo).mp (h.2 hfifo),
      fun h => ⟨hunderway.sentExactly hdone, fun hfifo => (horder hfifo).mpr (h hfifo)⟩⟩

/-! ## Examples -/

namespace Sample

/-- Two messages of one group, to a fifo queue. -/
def twoMessages : Call String Unit where
  parameters := { fifoMode := some { groupId := "group", uniqueId := none } }
  messages := ["a", "b"]
  delay := none
  traceId := "trace"
  scope := none
  getJsonStringMessage := .ok
  property _ _ := some "g"

/-- The first request fails an entry on the side of SQS, the second one takes it. -/
def failsOnce (id : String) : List (Event Unit) :=
  [.check 0, .check 1, .prepare, .take,
    .answer 0 (.answered [{ id, senderFault := false, code := some "InternalError", message := none }]),
    .answer 0 (.answered []), .finish]

instance : DecidablePred (NoneOvertaken : List (Request String Unit) → Prop) := fun log =>
  inferInstanceAs (Decidable (∀ request ∈ log, ∀ retry ∈ log, request.isRetry = false →
    retry.isRetry = true → ∀ late ∈ acceptedOf retry, late ∈ request.batch →
    ∀ other ∈ acceptedOf request,
      other.entry.messageGroupId = late.entry.messageGroupId → other.index < late.index))

instance : DecidablePred (InOrder : List (Request String Unit) → Prop) := fun log =>
  inferInstanceAs (Decidable ((acceptedEntries log).Pairwise _))

theorem last_inOrder : ∃ s,
    twoMessages.sendMessages.run (failsOnce "1") twoMessages.sendMessages.init = some s ∧
    SentExactly twoMessages s.log none ∧ InOrder s.log := by
  have hreturns : (twoMessages.sendMessages.run (failsOnce "1")
      twoMessages.sendMessages.init).any (fun s => decide (s.stage = .returned none ∧ NoneOvertaken s.log)) = true := by decide
  obtain ⟨s, hrun, hs⟩ := (Option.any_eq_true _ _).mp hreturns
  obtain ⟨hstage, hnone⟩ := of_decide_eq_true hs
  obtain ⟨hsent, horder⟩ := ((sendMessages_exact twoMessages hrun).2.2 none hstage).mpr fun _ => hnone
  exact ⟨s, hrun, hsent, horder rfl⟩

/-- The message that failed once is accepted after the one behind it. -/
theorem first_overtaken : ¬ ∀ events s error,
    twoMessages.sendMessages.run events twoMessages.sendMessages.init = some s →
    s.stage = .returned error → SentExactly twoMessages s.log error ∧
      (twoMessages.parameters.fifoMode.isSome = true → InOrder s.log) := by
  intro h
  have hreturns : (twoMessages.sendMessages.run (failsOnce "0")
      twoMessages.sendMessages.init).any (fun s => decide (s.stage = .returned none ∧ ¬ InOrder s.log)) = true := by decide
  obtain ⟨s, hrun, hs⟩ := (Option.any_eq_true _ _).mp hreturns
  obtain ⟨hstage, hswapped⟩ := of_decide_eq_true hs
  exact hswapped ((h _ s none hrun hstage).2 rfl)

end Sample

end Ez4.Queue.SendMessages

import Mathlib.Data.List.Sort
import Ez4.Library.Parts
import Ez4.Queue.SendRuns

/-! # What `sendMessages` reports

Each message that passes its checks is in one first request. The failures of
the error are the messages that no request accepted, in list order. Within a
group of a fifo queue the order can only be lost in a batch that is sent in
part once more. -/
namespace Ez4.Queue.SendMessages
open Ez4.Library Ez4.Utils

variable {T ε : Type} {call : Call T ε} {pool : BatchPool T ε} {log : List (Request T ε)}

/-! ## Requests of a run -/

def acceptedOf (request : Request T ε) : List (BatchEntry T) :=
  request.batch.filter (accepts request.answer)

/-- The entries that SQS accepted, in the order it accepted them. -/
def acceptedEntries (log : List (Request T ε)) : List (BatchEntry T) := log.flatMap acceptedOf

def firstOf (request : Request T ε) : List (BatchEntry T) :=
  if request.isRetry then [] else request.batch

def retryOf (request : Request T ε) : List (BatchEntry T) :=
  if request.isRetry then request.batch else []

/-- The positions of entries in the list of messages. -/
def indexes (entries : List (BatchEntry T)) : List Nat := entries.map BatchEntry.index

section
variable {task : Nat} {batch : List (BatchEntry T)} {requests : List (Request T ε)}
  {status : Tasks.TaskStatus (Sending T ε) (List (SendMessageFailure T ε))}

/-- A batch that is settled is accounted for. -/
theorem History.perm_settled {failures : List (SendMessageFailure T ε)}
    (h : History task batch (.settled failures) requests) :
    (failures.map SendMessageFailure.index ++ indexes (requests.flatMap acceptedOf)).Perm
      (indexes batch) := by
  cases h with
  | @once answer hretry =>
    have hperm := (perm_first batch answer).map BatchEntry.index
    rw [hretry, List.append_nil, List.map_append] at hperm
    rw [map_index_failuresOf, List.flatMap_singleton]
    exact hperm
  | @twice answer answer' hretry =>
    have hfirst := (perm_first batch answer).map BatchEntry.index
    have hagain := (perm_again (retryBatchOf batch answer) answer').map BatchEntry.index
    rw [List.map_append, List.map_append] at hfirst
    rw [List.map_append] at hagain
    rw [List.map_append, map_index_failuresOf, map_index_failuresOf, List.flatMap_cons,
      List.flatMap_singleton, indexes, List.map_append]
    refine List.Perm.trans ?_ hfirst
    refine List.Perm.trans ?_ (hagain.append_left _)
    simp only [acceptedOf, ← List.append_assoc]
    refine List.Perm.append_right _ ?_
    simp only [List.append_assoc]
    exact List.perm_append_comm.append_left _

theorem History.firstOf (h : History task batch status requests) {result : List _}
    (hsettled : status = .settled result) : requests.flatMap firstOf = batch := by
  cases h with
  | waiting | first | again => cases hsettled
  | once => simp [SendMessages.firstOf]
  | twice => simp [SendMessages.firstOf]

theorem History.retryOf (h : History task batch status requests) :
    (requests.flatMap retryOf).Sublist batch := by
  cases h with
  | waiting | first | again | once => simp [SendMessages.retryOf]
  | @twice answer =>
    rw [List.flatMap_cons, List.flatMap_singleton]
    exact List.filter_sublist

theorem History.sublist (h : History task batch status requests) (hne : batch ≠ []) :
    ∀ request ∈ requests, request.batch.Sublist batch ∧ request.batch ≠ [] := by
  cases h with
  | waiting | first => simp
  | again | once => simpa using hne
  | twice hretry => simpa using ⟨hne, List.filter_sublist, hretry⟩

/-- What is sent once more failed on the side of SQS. -/
theorem History.failedByServer (h : History task batch status requests) {request : Request T ε}
    (hmem : request ∈ requests) (hretry : request.isRetry = true) {batchEntry : BatchEntry T}
    (hentry : batchEntry ∈ request.batch) :
    ∃ first ∈ requests, first.isRetry = false ∧ batchEntry ∈ first.batch ∧
      SendMessages.failedByServer first.answer batchEntry = true := by
  cases h with
  | waiting | first => cases hmem
  | again | once =>
    obtain rfl := List.mem_singleton.mp hmem
    cases hretry
  | twice =>
    rcases List.mem_cons.mp hmem with rfl | hmem
    · cases hretry
    · obtain rfl := List.mem_singleton.mp hmem
      obtain ⟨hbatch, hfault⟩ := List.mem_filter.mp hentry
      exact ⟨_, List.mem_cons_self, rfl, hbatch, hfault⟩

end

/-! ## All batches together -/

/-- What the requests of each batch come to, all requests come to. -/
theorem Sound.flatMap_perm {α : Type} (h : Sound call pool log) (f : Request T ε → List α) :
    (log.flatMap f).Perm (pool.zipIdx.flatMap fun part => (requestsOf log part.2).flatMap f) := by
  have hparts := (Parts.perm_parts Request.task h.tasks).flatMap_right f
  rw [List.flatMap_assoc] at hparts
  refine hparts.trans (List.Perm.of_eq ?_)
  rw [List.range_eq_range', ← List.zipIdx_map_snd, List.flatMap_map]
  rfl

theorem Sound.history_of_mem (h : Sound call pool log) {part : Tasks.Task _ _ _ × Nat}
    (hmem : part ∈ pool.zipIdx) :
    History part.2 part.1.item part.1.status (requestsOf log part.2) :=
  h.history _ _ (List.mk_mem_zipIdx_iff_getElem?.mp hmem)

theorem Sound.flatMap_item (h : Sound call pool log) :
    pool.zipIdx.flatMap (fun part => part.1.item) = call.batchEntries := by
  have hmap : pool.zipIdx.map (fun part => part.1.item) = getBatches call.batchEntries := by
    rw [← h.items, ← List.zipIdx_map_fst 0 pool, List.map_map]
    simp
  rw [← flatten_getBatches call.batchEntries, ← hmap, List.flatMap_def]

theorem flatten_results (pool : BatchPool T ε) :
    (Tasks.results pool).flatten =
      pool.zipIdx.flatMap fun part => part.1.status.result?.getD [] := by
  have hpool : ∀ tasks : BatchPool T ε, (Tasks.results tasks).flatten =
      tasks.flatMap fun task => task.status.result?.getD [] := by
    intro tasks
    induction tasks with
    | nil => rfl
    | cons task tasks ih =>
      rw [List.flatMap_cons, ← ih, Tasks.results, List.filterMap_cons]
      cases task.status.result? <;> rfl
  rw [hpool]
  conv_lhs => rw [← List.zipIdx_map_fst 0 pool]
  rw [List.flatMap_map]

/-- Once all batches are settled, the failures and the accepted entries are all entries. -/
theorem Sound.perm_settled (h : Sound call pool log) (hdone : Tasks.done pool = true) :
    ((Tasks.results pool).flatten.map SendMessageFailure.index ++
      indexes (acceptedEntries log)).Perm (indexes call.batchEntries) := by
  have haccepted := (h.flatMap_perm acceptedOf).map BatchEntry.index
  rw [flatten_results, List.map_flatMap]
  refine (haccepted.append_left _).trans ?_
  rw [List.map_flatMap, indexes, ← h.flatMap_item, List.map_flatMap]
  refine (List.flatMap_append_perm _ _ _).trans (List.Perm.flatMap_left _ fun part hmem => ?_)
  obtain ⟨result, hresult⟩ := Tasks.settled_of_done hdone
    (List.mem_of_getElem? (List.mk_mem_zipIdx_iff_getElem?.mp hmem))
  have hhistory := h.history_of_mem hmem
  rw [hresult] at hhistory ⊢
  exact hhistory.perm_settled

/-- Once all batches are settled, each entry is in one first request. -/
theorem Sound.perm_first (h : Sound call pool log) (hdone : Tasks.done pool = true) :
    (log.flatMap firstOf).Perm call.batchEntries := by
  refine (h.flatMap_perm firstOf).trans ?_
  rw [← h.flatMap_item]
  refine List.Perm.flatMap_left _ fun part hmem => ?_
  obtain ⟨result, hresult⟩ := Tasks.settled_of_done hdone
    (List.mem_of_getElem? (List.mk_mem_zipIdx_iff_getElem?.mp hmem))
  rw [(h.history_of_mem hmem).firstOf hresult]

/-- An entry is sent once more at most. -/
theorem Sound.count_retry_le (h : Sound call pool log) (index : Nat) :
    (indexes (log.flatMap retryOf)).count index ≤ (indexes call.batchEntries).count index := by
  have hsublist : (pool.zipIdx.flatMap fun part => (requestsOf log part.2).flatMap retryOf).Sublist
      (pool.zipIdx.flatMap fun part => part.1.item) :=
    Parts.sublist_flatMap fun part hmem => (h.history_of_mem hmem).retryOf
  rw [h.flatMap_item] at hsublist
  rw [indexes, ((h.flatMap_perm retryOf).map BatchEntry.index).count_eq]
  exact (hsublist.map BatchEntry.index).count_le index

/-! ## The checks -/

section
variable (call)

/-- A message passes its schema and group checks. -/
def Call.passes (index : Nat) : Bool :=
  (call.messages[index]?.bind fun message => call.batchEntry? (message, index)).isSome

end

theorem getEntry_ok {message : T} {index : Nat} {batchEntry : BatchEntry T}
    (h : call.getEntry message index = .ok batchEntry) :
    batchEntry.index = index ∧ batchEntry.message = message ∧
      batchEntry.size = batchEntry.entry.bytes := by
  unfold Call.getEntry at h
  cases hbody : (call.getJsonStringMessage message).mapError SendError.thrown with
  | error error => rw [hbody] at h; cases h
  | ok messageBody =>
    rw [hbody] at h
    cases hgroup : call.getGroupParameters message with
    | error error => rw [hgroup] at h; cases h
    | ok group =>
      rw [hgroup] at h
      obtain rfl := Except.ok.inj h
      exact ⟨rfl, rfl, rfl⟩

theorem batchEntry?_eq_some {position : T × Nat} {batchEntry : BatchEntry T} :
    call.batchEntry? position = some batchEntry ↔
      call.getEntry position.1 position.2 = .ok batchEntry := by
  rw [Call.batchEntry?]
  cases call.getEntry position.1 position.2 with
  | error error => simp [Except.toOption]
  | ok entry => simp [Except.toOption]

/-- An entry is that of a message of the list. -/
theorem mem_batchEntries {batchEntry : BatchEntry T} (h : batchEntry ∈ call.batchEntries) :
    call.messages[batchEntry.index]? = some batchEntry.message ∧
      call.getEntry batchEntry.message batchEntry.index = .ok batchEntry := by
  obtain ⟨⟨message, index⟩, hmem, hentry⟩ := List.mem_filterMap.mp h
  have hok := batchEntry?_eq_some.mp hentry
  obtain ⟨rfl, rfl, -⟩ := getEntry_ok hok
  exact ⟨List.mk_mem_zipIdx_iff_getElem?.mp hmem, hok⟩

theorem indexes_batchEntries :
    indexes call.batchEntries = (List.range call.messages.length).filter call.passes := by
  have hindex : ∀ position, (call.batchEntry? position).map BatchEntry.index =
      if (call.batchEntry? position).isSome then some position.2 else none := by
    intro position
    cases hentry : call.batchEntry? position with
    | none => rfl
    | some batchEntry =>
      rw [Option.map_some, (getEntry_ok (batchEntry?_eq_some.mp hentry)).1]
      rfl
  have hpasses : ∀ position ∈ call.messages.zipIdx,
      (call.batchEntry? position).isSome = call.passes position.2 := by
    intro position hmem
    rw [Call.passes, List.mk_mem_zipIdx_iff_getElem?.mp hmem, Option.bind_some]
  rw [indexes, Call.batchEntries, List.map_filterMap, List.range_eq_range', ← List.zipIdx_map_snd,
    List.filter_map, ← List.filterMap_eq_map', ← List.filterMap_eq_filter, List.filterMap_filterMap]
  refine List.filterMap_congr fun position hmem => ?_
  rw [hindex, hpasses position hmem]
  cases hp : call.passes position.2 <;> simp [Option.guard, hp]

theorem nodup_indexes_batchEntries : (indexes call.batchEntries).Nodup := by
  rw [indexes_batchEntries]
  exact List.nodup_range.filter _

/-- The checks settled, each once. -/
structure Settled (call : Call T ε) (settled : List Nat) : Prop where
  nodup : settled.Nodup
  bound : ∀ index ∈ settled, index < call.messages.length

theorem Settled.subperm {settled : List Nat} (h : Settled call settled) :
    settled.Subperm (List.range call.messages.length) :=
  List.subperm_of_subset h.nodup fun index hmem => List.mem_range.mpr (h.bound index hmem)

theorem Settled.length_le {settled : List Nat} (h : Settled call settled) :
    settled.length ≤ call.messages.length := by
  have hle := h.subperm.length_le
  rwa [List.length_range] at hle

theorem Settled.perm_range {settled : List Nat} (h : Settled call settled)
    (hall : settled.length = call.messages.length) :
    settled.Perm (List.range call.messages.length) :=
  h.subperm.perm_of_length_le (by rw [List.length_range, hall])

theorem map_index_checkFailures {settled : List Nat} (h : Settled call settled) :
    (call.checkFailures settled).map SendMessageFailure.index =
      settled.filter fun index => !call.passes index := by
  rw [Call.checkFailures, List.map_filterMap, ← List.filterMap_eq_filter]
  refine List.filterMap_congr fun index hmem => ?_
  have hlt := h.bound index hmem
  have hmessage := List.getElem?_eq_getElem hlt
  simp only [Option.guard, Call.passes, hmessage, Option.bind_some, Call.batchEntry?,
    Call.checkFailure?, Option.bind_eq_bind]
  cases call.getEntry call.messages[index] index <;> simp [Except.toOption]

theorem mem_checkFailures {settled : List Nat} {failure : SendMessageFailure T ε}
    (h : failure ∈ call.checkFailures settled) :
    call.messages[failure.index]? = some failure.message := by
  obtain ⟨index, -, hfailure⟩ := List.mem_filterMap.mp h
  obtain ⟨message, hmessage, hcheck⟩ := Option.bind_eq_some_iff.mp hfailure
  unfold Call.checkFailure? at hcheck
  split at hcheck
  · cases hcheck
  · obtain rfl := Option.some.inj hcheck
    exact hmessage

end Ez4.Queue.SendMessages

import Mathlib.Algebra.Order.BigOperators.Group.List
import Mathlib.Algebra.Order.Group.Nat
import Ez4.Queue.SendMessages

/-! # The requests of a batch

The batches hold the entries in their order, within the limits of a request.
Of the entries of a request some are accepted, some failed, and the others are
sent once more. -/
namespace Ez4.Queue.SendMessages
open Ez4.Library Ez4.Utils

variable {T ε : Type} {batch : List (BatchEntry T)} {answer : Answer ε}

/-! ## Limits -/

/-- What SQS counts of an entry. -/
def Entry.bytes (entry : Entry) : Nat :=
  entry.messageBody.utf8ByteSize + (entry.messageAttributes.map MessageAttribute.size).sum

def sizeOf (batch : List (BatchEntry T)) : Nat := (batch.map BatchEntry.size).sum

structure WithinLimits (batch : List (BatchEntry T)) : Prop where
  nonempty : batch ≠ []
  entries : batch.length ≤ maxBatchEntries
  size : sizeOf batch ≤ maxBatchSize ∨ batch.length = 1

theorem withinLimits_singleton (batchEntry : BatchEntry T) : WithinLimits [batchEntry] :=
  ⟨List.cons_ne_nil _ _, by simp [maxBatchEntries], .inr rfl⟩

theorem WithinLimits.sublist {part : List (BatchEntry T)} (h : WithinLimits batch)
    (hpart : part.Sublist batch) (hne : part ≠ []) : WithinLimits part := by
  refine ⟨hne, Nat.le_trans hpart.length_le h.entries, h.size.imp (fun hsize => ?_) fun hone => ?_⟩
  · have hsum := (hpart.map BatchEntry.size).sum_le_sum fun _ _ => Nat.zero_le _
    exact Nat.le_trans hsum hsize
  · have hle := hpart.length_le
    have hpos := List.length_pos_iff.mpr hne
    omega

theorem flatten_getBatchesFrom (currentBatch : List (BatchEntry T)) (currentSize : Nat)
    (rest : List (BatchEntry T)) :
    (getBatchesFrom currentBatch currentSize rest).flatten = currentBatch ++ rest := by
  induction rest generalizing currentBatch currentSize with
  | nil =>
    rw [getBatchesFrom]
    split
    · rename_i hempty
      simpa using hempty
    · simp
  | cons batchEntry rest ih =>
    unfold getBatchesFrom
    dsimp only
    split
    · rw [List.flatten_cons, ih, List.singleton_append]
    · rw [ih, List.append_assoc, List.singleton_append]

/-- **The batches are the entries in their order.** -/
theorem flatten_getBatches (batchEntries : List (BatchEntry T)) :
    (getBatches batchEntries).flatten = batchEntries :=
  flatten_getBatchesFrom [] 0 batchEntries

theorem withinLimits_getBatchesFrom {currentBatch : List (BatchEntry T)}
    (h : currentBatch ≠ [] → WithinLimits currentBatch) (rest : List (BatchEntry T)) :
    ∀ batch ∈ getBatchesFrom currentBatch (sizeOf currentBatch) rest, WithinLimits batch := by
  induction rest generalizing currentBatch with
  | nil =>
    intro batch hmem
    rw [getBatchesFrom] at hmem
    split at hmem
    · cases hmem
    · rename_i hne
      obtain rfl := List.mem_singleton.mp hmem
      exact h (by simpa using hne)
  | cons batchEntry rest ih =>
    intro batch hmem
    have hsingle : sizeOf [batchEntry] = batchEntry.size := Nat.add_zero _
    have happend : sizeOf (currentBatch ++ [batchEntry]) = sizeOf currentBatch + batchEntry.size := by
      simp [sizeOf]
    unfold getBatchesFrom at hmem
    dsimp only at hmem
    split at hmem
    · rename_i hfull
      rw [Bool.and_eq_true, Bool.not_eq_true', List.isEmpty_eq_false_iff] at hfull
      rcases List.mem_cons.mp hmem with rfl | hmem
      · exact h hfull.2
      · exact ih (fun _ => withinLimits_singleton batchEntry) batch (hsingle ▸ hmem)
    · rename_i hroom
      refine ih (fun _ => ?_) batch (happend ▸ hmem)
      by_cases hempty : currentBatch = []
      · subst hempty
        exact withinLimits_singleton batchEntry
      · -- there is room for one more entry
        have hlimits := h hempty
        have hbound : currentBatch.length ≠ maxBatchEntries ∧
            sizeOf currentBatch + batchEntry.size ≤ maxBatchSize := by
          simpa [hempty] using hroom
        have hentries := hlimits.entries
        refine ⟨by simp, ?_, .inl (happend ▸ hbound.2)⟩
        rw [List.length_append, List.length_singleton]
        omega

/-- **A request stays within the limits**, unless it has a single entry. -/
theorem withinLimits_getBatches (batchEntries : List (BatchEntry T)) :
    ∀ batch ∈ getBatches batchEntries, WithinLimits batch :=
  withinLimits_getBatchesFrom (fun h => absurd rfl h) batchEntries

/-! ## What an answer says of the entries -/

/-- The entries that the request leaves as failures. -/
def fails (retryServerFaults : Bool) (answer : Answer ε) (batchEntry : BatchEntry T) : Bool :=
  !accepts answer batchEntry && !(retryServerFaults && failedByServer answer batchEntry)

theorem failuresOf_eq (retryServerFaults : Bool) (batch : List (BatchEntry T)) (answer : Answer ε) :
    ∃ error : BatchEntry T → SendError ε, failuresOf retryServerFaults batch answer =
      (batch.filter (fails retryServerFaults answer)).map fun batchEntry =>
        { index := batchEntry.index, message := batchEntry.message, error := error batchEntry } := by
  cases answer with
  | rejected error =>
    refine ⟨fun _ => .thrown error, ?_⟩
    have hall : batch.filter (fails retryServerFaults (.rejected error)) = batch := by
      rw [List.filter_eq_self]
      intro batchEntry _
      simp [fails, accepts, failedByServer]
    rw [hall]
    rfl
  | answered failed =>
    refine ⟨fun batchEntry => .failed (( failedEntry? failed batchEntry).elim "" FailedEntry.reason), ?_⟩
    rw [failuresOf, ← List.filterMap_eq_map', ← List.filterMap_eq_filter, List.filterMap_filterMap]
    refine List.filterMap_congr fun batchEntry _ => ?_
    cases hfound : failedEntry? failed batchEntry with
    | none => simp [fails, accepts, hfound, Option.guard]
    | some failedEntry =>
      cases retryServerFaults <;> cases hfault : failedEntry.senderFault <;>
        simp [fails, accepts, failedByServer, hfound, hfault, Option.guard]

theorem map_index_failuresOf (retryServerFaults : Bool) (batch : List (BatchEntry T))
    (answer : Answer ε) :
    (failuresOf retryServerFaults batch answer).map SendMessageFailure.index =
      (batch.filter (fails retryServerFaults answer)).map BatchEntry.index := by
  obtain ⟨error, heq⟩ := failuresOf_eq retryServerFaults batch answer
  rw [heq, List.map_map]
  rfl

/-- A failure is that of an entry. -/
theorem entry_of_mem_failuresOf {retryServerFaults : Bool} {failure : SendMessageFailure T ε}
    (h : failure ∈ failuresOf retryServerFaults batch answer) :
    ∃ batchEntry ∈ batch, failure.index = batchEntry.index ∧
      failure.message = batchEntry.message := by
  obtain ⟨error, heq⟩ := failuresOf_eq retryServerFaults batch answer
  rw [heq] at h
  obtain ⟨batchEntry, hmem, rfl⟩ := List.mem_map.mp h
  exact ⟨batchEntry, (List.mem_filter.mp hmem).1, rfl, rfl⟩

theorem not_accepts_of_failedByServer {batchEntry : BatchEntry T}
    (h : failedByServer answer batchEntry = true) : accepts answer batchEntry = false := by
  cases answer with
  | rejected error => rfl
  | answered failed =>
    cases hfound : failedEntry? failed batchEntry with
    | none => simp [failedByServer, hfound] at h
    | some failedEntry => simp [accepts, hfound]

/-- A second request settles all of its entries. -/
theorem perm_again (batch : List (BatchEntry T)) (answer : Answer ε) :
    (batch.filter (fails false answer) ++ batch.filter (accepts answer)).Perm batch := by
  have hsplit := List.filter_append_perm (accepts answer) batch
  have hfails : batch.filter (fails false answer) = batch.filter (!accepts answer ·) :=
    List.filter_congr fun batchEntry _ => by simp [fails]
  rw [hfails]
  exact List.perm_append_comm.trans hsplit

/-- A first request settles its entries, but for those of the batch sent again. -/
theorem perm_first (batch : List (BatchEntry T)) (answer : Answer ε) :
    (batch.filter (fails true answer) ++ batch.filter (accepts answer) ++
      retryBatchOf batch answer).Perm batch := by
  have hfails : (batch.filter (fails false answer)).filter (!failedByServer answer ·) =
      batch.filter (fails true answer) := by
    rw [List.filter_filter]
    exact List.filter_congr fun batchEntry _ => by simp [fails, Bool.and_comm]
  have hretry : (batch.filter (fails false answer)).filter (failedByServer answer) =
      retryBatchOf batch answer := by
    rw [List.filter_filter, retryBatchOf]
    refine List.filter_congr fun batchEntry _ => ?_
    cases hfault : failedByServer answer batchEntry with
    | false => rfl
    | true => simp [fails, not_accepts_of_failedByServer hfault]
  have hsplit := List.filter_append_perm (failedByServer answer) (batch.filter (fails false answer))
  rw [hretry, hfails] at hsplit
  -- what is sent again comes last
  have hmove : (batch.filter (fails true answer) ++ batch.filter (accepts answer) ++
      retryBatchOf batch answer).Perm (retryBatchOf batch answer ++
        batch.filter (fails true answer) ++ batch.filter (accepts answer)) := by
    rw [List.append_assoc (retryBatchOf batch answer)]
    exact List.perm_append_comm
  exact hmove.trans ((hsplit.append_right _).trans (perm_again batch answer))

end Ez4.Queue.SendMessages

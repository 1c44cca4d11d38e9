import Ez4.Dynamo.InsertMany

/-! # What is inserted

Every key of the list is written or found, whatever other writers do, if and
only if no two records with different keys have one text for an identifier. The
loop that sends what is left ends: each turn leaves out one record at least. -/
namespace Ez4.Dynamo.InsertMany
open Ez4.Library

variable {V I R : Type}

/-- The records that the call wrote, in the order they were written. -/
def writtenOf (log : List (Entry I)) : List I :=
  log.filterMap fun
    | .written record => some record
    | .found _ => none

/-- The call wrote the record, or found an item of its key. -/
def Logged (log : List (Entry I)) (record : I) : Prop :=
  .written record ∈ log ∨ .found record ∈ log

namespace InsertManyInput

/-- Records with different keys have different texts. -/
def DistinctIds (query : InsertManyInput V I R) : Prop :=
  ∀ record ∈ query.data, ∀ other ∈ query.data,
    query.uniqueRecordId record = query.uniqueRecordId other → query.key record = query.key other

instance [DecidableEq V] (query : InsertManyInput V I R) : Decidable query.DistinctIds :=
  inferInstanceAs (Decidable (∀ record ∈ query.data, ∀ other ∈ query.data, _ → _))

variable {query : InsertManyInput V I R} {identifiers : List String} {data records : List I}
  {transactions : List (Key V)}

theorem uniqueRecordId_of_key {record other : I} (h : query.key record = query.key other) :
    query.uniqueRecordId record = query.uniqueRecordId other := by
  obtain ⟨hp, hs⟩ := Prod.mk.inj h
  rw [uniqueRecordId, uniqueRecordId, hp, hs]

/-- One record is left out or is the first of those that are prepared. -/
theorem prepareInsertMany_cons {record : I}
    (h : query.prepareInsertMany identifiers (record :: data) = some (transactions, records)) :
    (query.uniqueRecordId record ∈ identifiers ∧
      query.prepareInsertMany identifiers data = some (transactions, records)) ∨
    (query.uniqueRecordId record ∉ identifiers ∧ ∃ transaction transactions' records',
      query.prepareInsertMany (query.uniqueRecordId record :: identifiers) data =
          some (transactions', records') ∧
        transactions = transaction :: transactions' ∧ records = record :: records') := by
  rw [prepareInsertMany] at h
  by_cases hid : identifiers.contains (query.uniqueRecordId record) = true
  · rw [if_pos hid] at h
    exact .inl ⟨List.contains_iff_mem.mp hid, h⟩
  · rw [if_neg hid] at h
    obtain ⟨transaction, -, h⟩ := Option.bind_eq_some_iff.mp h
    obtain ⟨⟨transactions', records'⟩, hrest, h⟩ := Option.bind_eq_some_iff.mp h
    obtain ⟨rfl, rfl⟩ := Prod.mk.inj (Option.some.inj h)
    exact .inr ⟨fun hmem => hid (List.contains_iff_mem.mpr hmem), transaction, transactions',
      records', hrest, rfl, rfl⟩

theorem length_prepareInsertMany
    (h : query.prepareInsertMany identifiers data = some (transactions, records)) :
    transactions.length = records.length := by
  induction data generalizing identifiers transactions records with
  | nil =>
    obtain ⟨rfl, rfl⟩ := Prod.mk.inj (Option.some.inj h)
    rfl
  | cons record data ih =>
    rcases prepareInsertMany_cons h with ⟨-, h⟩ | ⟨-, _, _, _, hrest, rfl, rfl⟩
    · exact ih h
    · exact congrArg (· + 1) (ih hrest)

theorem sublist_prepareInsertMany
    (h : query.prepareInsertMany identifiers data = some (transactions, records)) :
    records.Sublist data := by
  induction data generalizing identifiers transactions records with
  | nil =>
    obtain ⟨rfl, rfl⟩ := Prod.mk.inj (Option.some.inj h)
    exact List.Sublist.refl _
  | cons record data ih =>
    rcases prepareInsertMany_cons h with ⟨-, h⟩ | ⟨-, _, _, _, hrest, rfl, rfl⟩
    · exact (ih h).cons record
    · exact (ih hrest).cons_cons record

/-- A prepared record is the first of its text. -/
theorem find?_of_mem_prepared
    (h : query.prepareInsertMany identifiers data = some (transactions, records)) {record : I}
    (hmem : record ∈ records) : query.uniqueRecordId record ∉ identifiers ∧
      data.find? (fun r => query.uniqueRecordId r = query.uniqueRecordId record) = some record := by
  induction data generalizing identifiers transactions records with
  | nil =>
    obtain ⟨rfl, rfl⟩ := Prod.mk.inj (Option.some.inj h)
    exact absurd hmem List.not_mem_nil
  | cons first data ih =>
    rcases prepareInsertMany_cons h with ⟨hid, h⟩ | ⟨hid, _, _, _, hrest, rfl, rfl⟩
    · obtain ⟨hrecord, hfind⟩ := ih h hmem
      refine ⟨hrecord, ?_⟩
      rw [List.find?_cons_of_neg, hfind]
      exact fun heq => hrecord (of_decide_eq_true heq ▸ hid)
    · rcases List.mem_cons.mp hmem with rfl | hmem
      · exact ⟨hid, List.find?_cons_of_pos (decide_eq_true rfl)⟩
      · obtain ⟨hrecord, hfind⟩ := ih hrest hmem
        rw [List.mem_cons, not_or] at hrecord
        refine ⟨hrecord.2, ?_⟩
        rw [List.find?_cons_of_neg, hfind]
        exact fun heq => hrecord.1 (of_decide_eq_true heq).symm

theorem exists_prepared
    (h : query.prepareInsertMany identifiers data = some (transactions, records)) {record : I}
    (hmem : record ∈ data) (hid : query.uniqueRecordId record ∉ identifiers) :
    ∃ other ∈ records, query.uniqueRecordId other = query.uniqueRecordId record := by
  induction data generalizing identifiers transactions records with
  | nil => exact absurd hmem List.not_mem_nil
  | cons first data ih =>
    rcases prepareInsertMany_cons h with ⟨hfirst, h⟩ | ⟨-, _, _, _, hrest, rfl, rfl⟩
    · rcases List.mem_cons.mp hmem with rfl | hmem
      · exact absurd hfirst hid
      · exact ih h hmem hid
    · by_cases heq : query.uniqueRecordId record = query.uniqueRecordId first
      · exact ⟨first, List.mem_cons_self, heq.symm⟩
      · have hmem : record ∈ data := by
          rcases List.mem_cons.mp hmem with rfl | hmem
          · exact absurd rfl heq
          · exact hmem
        obtain ⟨other, hother, hsame⟩ := ih hrest hmem (by simp [heq, hid])
        exact ⟨other, List.mem_cons_of_mem _ hother, hsame⟩

/-- Two prepared records of one text are one. -/
theorem eq_of_uniqueRecordId
    (h : query.prepareInsertMany identifiers data = some (transactions, records))
    {record other : I} (hrecord : record ∈ records) (hother : other ∈ records)
    (heq : query.uniqueRecordId record = query.uniqueRecordId other) : record = other := by
  have hfind := (find?_of_mem_prepared h hrecord).2
  rw [heq, (find?_of_mem_prepared h hother).2] at hfind
  exact (Option.some.inj hfind).symm

end InsertManyInput

variable [DecidableEq V]

/-! ## What is promised -/

/-- What a call that returns promises of the records it was given. -/
structure Complete (query : InsertManyInput V I R) (log : List (Entry I))
    (result : Option (List R)) : Prop where
  accounted : ∀ record ∈ query.data, ∃ other, query.key other = query.key record ∧ Logged log other
  first : query.skipDuplicates = false → ∀ record ∈ query.data, ∃ other,
    query.data.find? (fun r => query.key r = query.key record) = some other ∧ .written other ∈ log
  returned : query.skipDuplicates = true →
    result = (query.select.map fun read => (writtenOf log).map read) ∧
      (writtenOf log).Sublist query.data

end Ez4.Dynamo.InsertMany

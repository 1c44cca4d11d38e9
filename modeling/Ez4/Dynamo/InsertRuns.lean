import Mathlib.Data.List.Find
import Ez4.Dynamo.InsertedRecords

/-! # Runs of an insertion

What a run of `insertMany` keeps: the records are written in their order, those
that are not waiting are written or found, and each turn of the loop leaves out
one record at least. -/
namespace Ez4.Dynamo.InsertMany
open Ez4.Library

variable {V I R : Type}

/-! ## What is settled -/

theorem writtenOf_written {log : List (Entry I)} {pending : Pending V I} :
    writtenOf (log ++ pending.map fun statement => .written statement.2) =
      writtenOf log ++ pending.map Prod.snd := by
  rw [writtenOf, List.filterMap_append, List.filterMap_map]
  exact congrArg (writtenOf log ++ ·) (congrFun List.filterMap_eq_map' pending)

theorem writtenOf_found {log : List (Entry I)} {record : I} :
    writtenOf (log ++ [.found record]) = writtenOf log := by
  rw [writtenOf, List.filterMap_append]
  exact List.append_nil _

theorem mem_writtenOf {log : List (Entry I)} {record : I} :
    record ∈ writtenOf log ↔ .written record ∈ log := by
  rw [writtenOf, List.mem_filterMap]
  constructor
  · rintro ⟨⟨other⟩ | ⟨other⟩, hmem, heq⟩
    · exact Option.some.inj heq ▸ hmem
    · cases heq
  · exact fun h => ⟨_, h, rfl⟩

theorem Logged.mono {log more : List (Entry I)} {record : I} (h : Logged log record) :
    Logged (log ++ more) record :=
  h.imp (List.mem_append_left _) (List.mem_append_left _)

/-- Of the prepared records some are waiting, in their order behind those that
are written, and all others are settled. -/
structure Settled (records : List I) (log : List (Entry I)) (waiting : List I) : Prop where
  ordered : (writtenOf log ++ waiting).Sublist records
  settled : ∀ record ∈ records, record ∈ waiting ∨ Logged log record
  prepared : ∀ record, Logged log record → record ∈ records

namespace Settled

variable {records waiting rest : List I} {log : List (Entry I)}

theorem nil : Settled records [] records :=
  ⟨List.Sublist.refl _, fun _ => .inl, fun _ h => by rcases h with h | h <;> cases h⟩

/-- A transaction writes what waits in front. -/
theorem commit {pending : Pending V I} (h : Settled records log (pending.map Prod.snd ++ rest)) :
    Settled records (log ++ pending.map fun statement => .written statement.2) rest := by
  have hwritten : ∀ record, record ∈ pending.map Prod.snd →
      Entry.written record ∈ log ++ pending.map fun statement => .written statement.2 := by
    intro record hmem
    rw [← mem_writtenOf, writtenOf_written]
    exact List.mem_append_right _ hmem
  refine ⟨?_, fun record hrecord => ?_, fun record hlogged => ?_⟩
  · rw [writtenOf_written, List.append_assoc]
    exact h.ordered
  · rcases h.settled record hrecord with hwait | hlogged
    · rcases List.mem_append.mp hwait with hmem | hmem
      · exact .inr (.inl (hwritten record hmem))
      · exact .inl hmem
    · exact .inr hlogged.mono
  · rcases hlogged with hmem | hmem
    · rw [← mem_writtenOf, writtenOf_written] at hmem
      rcases List.mem_append.mp hmem with hmem | hmem
      · exact h.prepared record (.inl (mem_writtenOf.mp hmem))
      · exact h.ordered.subset (List.mem_append_right _ (List.mem_append_left _ hmem))
    · rcases List.mem_append.mp hmem with hmem | hmem
      · exact h.prepared record (.inr hmem)
      · simp at hmem

/-- A record that waits is found. -/
theorem found {record : I} (h : Settled records log waiting) (hmem : record ∈ waiting) :
    Settled records (log ++ [.found record]) waiting := by
  refine ⟨by rw [writtenOf_found]; exact h.ordered,
    fun other hother => (h.settled other hother).imp_right .mono, fun other hlogged => ?_⟩
  rcases hlogged with hwritten | hfound
  · rw [← mem_writtenOf, writtenOf_found] at hwritten
    exact h.prepared other (.inl (mem_writtenOf.mp hwritten))
  · rcases List.mem_append.mp hfound with hold | hnew
    · exact h.prepared other (.inr hold)
    · rw [Entry.found.inj (List.mem_singleton.mp hnew)]
      exact h.ordered.subset (List.mem_append_right _ hmem)

/-- What is written or found need not wait. -/
theorem leave {less : List I} (h : Settled records log waiting) (hless : less.Sublist waiting)
    (hleft : ∀ record ∈ waiting, record ∈ less ∨ Logged log record) : Settled records log less where
  ordered := (List.Sublist.append_left hless _).trans h.ordered
  settled record hrecord := (h.settled record hrecord).elim (hleft record) .inr
  prepared := h.prepared

end Settled

/-! ## What is left out -/

section
variable {pending : Pending V I} {failed duplicates : List Nat} {existing : List (Option Bool)}

theorem length_failedIndexes_le (reasons : List Bool) :
    (failedIndexes reasons).length ≤ reasons.length := by
  have := List.length_filter_le (fun index => reasons.getD index false) (List.range reasons.length)
  rwa [List.length_range] at this

theorem mem_duplicatesOf {index : Nat} : index ∈ duplicatesOf failed existing ↔
    ∃ position : Nat, failed[position]? = some index ∧
      existing[position]? = some (some true) := by
  rw [duplicatesOf, List.mem_map]
  constructor
  · rintro ⟨⟨index', answer⟩, hmem, rfl⟩
    obtain ⟨hzip, hfound⟩ := List.mem_filter.mp hmem
    obtain ⟨position, hposition⟩ := List.mem_iff_getElem?.mp hzip
    obtain ⟨hfailed, hexisting⟩ := List.getElem?_zip_eq_some.mp hposition
    exact ⟨position, hfailed, of_decide_eq_true hfound ▸ hexisting⟩
  · rintro ⟨position, hfailed, hexisting⟩
    have hzip : (index, some true) ∈ failed.zip existing :=
      List.mem_iff_getElem?.mpr ⟨position, List.getElem?_zip_eq_some.mpr ⟨hfailed, hexisting⟩⟩
    exact ⟨_, List.mem_filter.mpr ⟨hzip, decide_eq_true rfl⟩, rfl⟩

theorem withoutDuplicates_sublist : (withoutDuplicates pending duplicates).Sublist pending := by
  have h := (List.filter_sublist (l := pending.zipIdx)
    (p := fun statement => !duplicates.contains statement.2)).map Prod.fst
  rwa [List.zipIdx_map_fst] at h

/-- A statement is sent again, unless its position is one of the duplicates. -/
theorem mem_withoutDuplicates {statement : Key V × I} (h : statement ∈ pending) :
    statement ∈ withoutDuplicates pending duplicates ∨
      ∃ index ∈ duplicates, pending[index]? = some statement := by
  obtain ⟨index, hindex⟩ := List.mem_iff_getElem?.mp h
  by_cases hmem : index ∈ duplicates
  · exact .inr ⟨index, hmem, hindex⟩
  · have hzip : (statement, index) ∈ pending.zipIdx := List.mk_mem_zipIdx_iff_getElem?.mpr hindex
    exact .inl (List.mem_map.mpr ⟨_, List.mem_filter.mpr ⟨hzip, by simp [hmem]⟩, rfl⟩)

theorem length_withoutDuplicates_lt {index : Nat} (hmem : index ∈ duplicates)
    (hlt : index < pending.length) :
    (withoutDuplicates pending duplicates).length < pending.length := by
  have hlen : pending.zipIdx.length = pending.length := List.length_zipIdx
  rw [withoutDuplicates, List.length_map, ← hlen]
  refine List.length_filter_lt_length_iff_exists.mpr ⟨(pending[index], index), ?_, by simp [hmem]⟩
  exact List.mk_mem_zipIdx_iff_getElem?.mpr (List.getElem?_eq_getElem hlt)

end

/-! ## What a run keeps -/

namespace Prepared

variable {prepared : Prepared V I R} {s t : State V I R} {action : Action V I}

/-- The statements of the batch at an offset, with their records. -/
def batch (prepared : Prepared V I R) (offset : Nat) : Pending V I :=
  (slice prepared.transactions offset).zip (slice prepared.records offset)

/-- The records that are not written yet, and not left out. -/
def waiting (prepared : Prepared V I R) : Stage V I R → List I
  | .inserting offset => prepared.records.drop offset
  | .sending offset pending | .checking offset pending _ _ =>
    pending.map Prod.snd ++ prepared.records.drop (offset + transactionBatchSize)
  | .returned _ | .thrown => []

/-- What the call knows of its answers in a stage. -/
def Known (prepared : Prepared V I R) (log : List (Entry I)) : Stage V I R → Prop
  | .inserting offset =>
    prepared.query.skipDuplicates = false ∧ offset < prepared.records.length
  | .sending _ pending => prepared.query.skipDuplicates = true ∧ pending ≠ []
  | .checking _ pending failed existing =>
    prepared.query.skipDuplicates = true ∧ pending ≠ [] ∧ failed.length ≤ pending.length ∧
      existing.length = failed.length ∧ ∀ index ∈ duplicatesOf failed existing,
        ∃ statement, pending[index]? = some statement ∧ Logged log statement.2
  | .returned result =>
    prepared.query.skipDuplicates = true → result = prepared.result (writtenOf log)
  | .thrown => True

structure Kept (prepared : Prepared V I R) (s : State V I R) : Prop where
  inserted : prepared.query.skipDuplicates = true → s.insertedRecords = writtenOf s.log
  unread : prepared.query.skipDuplicates = false → ∀ record, .found record ∉ s.log
  settled : s.stage ≠ .thrown → Settled prepared.records s.log (prepared.waiting s.stage)
  known : prepared.Known s.log s.stage

section
variable (hlen : prepared.transactions.length = prepared.records.length)
include hlen

theorem batch_records (offset : Nat) :
    (prepared.batch offset).map Prod.snd ++ prepared.records.drop (offset + transactionBatchSize) =
      prepared.records.drop offset := by
  have hslice : (prepared.batch offset).map Prod.snd = slice prepared.records offset := by
    refine List.map_snd_zip ?_
    rw [slice, slice, List.length_take, List.length_take, List.length_drop, List.length_drop, hlen]
  rw [hslice, slice, ← List.drop_drop]
  exact List.take_append_drop _ _

theorem batch_ne_nil {offset : Nat} (h : offset < prepared.records.length) :
    prepared.batch offset ≠ [] := by
  have hpos : 0 < (prepared.batch offset).length := by
    simp only [batch, slice, List.length_zip, List.length_take, List.length_drop, hlen,
      transactionBatchSize]
    omega
  exact List.ne_nil_of_length_pos hpos

theorem nextInserting_kept (hskip : prepared.query.skipDuplicates = false)
    (hunread : ∀ record, .found record ∉ s.log) {offset : Nat}
    (hsettled : Settled prepared.records s.log (prepared.records.drop offset)) :
    prepared.Kept (prepared.nextInserting s offset) := by
  rw [nextInserting]
  split
  · rename_i hlt
    exact ⟨fun h => by simp [hskip] at h, fun _ => hunread, fun _ => hsettled, hskip, hlen ▸ hlt⟩
  · rename_i hge
    rw [List.drop_eq_nil_of_le (hlen ▸ Nat.le_of_not_lt hge)] at hsettled
    exact ⟨fun h => by simp [hskip] at h, fun _ => hunread, fun _ => hsettled,
      fun h => by simp [hskip] at h⟩

theorem nextBatch_kept (hskip : prepared.query.skipDuplicates = true)
    (hinserted : s.insertedRecords = writtenOf s.log) {offset : Nat}
    (hsettled : Settled prepared.records s.log (prepared.records.drop offset)) :
    prepared.Kept (prepared.nextBatch s offset) := by
  rw [nextBatch]
  split
  · rename_i hlt
    rw [← batch_records hlen] at hsettled
    exact ⟨fun _ => hinserted, fun h => by simp [hskip] at h, fun _ => hsettled, hskip,
      batch_ne_nil hlen (hlen ▸ hlt)⟩
  · rename_i hge
    rw [List.drop_eq_nil_of_le (hlen ▸ Nat.le_of_not_lt hge)] at hsettled
    exact ⟨fun _ => hinserted, fun h => by simp [hskip] at h, fun _ => hsettled,
      fun _ => congrArg _ hinserted⟩

theorem continueBatch_kept (hskip : prepared.query.skipDuplicates = true)
    (hinserted : s.insertedRecords = writtenOf s.log) {offset : Nat} {pending : Pending V I}
    (hsettled : Settled prepared.records s.log
      (pending.map Prod.snd ++ prepared.records.drop (offset + transactionBatchSize))) :
    prepared.Kept (prepared.continueBatch s offset pending) := by
  rw [continueBatch]
  split
  · rename_i hempty
    rw [List.isEmpty_iff.mp hempty] at hsettled
    exact nextBatch_kept hlen hskip hinserted hsettled
  · rename_i hempty
    exact ⟨fun _ => hinserted, fun h => by simp [hskip] at h, fun _ => hsettled, hskip,
      mt List.isEmpty_iff.mpr hempty⟩

theorem start_kept {table : Key V → Option I} :
    prepared.Kept (prepared.start { table, stage := .thrown }) := by
  rw [start]
  split
  · rename_i hskip
    exact nextBatch_kept hlen hskip rfl .nil
  · rename_i hskip
    exact nextInserting_kept hlen (Bool.eq_false_iff.mpr hskip) (fun _ => List.not_mem_nil) .nil

end

/-! ## One step -/

variable [DecidableEq V]

/-- What one step of a call does. -/
inductive Next (prepared : Prepared V I R) (s : State V I R) :
    Action V I → State V I R → Prop
  | write (key : Key V) (item : Option I) :
    Next prepared s (.write key item) { s with table := put s.table key item }
  | thrown (action : Action V I) (hown : action.isOwn = true)
    (hlive : ∀ result, s.stage ≠ .returned result) (hthrown : s.stage ≠ .thrown) :
    Next prepared s action { s with stage := .thrown }
  | inserted (offset : Nat) (hstage : s.stage = .inserting offset) :
    Next prepared s .commit
      (prepared.nextInserting (s.commit (prepared.batch offset)) (offset + transactionBatchSize))
  | sent (offset : Nat) (pending : Pending V I) (hstage : s.stage = .sending offset pending) :
    Next prepared s .commit
      (prepared.nextBatch
        { s.commit pending with
          insertedRecords := s.insertedRecords ++ pending.map Prod.snd }
        (offset + transactionBatchSize))
  | cancelled (offset : Nat) (pending : Pending V I) (reasons : List Bool)
    (hstage : s.stage = .sending offset pending) (hlen : reasons.length = pending.length) :
    Next prepared s (.cancel reasons)
      { s with
        stage := .checking offset pending (failedIndexes reasons)
          ((failedIndexes reasons).map fun _ => none) }
  | read (offset : Nat) (pending : Pending V I) (failed : List Nat) (existing : List (Option Bool))
    (position index : Nat) (statement : Key V × I) (found : Bool)
    (hstage : s.stage = .checking offset pending failed existing)
    (hfailed : failed[position]? = some index) (hpending : pending[index]? = some statement)
    (hexisting : existing[position]? = some none) :
    Next prepared s (.read position)
      { s with
        stage := .checking offset pending failed (existing.set position (some found))
        log := if found then s.log ++ [.found statement.2] else s.log }
  | resumed (offset : Nat) (pending : Pending V I) (failed : List Nat)
    (existing : List (Option Bool)) (hstage : s.stage = .checking offset pending failed existing)
    (hduplicates : duplicatesOf failed existing ≠ []) :
    Next prepared s .resume
      (prepared.continueBatch s offset
        (withoutDuplicates pending (duplicatesOf failed existing)))

theorem next_of_step (h : prepared.step s action = some t) : Next prepared s action t := by
  cases action with
  | write key item =>
    rw [step] at h
    exact Option.some.inj h ▸ .write key item
  | commit =>
    cases hstage : s.stage with
    | inserting offset =>
      simp only [step, hstage, Option.ite_none_right_eq_some] at h
      exact Option.some.inj h.2 ▸ .inserted offset hstage
    | sending offset pending =>
      simp only [step, hstage, Option.ite_none_right_eq_some] at h
      exact Option.some.inj h.2 ▸ .sent offset pending hstage
    | checking | returned | thrown => simp [step, hstage] at h
  | cancel reasons =>
    cases hstage : s.stage with
    | inserting offset =>
      simp only [step, hstage] at h
      exact Option.some.inj h ▸ .thrown _ rfl (by simp [hstage]) (by simp [hstage])
    | sending offset pending =>
      simp only [step, hstage, Option.ite_none_right_eq_some] at h
      exact Option.some.inj h.2 ▸ .cancelled offset pending reasons hstage h.1
    | checking | returned | thrown => simp [step, hstage] at h
  | fail =>
    have hlive : (∀ result, s.stage ≠ .returned result) ∧ s.stage ≠ .thrown := by
      constructor <;> intros <;> intro hstage <;> simp [step, hstage] at h
    have ht : t = { s with stage := .thrown } := by
      cases hstage : s.stage <;> simp [step, hstage] at h <;> exact h.symm
    exact ht ▸ .thrown _ rfl hlive.1 hlive.2
  | read position =>
    cases hstage : s.stage with
    | checking offset pending failed existing =>
      simp only [step, hstage] at h
      obtain ⟨index, hfailed, h⟩ := Option.bind_eq_some_iff.mp h
      obtain ⟨statement, hpending, h⟩ := Option.bind_eq_some_iff.mp h
      simp only [ne_eq, ite_not, Option.ite_none_right_eq_some] at h
      exact Option.some.inj h.2 ▸
        .read offset pending failed existing position index statement _ hstage hfailed hpending h.1
    | inserting | sending | returned | thrown => simp [step, hstage] at h
  | resume =>
    cases hstage : s.stage with
    | checking offset pending failed existing =>
      simp only [step, hstage, Option.ite_none_right_eq_some] at h
      obtain ⟨-, h⟩ := h
      by_cases hempty : (duplicatesOf failed existing).isEmpty = true
      · rw [if_pos hempty] at h
        exact Option.some.inj h ▸ .thrown _ rfl (by simp [hstage]) (by simp [hstage])
      · rw [if_neg hempty] at h
        exact Option.some.inj h ▸
          .resumed offset pending failed existing hstage (mt List.isEmpty_iff.mpr hempty)
    | inserting | sending | returned | thrown => simp [step, hstage] at h

theorem step_kept (hlen : prepared.transactions.length = prepared.records.length)
    (h : prepared.Kept s) (hstep : prepared.step s action = some t) : prepared.Kept t := by
  cases next_of_step hstep with
  | write => exact ⟨h.inserted, h.unread, h.settled, h.known⟩
  | thrown => exact ⟨h.inserted, h.unread, fun hne => absurd rfl hne, trivial⟩
  | inserted offset hstage =>
    have hsettled := h.settled (by simp [hstage])
    have hknown := h.known
    rw [hstage] at hsettled hknown
    rw [waiting, ← batch_records hlen] at hsettled
    refine nextInserting_kept hlen hknown.1 (fun record hmem => ?_) hsettled.commit
    rcases List.mem_append.mp hmem with hmem | hmem
    · exact h.unread hknown.1 record hmem
    · simp at hmem
  | sent offset pending hstage =>
    have hsettled := h.settled (by simp [hstage])
    have hknown := h.known
    rw [hstage] at hsettled hknown
    refine nextBatch_kept hlen hknown.1 ?_ hsettled.commit
    exact (congrArg (· ++ _) (h.inserted hknown.1)).trans writtenOf_written.symm
  | cancelled offset pending reasons hstage hreasons =>
    have hsettled := h.settled (by simp [hstage])
    have hknown := h.known
    rw [hstage] at hsettled hknown
    refine ⟨h.inserted, h.unread, fun _ => hsettled, hknown.1, hknown.2,
      hreasons ▸ length_failedIndexes_le reasons, List.length_map .., fun index hindex => ?_⟩
    obtain ⟨position, -, hposition⟩ := mem_duplicatesOf.mp hindex
    exact absurd (List.mem_of_getElem? hposition) (by simp)
  | read offset pending failed existing position index statement found hstage hfailed hpending
      hexisting =>
    have hsettled := h.settled (by simp [hstage])
    have hknown := h.known
    rw [hstage] at hsettled hknown
    obtain ⟨hskip, hne, hle, hexist, hanswers⟩ := hknown
    have hmem : statement.2 ∈ prepared.waiting (.checking offset pending failed existing) :=
      List.mem_append_left _ (List.mem_map_of_mem (List.mem_of_getElem? hpending))
    have hlogged : ∀ record, Logged s.log record →
        Logged (if found then s.log ++ [.found statement.2] else s.log) record := by
      intro record hrecord
      split
      · exact hrecord.mono
      · exact hrecord
    refine ⟨fun _ => ?_, fun h => by simp [hskip] at h, fun _ => ?_, hskip, hne, hle,
      List.length_set.trans hexist, fun index' hindex => ?_⟩
    · simp only
      rw [h.inserted hskip]
      split
      · exact writtenOf_found.symm
      · rfl
    · simp only
      split
      · exact hsettled.found hmem
      · exact hsettled
    · obtain ⟨position', hfailed', hset⟩ := mem_duplicatesOf.mp hindex
      rw [List.getElem?_set] at hset
      by_cases heq : position = position'
      · subst heq
        obtain rfl := Option.some.inj (hfailed.symm.trans hfailed')
        rw [if_pos rfl] at hset
        have hfound : found = true := by grind
        exact ⟨statement, hpending, .inr (by simp [hfound])⟩
      · rw [if_neg heq] at hset
        obtain ⟨other, hother, hold⟩ := hanswers index' (mem_duplicatesOf.mpr ⟨_, hfailed', hset⟩)
        exact ⟨other, hother, hlogged other.2 hold⟩
  | resumed offset pending failed existing hstage hduplicates =>
    have hsettled := h.settled (by simp [hstage])
    have hknown := h.known
    rw [hstage] at hsettled hknown
    obtain ⟨hskip, -, -, -, hanswers⟩ := hknown
    refine continueBatch_kept hlen hskip (h.inserted hskip) (hsettled.leave ?_ ?_)
    · exact List.Sublist.append_right (withoutDuplicates_sublist.map _) _
    · intro record hrecord
      rcases List.mem_append.mp hrecord with hrecord | hrecord
      · obtain ⟨statement, hstatement, rfl⟩ := List.mem_map.mp hrecord
        rcases mem_withoutDuplicates hstatement with hleft | ⟨index, hindex, hget⟩
        · exact .inl (List.mem_append_left _ (List.mem_map_of_mem hleft))
        · obtain ⟨other, hother, hlogged⟩ := hanswers index hindex
          obtain rfl := Option.some.inj (hget.symm.trans hother)
          exact .inr hlogged
      · exact .inl (List.mem_append_right _ hrecord)

/-! ## The end of the loop -/

/-- The requests of the turn of the loop that are made. -/
def spent : Stage V I R → Nat
  | .checking _ _ _ existing => 1 + existing.countP Option.isSome
  | _ => 0

/-- What the call may still do: a turn for each record that waits, each with a
transaction, a read for each record and the end of the turn. -/
def potential (prepared : Prepared V I R) (stage : Stage V I R) : Nat :=
  (prepared.waiting stage).length * (prepared.records.length + 3) - spent stage

section
omit [DecidableEq V]

theorem spent_le (h : prepared.Kept s) : spent s.stage ≤ prepared.records.length + 1 := by
  cases hstage : s.stage with
  | checking offset pending failed existing =>
    have hsettled := h.settled (by simp [hstage])
    have hknown := h.known
    rw [hstage] at hsettled hknown
    obtain ⟨-, -, hfailed, hexisting, -⟩ := hknown
    have hcount : existing.countP Option.isSome ≤ existing.length := List.countP_le_length
    have hwaiting := hsettled.ordered.length_le
    simp only [waiting, List.length_append, List.length_map] at hwaiting
    simp only [spent]
    omega
  | inserting | sending | returned | thrown => exact Nat.zero_le _

theorem waiting_pos (h : prepared.Kept s) (hlive : ∀ result, s.stage ≠ .returned result)
    (hthrown : s.stage ≠ .thrown) : 0 < (prepared.waiting s.stage).length := by
  have hknown := h.known
  cases hstage : s.stage with
  | inserting offset =>
    rw [hstage] at hknown
    rw [waiting, List.length_drop]
    exact Nat.sub_pos_of_lt hknown.2
  | sending offset pending =>
    rw [hstage] at hknown
    rw [waiting, List.length_append, List.length_map]
    exact Nat.add_pos_left (List.length_pos_of_ne_nil hknown.2) _
  | checking offset pending =>
    rw [hstage] at hknown
    rw [waiting, List.length_append, List.length_map]
    exact Nat.add_pos_left (List.length_pos_of_ne_nil hknown.2.1) _
  | returned result => exact absurd hstage (hlive result)
  | thrown => exact absurd hstage hthrown

/-- A step after which fewer records wait. -/
theorem potential_lt {stage : Stage V I R} (h : prepared.Kept s)
    (hlt : (prepared.waiting stage).length < (prepared.waiting s.stage).length) :
    prepared.potential stage + 1 ≤ prepared.potential s.stage := by
  have hspent := spent_le h
  have hmul := Nat.mul_le_mul_right (prepared.records.length + 3) hlt
  rw [Nat.succ_mul] at hmul
  simp only [potential]
  omega

/-- A request within a turn of the loop. -/
theorem potential_lt_of_spent (h : prepared.Kept t)
    (hwaiting : prepared.waiting t.stage = prepared.waiting s.stage)
    (hpos : 0 < (prepared.waiting t.stage).length) (hspent : spent t.stage = spent s.stage + 1) :
    prepared.potential t.stage + 1 ≤ prepared.potential s.stage := by
  have hle := spent_le h
  have hmul : 1 * (prepared.records.length + 3) ≤ _ := Nat.mul_le_mul_right _ hpos
  rw [Nat.one_mul] at hmul
  simp only [potential, ← hwaiting]
  omega

section
variable (hlen : prepared.transactions.length = prepared.records.length)
include hlen

theorem waiting_nextInserting (offset : Nat) :
    prepared.waiting (prepared.nextInserting s offset).stage = prepared.records.drop offset := by
  rw [nextInserting]
  split
  · rfl
  · rename_i hge
    exact (List.drop_eq_nil_of_le (hlen ▸ Nat.le_of_not_lt hge)).symm

theorem waiting_nextBatch (offset : Nat) :
    prepared.waiting (prepared.nextBatch s offset).stage = prepared.records.drop offset := by
  rw [nextBatch]
  split
  · exact batch_records hlen offset
  · rename_i hge
    exact (List.drop_eq_nil_of_le (hlen ▸ Nat.le_of_not_lt hge)).symm

theorem waiting_continueBatch (offset : Nat) (pending : Pending V I) :
    prepared.waiting (prepared.continueBatch s offset pending).stage =
      pending.map Prod.snd ++ prepared.records.drop (offset + transactionBatchSize) := by
  rw [continueBatch]
  split
  · rename_i hempty
    rw [List.isEmpty_iff.mp hempty]
    exact waiting_nextBatch hlen _
  · rfl

theorem waiting_start {table : Key V → Option I} :
    prepared.waiting (prepared.start { table, stage := .thrown }).stage = prepared.records := by
  rw [start]
  split
  · exact waiting_nextBatch hlen 0
  · exact waiting_nextInserting hlen 0

end
end

theorem potential_step (hlen : prepared.transactions.length = prepared.records.length)
    (h : prepared.Kept s) (hstep : prepared.step s action = some t) :
    prepared.potential t.stage + (if action.isOwn then 1 else 0) ≤
      prepared.potential s.stage := by
  have ht := step_kept hlen h hstep
  cases next_of_step hstep with
  | write => exact Nat.le_refl _
  | thrown _ hown hlive hthrown =>
    rw [if_pos hown]
    exact potential_lt h (waiting_pos h hlive hthrown)
  | inserted offset hstage =>
    have hpos := waiting_pos h (by simp [hstage]) (by simp [hstage])
    refine potential_lt h ?_
    rw [waiting_nextInserting hlen, hstage]
    rw [hstage] at hpos
    simp only [waiting, List.length_drop, transactionBatchSize] at hpos ⊢
    omega
  | sent offset pending hstage =>
    have hknown := h.known
    rw [hstage] at hknown
    refine potential_lt h ?_
    rw [waiting_nextBatch hlen, hstage, waiting, List.length_append, List.length_map]
    exact Nat.lt_add_of_pos_left (List.length_pos_of_ne_nil hknown.2)
  | cancelled offset pending reasons hstage hreasons =>
    refine potential_lt_of_spent ht (by rw [hstage]; rfl) (waiting_pos ht (by simp) (by simp)) ?_
    rw [hstage]
    simp only [spent, List.countP_map]
    exact congrArg (1 + ·) (List.countP_eq_zero.mpr fun _ _ h => by cases h)
  | read offset pending failed existing position index statement found hstage hfailed hpending
      hexisting =>
    refine potential_lt_of_spent ht (by rw [hstage]; rfl) (waiting_pos ht (by simp) (by simp)) ?_
    obtain ⟨hlt, hnone⟩ := List.getElem?_eq_some_iff.mp hexisting
    rw [hstage]
    simp only [spent]
    rw [List.countP_set hlt, hnone]
    simp
    omega
  | resumed offset pending failed existing hstage hduplicates =>
    have hknown := h.known
    rw [hstage] at hknown
    obtain ⟨-, -, -, -, hanswers⟩ := hknown
    obtain ⟨index, hindex⟩ := List.exists_mem_of_ne_nil _ hduplicates
    obtain ⟨statement, hstatement, -⟩ := hanswers index hindex
    have hless := length_withoutDuplicates_lt hindex (List.getElem?_eq_some_iff.mp hstatement).1
    refine potential_lt h ?_
    rw [waiting_continueBatch hlen, hstage, waiting, List.length_append, List.length_append,
      List.length_map, List.length_map]
    exact Nat.add_lt_add_right hless _

end Prepared

/-! ## What is promised -/

section
variable [DecidableEq V] {query : InsertManyInput V I R} {transactions : List (Key V)} {records : List I}
  {log : List (Entry I)} {result : Option (List R)}

theorem distinctIds_of_complete
    (hprep : query.prepareInsertMany [] query.data = some (transactions, records))
    (hsettled : Settled records log []) (h : Complete query log result) : query.DistinctIds := by
  intro record hrecord other hother heq
  obtain ⟨first, hfirst, hlogged⟩ := h.accounted record hrecord
  obtain ⟨second, hsecond, hlogged'⟩ := h.accounted other hother
  have hsame : query.uniqueRecordId first = query.uniqueRecordId second := by
    rw [InsertManyInput.uniqueRecordId_of_key hfirst, heq,
      InsertManyInput.uniqueRecordId_of_key hsecond]
  have hone := InsertManyInput.eq_of_uniqueRecordId hprep (hsettled.prepared first hlogged)
    (hsettled.prepared second hlogged') hsame
  rw [← hfirst, ← hsecond, hone]

theorem complete_of_distinctIds
    (hprep : query.prepareInsertMany [] query.data = some (transactions, records))
    (hsettled : Settled records log [])
    (hunread : query.skipDuplicates = false → ∀ record, .found record ∉ log)
    (hresult : query.skipDuplicates = true →
      result = query.select.map fun read => (writtenOf log).map read)
    (h : query.DistinctIds) : Complete query log result := by
  have hlogged : ∀ record ∈ records, Logged log record := fun record hmem =>
    (hsettled.settled record hmem).resolve_left List.not_mem_nil
  have hsublist := InsertManyInput.sublist_prepareInsertMany hprep
  have hordered := hsettled.ordered
  rw [List.append_nil] at hordered
  refine ⟨fun record hrecord => ?_, fun hskip record hrecord => ?_, fun hskip =>
    ⟨hresult hskip, hordered.trans hsublist⟩⟩
  · obtain ⟨other, hother, heq⟩ :=
      InsertManyInput.exists_prepared hprep hrecord List.not_mem_nil
    exact ⟨other, h other (hsublist.subset hother) record hrecord heq, hlogged other hother⟩
  · obtain ⟨other, hother, heq⟩ :=
      InsertManyInput.exists_prepared hprep hrecord List.not_mem_nil
    have hfind := (InsertManyInput.find?_of_mem_prepared hprep hother).2
    refine ⟨other, ?_, (hlogged other hother).resolve_right (hunread hskip other)⟩
    rw [← hfind]
    refine List.find?_congr fun r hr => decide_eq_decide.mpr ⟨fun hkey => ?_, fun hid => ?_⟩
    · exact (InsertManyInput.uniqueRecordId_of_key hkey).trans heq.symm
    · exact h r hr record hrecord (hid.trans heq)

/-- However other writers write between its requests, what a call returns is
true of every record that it was given, if and only if no two of them have
different keys and one text. The call makes no more requests than its records
allow. -/
theorem insertMany_complete_iff {prepared : Prepared V I R}
    (hprep : prepared.query.prepareInsertMany [] prepared.query.data =
      some (prepared.transactions, prepared.records))
    (table : Key V → Option I) {actions : List (Action V I)} {s : State V I R}
    (hrun : (prepared.insertMany table).run actions (prepared.insertMany table).init = some s) :
    actions.countP Action.isOwn ≤ prepared.records.length * (prepared.records.length + 3) ∧
      ∀ result, s.stage = .returned result →
        (Complete prepared.query s.log result ↔ prepared.query.DistinctIds) := by
  have hlen := InsertManyInput.length_prepareInsertMany hprep
  have hinv : ∀ s action t, prepared.Kept s → prepared.step s action = some t → prepared.Kept t :=
    fun _ _ _ h hstep => Prepared.step_kept hlen h hstep
  have hstart : prepared.Kept (prepared.insertMany table).init := Prepared.start_kept hlen
  constructor
  · have hbound := Machine.countP_le_of_potential (M := prepared.insertMany table)
      (φ := fun s => prepared.potential s.stage) hinv
      (fun _ _ _ h hstep => Prepared.potential_step hlen h hstep) hstart hrun
    have hinit : prepared.potential (prepared.insertMany table).init.stage ≤
        prepared.records.length * (prepared.records.length + 3) := by
      rw [Prepared.potential, Prepared.insertMany, Prepared.waiting_start hlen]
      exact Nat.sub_le _ _
    exact Nat.le_trans (Nat.le_of_add_right_le hbound) hinit
  · intro result hstage
    have h := Machine.run_invariant hinv hstart hrun
    have hsettled := h.settled (by simp [hstage])
    have hknown := h.known
    rw [hstage] at hsettled hknown
    exact ⟨distinctIds_of_complete hprep hsettled,
      complete_of_distinctIds hprep hsettled h.unread hknown⟩

end

namespace Sample

/-- A table with a partition key `pk` and a sort key `sk`, both texts. -/
def query (data : List (String × String)) (skipDuplicates : Bool) :
    InsertManyInput String (String × String) (String × String) where
  data
  partitionId := Prod.fst
  sortId record := some record.2
  text := id
  prepareInsert record := some (record.1, some record.2)
  skipDuplicates
  select := some id

def prepared (data : List (String × String)) (skipDuplicates : Bool) :
    Prepared String (String × String) (String × String) :=
  match (query data skipDuplicates).prepareInsertMany [] data with
  | some (transactions, records) => ⟨query data skipDuplicates, transactions, records⟩
  | none => ⟨query data skipDuplicates, [], []⟩

/-- The first record is locked by another writer, who then inserts it, and is
left out when the other one is sent again. -/
def actions : List (Action String (String × String)) :=
  [.cancel [true, false], .write ("a", some "1") (some ("a", "1")), .read 0, .resume, .commit]

theorem two_keys : (prepared [("a", "1"), ("b", "2")] true).query.DistinctIds := by
  decide

/-- What the sample returns is true of its two records. -/
theorem skipped_complete :
    ∃ s, ((prepared [("a", "1"), ("b", "2")] true).insertMany fun _ => none).run actions
        ((prepared [("a", "1"), ("b", "2")] true).insertMany fun _ => none).init = some s ∧
      s.stage = .returned (some [("b", "2")]) ∧
      Complete (query [("a", "1"), ("b", "2")] true) s.log (some [("b", "2")]) := by
  have hrun : (((prepared [("a", "1"), ("b", "2")] true).insertMany fun _ => none).run actions
      ((prepared [("a", "1"), ("b", "2")] true).insertMany fun _ => none).init).map State.stage =
        some (.returned (some [("b", "2")])) := by
    decide
  obtain ⟨s, hs, hstage⟩ := Option.map_eq_some_iff.mp hrun
  exact ⟨s, hs, hstage,
    ((insertMany_complete_iff (by decide) _ hs).2 _ hstage).mpr two_keys⟩

/-- The second record has a key of its own, and is left out without a trace. -/
theorem one_text_for_two_keys :
    ∃ actions s, ((prepared [("a", "bc"), ("ab", "c")] false).insertMany fun _ => none).run actions
        ((prepared [("a", "bc"), ("ab", "c")] false).insertMany fun _ => none).init = some s ∧
      s.stage = .returned (some [("a", "bc")]) ∧ s.table ("ab", some "c") = none ∧
      ¬ Complete (query [("a", "bc"), ("ab", "c")] false) s.log (some [("a", "bc")]) := by
  have hrun : (((prepared [("a", "bc"), ("ab", "c")] false).insertMany fun _ => none).run
      [.commit] ((prepared [("a", "bc"), ("ab", "c")] false).insertMany fun _ => none).init).map
        (fun s => (s.stage, s.table ("ab", some "c"), s.log)) =
      some (.returned (some [("a", "bc")]), none, [.written ("a", "bc")]) := by
    decide
  obtain ⟨s, hs, heq⟩ := Option.map_eq_some_iff.mp hrun
  simp only [Prod.mk.injEq] at heq
  refine ⟨[.commit], s, hs, heq.1, heq.2.1, fun h => ?_⟩
  obtain ⟨other, hkey, hlogged⟩ := h.accounted ("ab", "c") (by decide)
  rw [heq.2.2] at hlogged
  rcases hlogged with hmem | hmem
  · obtain rfl := Entry.written.inj (List.mem_singleton.mp hmem)
    exact absurd hkey (by decide)
  · cases List.mem_singleton.mp hmem

end Sample
end Ez4.Dynamo.InsertMany

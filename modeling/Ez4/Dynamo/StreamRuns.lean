import Ez4.Dynamo.StreamOrder

/-! # The runs of the consumer

In every run whose steps keep the places, a record is handed over once, after
those before it in its shard and those of the shards above. -/
namespace Ez4.Dynamo.Stream
open Ez4.Library StreamConsumer

variable {p after : StreamConsumer} {id : ShardId} {event : StreamEvent}

/-! ## The surroundings -/

theorem IsKept.evolve (h : IsKept p) {stream : Shards} (hevolves : Evolves p.stream stream)
    (hresume : ∀ c ∈ p.openShards, resume { p with stream } c = p.resume c) :
    IsKept { p with stream } where
  isSound := h.isSound.evolve hevolves
  isStarting hstarted := (h.isStarting hstarted).evolve hevolves.grows
  isInOrder hstarted hstopped :=
    (h.isInOrder hstarted hstopped).evolve h.isSound hevolves.grows hresume

/-- Where a cursor goes on depends on the records of its shard alone. -/
theorem resume_congr {stream : Shards} {c : ShardCursor}
    (h : c.iterator = none → c.sequenceNumber = none → c.iteratorType = .latest →
      recordsOf { p with stream } c.shardId = p.recordsOf c.shardId) :
    resume { p with stream } c = p.resume c := by
  unfold resume
  cases hiterator : c.iterator with
  | some iterator => rfl
  | none =>
    unfold getShardIterator
    cases hsequence : c.sequenceNumber with
    | some sequenceNumber => rfl
    | none =>
      cases htype : c.iteratorType with
      | trimHorizon => rfl
      | latest => exact congrArg (Option.getD none ·) (h hiterator hsequence htype)

theorem isKept_addShard (h : IsKept p) {parent : Option ShardId} {stream : Shards}
    (hadd : p.stream.addShard id parent = some stream) : IsKept { p with stream } := by
  refine h.evolve (evolves_addShard hadd) fun c hc => resume_congr fun _ _ _ => ?_
  obtain ⟨hnone, -, hget⟩ := get_addShard hadd
  obtain ⟨shard, hshard⟩ := Option.isSome_iff_exists.mp
    (h.isSound.known c.shardId (h.isSound.opened c hc))
  have hne : c.shardId ≠ id := by
    intro hsame
    rw [hsame, hnone] at hshard
    cases hshard
  unfold recordsOf
  dsimp only
  rw [hget, if_neg hne]

theorem isKept_endShard (h : IsKept p) {stream : Shards} (hend : p.stream.endShard id = some stream) :
    IsKept { p with stream } := by
  refine h.evolve (evolves_endShard hend) fun c _ => resume_congr fun _ _ _ => ?_
  obtain rfl := endShard_eq hend
  exact congrArg (Option.getD · 0) (records_modify (fun _ => rfl) (.inr fun _ => rfl))

theorem isKept_appendRecord (h : IsKept p) {stream : Shards} (hok : KeepsOrder p (.appendRecord id))
    (happend : p.stream.appendRecord id = some stream) : IsKept { p with stream } := by
  refine h.evolve (evolves_appendRecord happend) fun c hc => resume_congr fun hiterator hsequence
    htype => ?_
  have hne : c.shardId ≠ id := fun hsame => hok c hc hsame ⟨hiterator, hsequence, htype⟩
  obtain ⟨shard, hshard, hopen, rfl⟩ := appendRecord_eq happend
  exact congrArg (Option.getD · 0) (records_modify (fun _ => rfl) (.inl hne))

/-! ## A step -/

theorem isKept_page (h : IsKept p) {iteratorType : ShardIteratorType} {shards : Shards}
    (htask : p.task = .describing iteratorType shards) (ids : List ShardId) :
    IsKept { p with task := .describing iteratorType (shards ++ ids.filterMap p.stream.get) } := by
  refine h.of_task (by rw [htask]; rfl) rfl (fun shard hshard => ?_) ?_ ?_
  · rcases List.mem_append.mp hshard with hshard | hshard
    · exact h.isSound.listed shard (by rw [htask]; exact hshard)
    · obtain ⟨id, -, hget⟩ := List.mem_filterMap.mp hshard
      rw [id_of_get hget]
      exact ⟨shard, hget, rfl, Nat.le_refl _, fun h => ⟨h, rfl⟩⟩
  · rw [htask]
    cases iteratorType <;> exact fun _ => id
  · rw [htask]
    cases iteratorType <;> exact id

theorem isKept_lastPage (h : IsKept p) {iteratorType : ShardIteratorType} {shards : Shards}
    (htask : p.task = .describing iteratorType shards) :
    IsKept { p with task := .opening iteratorType shards } := by
  refine h.of_task (by rw [htask]; rfl) rfl
    (fun shard hshard => h.isSound.listed shard (by rw [htask]; exact hshard)) ?_ ?_
  · rw [htask]
    cases iteratorType <;> exact fun _ => id
  · rw [htask]
    cases iteratorType <;> exact id

theorem isKept_startPoll (h : IsKept p) (htask : p.task = .waiting) : IsKept p.startPoll := by
  unfold startPoll
  split
  · exact h.of_task (by rw [htask]; rfl) rfl (fun shard hshard => by cases hshard)
      (by rw [htask]; exact fun _ h => by cases h) fun _ => rfl
  · exact h.of_task (by rw [htask]; rfl) rfl (fun shard hshard => by cases hshard)
      (by rw [htask]; exact fun _ h => by cases h) fun _ => rfl

/-- An error ends the poll, or the start. -/
theorem isKept_failRequest (h : IsKept p) (hnot : p.task.isHanding = false) :
    IsKept p.failRequest := by
  unfold failRequest
  split
  · exact h.of_task hnot rfl (fun shard hshard => by cases hshard) (fun _ _ => rfl) fun _ => rfl
  · rename_i hstarted
    have hkept : IsKept { p with discover := true, failing := true } :=
      h.of_task hnot hnot h.isSound.listed (fun _ => id) id
    exact hkept.endPoll hnot fun hnone => absurd (congrArg Option.isNone hnone) hstarted

/-- A poll that ends once the consumer is stopped. -/
theorem isKept_endPoll_of_stopped (h : IsKept p) (hstopped : p.stopped = true)
    (hstart : p.task.isOfStart = false) : IsKept p.endPoll := by
  refine ⟨⟨h.isSound.isRooted, h.isSound.known, h.isSound.nodup, h.isSound.opened,
    fun shard hshard => ?_⟩, fun hnone => ?_, fun _ hgoes => ?_⟩
  · have hnil : p.endPoll.task.shards = [] := by
      unfold endPoll
      rw [hstopped]
      rfl
    rw [hnil] at hshard
    cases hshard
  · exact absurd (hstart.symm.trans (h.isStarting hnone).task) (by decide)
  · exact absurd (hstopped.symm.trans hgoes) (by decide)

theorem isKept_stop (h : IsKept p) (hstarted : p.startedWith ≠ none) :
    IsKept { p with
      stopped := true
      task := if p.task = .waiting then .finished else p.task } := by
  refine ⟨⟨h.isSound.isRooted, h.isSound.known, h.isSound.nodup, h.isSound.opened,
    fun shard hshard => ?_⟩, fun hnone => absurd hnone hstarted, fun _ hstopped => nomatch hstopped⟩
  dsimp only at hshard
  split at hshard
  · cases hshard
  · exact h.isSound.listed shard hshard

/-- **A step that meets the condition keeps the places.** -/
theorem isKept_step (h : IsKept p) (hok : KeepsOrder p event) (hstep : p.step event = some after) :
    IsKept after := by
  cases event with
  | addShard id parent =>
    obtain ⟨stream, hadd, rfl⟩ := Option.map_eq_some_iff.mp hstep
    exact isKept_addShard h hadd
  | appendRecord id =>
    obtain ⟨stream, happend, rfl⟩ := Option.map_eq_some_iff.mp hstep
    exact isKept_appendRecord h hok happend
  | endShard id =>
    obtain ⟨stream, hend, rfl⟩ := Option.map_eq_some_iff.mp hstep
    exact isKept_endShard h hend
  | noStream =>
    dsimp only [StreamConsumer.step] at hstep
    split at hstep
    · rename_i htask
      exact Option.some.inj hstep ▸ isKept_endDiscovery h (.inl htask)
    · cases hstep
  | page ids =>
    dsimp only [StreamConsumer.step] at hstep
    split at hstep
    · rename_i htask
      exact Option.some.inj hstep ▸ isKept_page h htask ids
    · cases hstep
  | lastPage =>
    dsimp only [StreamConsumer.step] at hstep
    split at hstep
    · rename_i htask
      exact Option.some.inj hstep ▸ isKept_lastPage h htask
    · cases hstep
  | openShard =>
    dsimp only [StreamConsumer.step] at hstep
    split at hstep
    · rename_i htask
      exact Option.some.inj hstep ▸ isKept_endDiscovery h (.inr htask)
    · rename_i htask
      exact isKept_openShard h htask hok hstep
    · cases hstep
  | pollTimer =>
    obtain ⟨htask, hstep⟩ := Option.ite_none_right_eq_some.mp hstep
    exact Option.some.inj hstep ▸ isKept_startPoll h htask
  | pollNext =>
    dsimp only [StreamConsumer.step] at hstep
    split at hstep
    · rename_i htask
      obtain rfl := Option.some.inj hstep
      have hkept : IsKept { p with failing := false } :=
        h.of_task (by rw [htask]; rfl) (by rw [htask]; rfl) h.isSound.listed (fun _ => id) id
      exact hkept.endPoll (by rw [htask]; rfl) fun _ => by rw [htask]; rfl
    · rename_i htask
      split at hstep
      · exact Option.some.inj hstep ▸
          h.endPoll (by rw [htask]; rfl) fun _ => by rw [htask]; rfl
      · exact Option.some.inj hstep ▸ h.of_task (by rw [htask]; rfl) rfl
          (fun shard hshard => by cases hshard) (by rw [htask]; exact fun _ h => by cases h)
          fun _ => rfl
    · cases hstep
  | takeIterator =>
    dsimp only [StreamConsumer.step] at hstep
    split at hstep
    · rename_i htask
      exact isKept_takeIterator h htask hstep
    · cases hstep
  | getRecords answer =>
    dsimp only [StreamConsumer.step] at hstep
    split at hstep
    · rename_i htask
      exact isKept_getRecords h htask hok hstep
    · cases hstep
  | handRecord =>
    dsimp only [StreamConsumer.step] at hstep
    split at hstep
    · rename_i htask
      split at hstep
      · rename_i hlast
        subst hlast
        exact Option.some.inj hstep ▸ isKept_endRecords h htask
      · rename_i hne
        split at hstep
        · rename_i hstopped
          exact Option.some.inj hstep ▸
            isKept_endPoll_of_stopped h hstopped (by rw [htask]; rfl)
        · exact Option.some.inj hstep ▸ isKept_handRecord h htask hne
    · cases hstep
  | failRequest =>
    dsimp only [StreamConsumer.step] at hstep
    split at hstep
    · rename_i htask
      exact Option.some.inj hstep ▸ isKept_failRequest h (by rw [htask]; rfl)
    · rename_i htask
      exact Option.some.inj hstep ▸ isKept_failRequest h (by rw [htask]; rfl)
    · rename_i htask
      exact Option.some.inj hstep ▸ isKept_failRequest h (by rw [htask]; rfl)
    · cases hstep
  | stop =>
    obtain ⟨hcan, hstep⟩ := Option.ite_none_left_eq_some.mp hstep
    obtain ⟨hstarted, -⟩ := not_or.mp hcan
    exact Option.some.inj hstep ▸ isKept_stop h fun hnone => hstarted (by rw [hnone]; rfl)

/-! ## A run -/

theorem isKept_init : IsKept startStreamConsumer.init where
  isSound := {
    isRooted := fun _ _ _ h _ => nomatch h
    known := fun _ h => nomatch h
    nodup := List.nodup_nil
    opened := fun _ h => nomatch h
    listed := fun _ h => nomatch h }
  isStarting _ := {
    notStarted := rfl
    handed := rfl
    cursors := fun _ h => nomatch h
    closed := fun _ h _ => nomatch h
    task := rfl }
  isInOrder h _ := nomatch h

/-- A run whose steps all meet the condition keeps the places. -/
theorem isKept_run {events : List StreamEvent}
    (hok : startStreamConsumer.Meets KeepsOrder events startStreamConsumer.init)
    (hrun : startStreamConsumer.run events startStreamConsumer.init = some p) : IsKept p :=
  Machine.run_invariant_of_meets (fun _ _ _ => isKept_step) isKept_init hok hrun

/-- What holds when a record is handed over: it was not before, and the records since the start
that come before it in its shard were, and all those of the shards above. -/
structure StreamConsumer.HandsInOrder (p : StreamConsumer) (id : ShardId) (record : Nat) : Prop where
  once : (id, record) ∉ p.handed
  earlier : ∀ j, p.startOf id ≤ j → j < record → (id, j) ∈ p.handed
  above : ∀ ancestor, IsAncestor p.stream ancestor id →
    ∀ j, p.startOf ancestor ≤ j → j < p.recordsOf ancestor → (ancestor, j) ∈ p.handed

@[simp] theorem handed_endDiscovery (p : StreamConsumer) (iteratorType : ShardIteratorType) :
    (p.endDiscovery iteratorType).handed = p.handed := by
  cases iteratorType <;> rfl

@[simp] theorem handed_startPoll (p : StreamConsumer) : p.startPoll.handed = p.handed := by
  unfold startPoll
  split <;> rfl

@[simp] theorem handed_failRequest (p : StreamConsumer) : p.failRequest.handed = p.handed := by
  unfold failRequest
  split <;> rfl

@[simp] theorem handed_endRecords (p : StreamConsumer) (closed : Bool) (cursors : List ShardId) :
    (p.endRecords id closed cursors).handed = p.handed := by
  cases closed <;> rfl

theorem handed_openShard {iteratorType : ShardIteratorType} {shard : Shard} {shards : Shards}
    (h : p.openShard iteratorType shard shards = some after) : after.handed = p.handed := by
  unfold openShard at h
  dsimp only at h
  split at h
  · exact Option.some.inj h ▸ rfl
  · split at h
    · exact Option.some.inj h ▸ rfl
    · split at h
      · exact Option.some.inj h ▸ rfl
      · obtain ⟨now, -, rfl⟩ := Option.map_eq_some_iff.mp h
        rfl

theorem handed_takeIterator (h : p.takeIterator id = some after) : after.handed = p.handed := by
  obtain ⟨cursor, -, h⟩ := Option.bind_eq_some_iff.mp h
  obtain ⟨shard, -, h⟩ := Option.bind_eq_some_iff.mp h
  obtain ⟨-, h⟩ := Option.ite_none_left_eq_some.mp h
  exact Option.some.inj h ▸ rfl

theorem handed_getRecords {cursors : List ShardId} {answer : RecordsAnswer}
    (h : p.getRecords id cursors answer = some after) : after.handed = p.handed := by
  obtain ⟨cursor, -, h⟩ := Option.bind_eq_some_iff.mp h
  obtain ⟨shard, -, h⟩ := Option.bind_eq_some_iff.mp h
  obtain ⟨iterator, -, h⟩ := Option.bind_eq_some_iff.mp h
  obtain ⟨-, h⟩ := Option.ite_none_right_eq_some.mp h
  exact Option.some.inj h ▸ rfl

/-- Records are handed over by the loop of `pollShard` alone, one at a time. -/
theorem handed_step (hstep : p.step event = some after) :
    after.handed = p.handed ∨ ∃ shardId next last closed cursors,
      p.task = .handing shardId next last closed cursors ∧ p.stopped = false ∧
        after.handed = p.handed ++ [(shardId, next)] := by
  cases event with
  | addShard id parent =>
    obtain ⟨stream, -, rfl⟩ := Option.map_eq_some_iff.mp hstep
    exact .inl rfl
  | appendRecord id =>
    obtain ⟨stream, -, rfl⟩ := Option.map_eq_some_iff.mp hstep
    exact .inl rfl
  | endShard id =>
    obtain ⟨stream, -, rfl⟩ := Option.map_eq_some_iff.mp hstep
    exact .inl rfl
  | noStream =>
    dsimp only [StreamConsumer.step] at hstep
    split at hstep
    · exact .inl (Option.some.inj hstep ▸ handed_endDiscovery _ _)
    · cases hstep
  | page ids | lastPage =>
    dsimp only [StreamConsumer.step] at hstep
    split at hstep
    · exact .inl (Option.some.inj hstep ▸ rfl)
    · cases hstep
  | openShard =>
    dsimp only [StreamConsumer.step] at hstep
    split at hstep
    · exact .inl (Option.some.inj hstep ▸ handed_endDiscovery _ _)
    · exact .inl (handed_openShard hstep)
    · cases hstep
  | pollTimer =>
    obtain ⟨-, hstep⟩ := Option.ite_none_right_eq_some.mp hstep
    exact .inl (Option.some.inj hstep ▸ handed_startPoll _)
  | pollNext =>
    dsimp only [StreamConsumer.step] at hstep
    split at hstep
    · exact .inl (Option.some.inj hstep ▸ rfl)
    · split at hstep
      · exact .inl (Option.some.inj hstep ▸ rfl)
      · exact .inl (Option.some.inj hstep ▸ rfl)
    · cases hstep
  | takeIterator =>
    dsimp only [StreamConsumer.step] at hstep
    split at hstep
    · exact .inl (handed_takeIterator hstep)
    · cases hstep
  | getRecords answer =>
    dsimp only [StreamConsumer.step] at hstep
    split at hstep
    · exact .inl (handed_getRecords hstep)
    · cases hstep
  | handRecord =>
    dsimp only [StreamConsumer.step] at hstep
    split at hstep
    · rename_i shardId next last closed cursors htask
      split at hstep
      · exact .inl (Option.some.inj hstep ▸ handed_endRecords _ _ _)
      · split at hstep
        · exact .inl (Option.some.inj hstep ▸ rfl)
        · rename_i hgoes
          exact .inr ⟨shardId, next, last, closed, cursors, htask, eq_false_of_ne_true hgoes,
            (Option.some.inj hstep) ▸ rfl⟩
    · cases hstep
  | failRequest =>
    dsimp only [StreamConsumer.step] at hstep
    split at hstep
    · exact .inl (Option.some.inj hstep ▸ handed_failRequest _)
    · exact .inl (Option.some.inj hstep ▸ handed_failRequest _)
    · exact .inl (Option.some.inj hstep ▸ handed_failRequest _)
    · cases hstep
  | stop =>
    obtain ⟨-, hstep⟩ := Option.ite_none_left_eq_some.mp hstep
    exact .inl (Option.some.inj hstep ▸ rfl)

/-- **Until an iterator or a parent is lost, the consumer skips no record and keeps the order.** -/
theorem startStreamConsumer_inOrder {events : List StreamEvent} {record : Nat}
    (hok : startStreamConsumer.Meets KeepsOrder events startStreamConsumer.init)
    (hrun : startStreamConsumer.run events startStreamConsumer.init = some p)
    (hstep : startStreamConsumer.step p event = some after)
    (hhanded : after.handed = p.handed ++ [(id, record)]) : p.HandsInOrder id record := by
  have h := isKept_run hok hrun
  rcases handed_step hstep with hsame | ⟨shardId, next, last, closed, cursors, htask, hgoes, hnext⟩
  · exact absurd (hsame.symm.trans hhanded) (by simp)
  · obtain ⟨rfl, rfl⟩ : shardId = id ∧ next = record := by
      simpa using hnext.symm.trans hhanded
    have hstarted : p.startedWith.isSome = true := by
      cases hnone : p.startedWith with
      | some shards => rfl
      | none =>
        have hstart := (h.isStarting hnone).task
        rw [htask] at hstart
        cases hstart
    have hin := h.isInOrder hstarted hgoes
    obtain ⟨-, -, cursor, hcursor, rfl, -⟩ := hin.handing _ _ _ _ _ htask
    have hplace := hin.cursors cursor hcursor
    rw [place_of_handing htask rfl] at hplace
    refine ⟨fun hmem => Nat.lt_irrefl _ (hplace.below next hmem), hplace.upTo,
      fun ancestor hancestor j hj hlt => ?_⟩
    obtain ⟨shard, hget, -, hread⟩ := hin.ancestors cursor.shardId
      (h.isSound.opened cursor hcursor) ancestor hancestor
    rw [recordsOf_eq hget] at hlt
    exact hread j hj hlt

instance decidableKeepsOrder (p : StreamConsumer) : ∀ event, Decidable (KeepsOrder p event)
  | .appendRecord id => inferInstanceAs (Decidable (∀ c ∈ p.openShards, c.shardId = id → _))
  | .getRecords .expired => by
    unfold KeepsOrder
    exact match p.task with
    | .reading shardId _ => inferInstanceAs (Decidable (∀ c ∈ p.openShards, c.shardId = shardId → _))
    | .describing _ _ | .opening _ _ | .waiting | .polling _ | .handing _ _ _ _ _ | .finished =>
      .isTrue trivial
  | .openShard => by
    unfold KeepsOrder
    exact match p.task with
    | .opening .trimHorizon (shard :: _) =>
      inferInstanceAs (Decidable (_ ∨ ∀ parent ∈ shard.parent, parent ∈ p.knownShards))
    | .opening .latest _ | .opening .trimHorizon [] | .describing _ _ | .waiting | .polling _
    | .reading _ _ | .handing _ _ _ _ _ | .finished => .isTrue trivial
  | .addShard _ _ | .endShard _ | .noStream | .page _ | .lastPage | .pollTimer | .pollNext
  | .takeIterator | .getRecords (.records _ _) | .getRecords .notFound | .getRecords .trimmed
  | .handRecord | .failRequest | .stop => .isTrue trivial

namespace Sample

abbrev consumer : Machine StreamConsumer StreamEvent := startStreamConsumer

/-- The consumer starts from the tip of a shard. -/
def start : List StreamEvent :=
  [.addShard "root" none, .page ["root"], .lastPage, .openShard, .openShard]

def pollRoot : List StreamEvent := [.pollTimer, .pollNext]

/-- The records of a shard and of its child, with an iterator that expires in between. -/
def followed : List StreamEvent :=
  start ++ [.appendRecord "root"] ++ pollRoot ++ [.getRecords (.records 1 false), .handRecord,
    .appendRecord "root", .endShard "root", .addShard "child" (some "root"), .appendRecord "child",
    .handRecord, .pollNext] ++ pollRoot ++ [.getRecords .expired, .handRecord, .pollNext] ++
  pollRoot ++ [.takeIterator, .getRecords (.records 1 true), .handRecord, .handRecord, .pollNext,
    .pollTimer, .page ["root", "child"], .lastPage, .openShard, .openShard, .openShard, .pollNext,
    .getRecords (.records 1 false)]

/-- The consumer as it hands over its next record after a run. -/
def handsNext (events : List StreamEvent) : Option (StreamConsumer × StreamConsumer) := do
  let p ← consumer.run events consumer.init
  let after ← consumer.step p .handRecord
  some (p, after)

theorem handsNext_eq {events : List StreamEvent} {p after : StreamConsumer}
    (h : handsNext events = some (p, after)) :
    consumer.run events consumer.init = some p ∧ consumer.step p .handRecord = some after := by
  obtain ⟨p', hrun, h⟩ := Option.bind_eq_some_iff.mp h
  obtain ⟨after', hstep, h⟩ := Option.bind_eq_some_iff.mp h
  obtain ⟨rfl, rfl⟩ := Prod.mk.inj (Option.some.inj h)
  exact ⟨hrun, hstep⟩

theorem followed_isSome : (handsNext followed).isSome = true := by decide +kernel

/-- The record of the child comes after both of its parent. -/
theorem followed_inOrder : ∃ p, consumer.run followed consumer.init = some p ∧
    p.handed = [("root", 0), ("root", 1)] ∧ p.HandsInOrder "child" 0 := by
  obtain ⟨hrun, hstep⟩ := handsNext_eq (Option.some_get followed_isSome).symm
  exact ⟨_, hrun, by decide +kernel,
    startStreamConsumer_inOrder (by decide +kernel) hrun hstep (by decide +kernel)⟩

/-- The first iterator of the shard expires with a record after it, and the next one stands at
the tip. -/
def lost : List StreamEvent :=
  start ++ [.appendRecord "root"] ++ pollRoot ++ [.getRecords .expired, .handRecord, .pollNext] ++
  pollRoot ++ [.takeIterator, .appendRecord "root", .getRecords (.records 1 false)]

/-- A shard ends, its child and the child of that one come, and the last one is listed first. -/
def overtaken : List StreamEvent :=
  start ++ [.endShard "root", .addShard "child" (some "root"), .appendRecord "child",
    .endShard "child", .addShard "grandchild" (some "child"), .appendRecord "grandchild"] ++
  pollRoot ++ [.getRecords (.records 0 true), .handRecord, .pollNext, .pollTimer,
    .page ["grandchild", "child", "root"], .lastPage, .openShard, .openShard, .openShard,
    .openShard, .pollNext, .getRecords (.records 1 false)]

theorem lost_isSome : (handsNext lost).isSome = true := by decide +kernel

theorem overtaken_isSome : (handsNext overtaken).isSome = true := by decide +kernel

/-- A record is handed over and the one before it never was; and a record of a shard is handed
over before the one of its parent. -/
theorem outOfOrder :
    (∃ p after, consumer.run lost consumer.init = some p ∧
      consumer.step p .handRecord = some after ∧ after.handed = p.handed ++ [("root", 1)] ∧
      ¬ p.HandsInOrder "root" 1) ∧
    ∃ p after, consumer.run overtaken consumer.init = some p ∧
      consumer.step p .handRecord = some after ∧ after.handed = p.handed ++ [("grandchild", 0)] ∧
      ¬ p.HandsInOrder "grandchild" 0 := by
  obtain ⟨hrun, hstep⟩ := handsNext_eq (Option.some_get lost_isSome).symm
  obtain ⟨hrun', hstep'⟩ := handsNext_eq (Option.some_get overtaken_isSome).symm
  refine ⟨⟨_, _, hrun, hstep, by decide +kernel, fun h => ?_⟩,
    ⟨_, _, hrun', hstep', by decide +kernel, fun h => ?_⟩⟩
  · exact absurd (h.earlier 0 (by decide +kernel) (by decide)) (by decide +kernel)
  · have hparent : IsAncestor ((handsNext overtaken).get overtaken_isSome).1.stream "child"
        "grandchild" :=
      .parent (Option.some_get (by decide +kernel)).symm (by decide +kernel)
    exact absurd (h.above "child" hparent 0 (by decide +kernel) (by decide +kernel))
      (by decide +kernel)

end Sample

end Ez4.Dynamo.Stream

import Mathlib.Data.List.Nodup
import Ez4.Dynamo.ShardForest

/-! # The place of the consumer in a shard

An open shard is read up to one place: from the iterator of its cursor, or
where a new one would start. -/
namespace Ez4.Dynamo.Stream
open Ez4.Library StreamConsumer

namespace StreamConsumer

variable (p : StreamConsumer)

/-- The records a shard had at the start. -/
def startOf (id : ShardId) : Nat :=
  ((p.startedWith.bind (·.get id)).map (·.records)).getD 0

/-- The records of a shard. -/
def recordsOf (id : ShardId) : Nat := ((p.stream.get id).map (·.records)).getD 0

/-- Where the next iterator of a cursor starts. -/
def resume (cursor : ShardCursor) : Nat :=
  cursor.iterator.getD (getShardIterator (p.recordsOf cursor.shardId) cursor)

/-- The record of a shard that is handed over next. -/
def place (cursor : ShardCursor) : Nat :=
  match p.task with
  | .handing shardId next _ _ _ => if cursor.shardId = shardId then next else p.resume cursor
  | _ => p.resume cursor

/-- A shard that ended, with all its records since the start handed over. -/
def IsRead (id : ShardId) : Prop :=
  ∃ shard, p.stream.get id = some shard ∧ shard.ended = true ∧
    ∀ j, p.startOf id ≤ j → j < shard.records → (id, j) ∈ p.handed

/-- The records of a shard since the start are handed over up to a place, and none from it. -/
structure InPlace (cursor : ShardCursor) (place : Nat) : Prop where
  upTo : ∀ j, p.startOf cursor.shardId ≤ j → j < place → (cursor.shardId, j) ∈ p.handed
  below : ∀ j, (cursor.shardId, j) ∈ p.handed → j < place
  sequence : ∀ n, cursor.sequenceNumber = some n → place = n + 1
  first : cursor.sequenceNumber = none → cursor.iteratorType = .trimHorizon → place = 0
  within : ∃ shard, p.stream.get cursor.shardId = some shard ∧ place ≤ shard.records

end StreamConsumer

/-- The shards a discovery has still to go through. -/
def Task.shards : Task → Shards
  | .describing _ shards | .opening _ shards => shards
  | _ => []

def Task.isHanding : Task → Bool
  | .handing _ _ _ _ _ => true
  | _ => false

/-- What `startStreamConsumer` does before it returns. -/
def Task.isOfStart : Task → Bool
  | .describing .latest _ | .opening .latest _ | .finished => true
  | _ => false

/-- What is done after that. -/
def Task.isOfPoll : Task → Bool
  | .describing .latest _ | .opening .latest _ => false
  | _ => true

/-! ## What every step keeps -/

structure IsSound (p : StreamConsumer) : Prop where
  isRooted : IsRooted p.stream
  known : ∀ id ∈ p.knownShards, (p.stream.get id).isSome = true
  nodup : (p.openShards.map (·.shardId)).Nodup
  opened : ∀ c ∈ p.openShards, c.shardId ∈ p.knownShards
  listed : ∀ shard ∈ p.task.shards, ∃ now, p.stream.get shard.id = some now ∧ shard.Becomes now

/-- The consumer before `startStreamConsumer` returns. -/
structure IsStarting (p : StreamConsumer) : Prop where
  notStarted : p.startedWith = none
  handed : p.handed = []
  cursors : ∀ c ∈ p.openShards, c.sequenceNumber = none ∧ c.iteratorType = .latest ∧
    ∃ iterator shard, c.iterator = some iterator ∧ p.stream.get c.shardId = some shard ∧
      iterator ≤ shard.records
  closed : ∀ id ∈ p.knownShards, p.isOpen id = false →
    ∃ shard, p.stream.get id = some shard ∧ shard.ended = true
  task : p.task.isOfStart = true

/-- What is kept of the loop over the records of a shard. -/
structure IsHanding (p : StreamConsumer) (shardId : ShardId) (next last : Nat) (closed : Bool) :
    Prop where
  le : next ≤ last
  shard : ∃ shard, p.stream.get shardId = some shard ∧ last ≤ shard.records ∧
    (closed = true → shard.ended = true ∧ last = shard.records)
  cursor : ∃ c ∈ p.openShards, c.shardId = shardId ∧
    (closed = false → c.iterator = some last ∨ next = last ∧ p.resume c = last)

/-- The consumer after the start. -/
structure IsInOrder (p : StreamConsumer) : Prop where
  handedKnown : ∀ r ∈ p.handed, r.1 ∈ p.knownShards
  ancestors : ∀ id ∈ p.knownShards, ∀ ancestor, IsAncestor p.stream ancestor id → p.IsRead ancestor
  closed : ∀ id ∈ p.knownShards, p.isOpen id = false → p.IsRead id
  cursors : ∀ c ∈ p.openShards, p.InPlace c (p.place c)
  handing : ∀ shardId next last closed cursors, p.task = .handing shardId next last closed cursors →
    IsHanding p shardId next last closed
  task : p.task.isOfPoll = true

/-- **The consumer in any state of a run, until it is stopped.** -/
structure IsKept (p : StreamConsumer) : Prop where
  isSound : IsSound p
  isStarting : p.startedWith = none → IsStarting p
  isInOrder : p.startedWith.isSome = true → p.stopped = false → IsInOrder p

variable {p after : StreamConsumer} {id : ShardId}

/-! ## The stream grows -/

theorem recordsOf_eq {shard : Shard} (h : p.stream.get id = some shard) : p.recordsOf id = shard.records := by
  rw [recordsOf, h]
  rfl

theorem isRead_mono (h : p.IsRead id) (hgrows : Grows p.stream after.stream)
    (hstarted : after.startedWith = p.startedWith) (hhanded : p.handed ⊆ after.handed) :
    after.IsRead id := by
  obtain ⟨shard, hget, hended, hread⟩ := h
  obtain ⟨now, hnow, hbecomes⟩ := hgrows id shard hget
  obtain ⟨hended', hrecords⟩ := hbecomes.ended hended
  refine ⟨now, hnow, hended', fun j hj hlt => hhanded (hread j ?_ (hrecords ▸ hlt))⟩
  rw [startOf, ← hstarted]
  exact hj

theorem inPlace_mono {c : ShardCursor} {place : Nat} (h : p.InPlace c place)
    (hgrows : Grows p.stream after.stream) (hstarted : after.startedWith = p.startedWith)
    (hhanded : after.handed = p.handed) : after.InPlace c place where
  upTo j hj hlt := by
    rw [hhanded]
    refine h.upTo j ?_ hlt
    rw [startOf, ← hstarted]
    exact hj
  below j hmem := h.below j (hhanded ▸ hmem)
  sequence := h.sequence
  first := h.first
  within := by
    obtain ⟨shard, hget, hle⟩ := h.within
    obtain ⟨now, hnow, hbecomes⟩ := hgrows _ _ hget
    exact ⟨now, hnow, Nat.le_trans hle hbecomes.records⟩

section
variable {stream : Shards}

theorem IsSound.evolve (h : IsSound p) (hevolves : Evolves p.stream stream) :
    IsSound { p with stream } where
  isRooted := hevolves.isRooted h.isRooted
  known id hid := by
    obtain ⟨shard, hget⟩ := Option.isSome_iff_exists.mp (h.known id hid)
    obtain ⟨now, hnow, -⟩ := hevolves.grows id shard hget
    exact Option.isSome_iff_exists.mpr ⟨now, hnow⟩
  nodup := h.nodup
  opened := h.opened
  listed shard hshard := by
    obtain ⟨now, hnow, hbecomes⟩ := h.listed shard hshard
    obtain ⟨later, hlater, hbecomes'⟩ := hevolves.grows _ _ hnow
    refine ⟨later, hlater, hbecomes'.parent.trans hbecomes.parent,
      Nat.le_trans hbecomes.records hbecomes'.records, fun hended => ?_⟩
    obtain ⟨hended', hrecords⟩ := hbecomes.ended hended
    obtain ⟨hended'', hrecords'⟩ := hbecomes'.ended hended'
    exact ⟨hended'', hrecords'.trans hrecords⟩

theorem IsStarting.evolve (h : IsStarting p) (hgrows : Grows p.stream stream) :
    IsStarting { p with stream } where
  notStarted := h.notStarted
  handed := h.handed
  cursors c hc := by
    obtain ⟨hsequence, htype, iterator, shard, hiterator, hget, hle⟩ := h.cursors c hc
    obtain ⟨now, hnow, hbecomes⟩ := hgrows _ _ hget
    exact ⟨hsequence, htype, iterator, now, hiterator, hnow, Nat.le_trans hle hbecomes.records⟩
  closed id hid hopen := by
    obtain ⟨shard, hget, hended⟩ := h.closed id hid hopen
    obtain ⟨now, hnow, hbecomes⟩ := hgrows _ _ hget
    exact ⟨now, hnow, (hbecomes.ended hended).1⟩
  task := h.task

theorem place_of_resume (hresume : ∀ c ∈ p.openShards, resume { p with stream } c = p.resume c)
    {c : ShardCursor} (hc : c ∈ p.openShards) : place { p with stream } c = p.place c := by
  unfold place
  dsimp only
  split
  · split
    · rfl
    · exact hresume c hc
  · exact hresume c hc

theorem IsInOrder.evolve (h : IsInOrder p) (hsound : IsSound p) (hgrows : Grows p.stream stream)
    (hresume : ∀ c ∈ p.openShards, resume { p with stream } c = p.resume c) :
    IsInOrder { p with stream } where
  handedKnown := h.handedKnown
  ancestors id hid ancestor hancestor :=
    isRead_mono (h.ancestors id hid ancestor
      (hancestor.of_grows hgrows hsound.isRooted (hsound.known id hid)))
      hgrows rfl (List.Subset.refl _)
  closed id hid hopen := isRead_mono (h.closed id hid hopen) hgrows rfl (List.Subset.refl _)
  cursors c hc := by
    rw [place_of_resume hresume hc]
    exact inPlace_mono (h.cursors c hc) hgrows rfl rfl
  handing shardId next last closed cursors htask := by
    obtain ⟨hle, ⟨shard, hget, hlast, hended⟩, c, hc, hid, hplace⟩ :=
      h.handing shardId next last closed cursors htask
    obtain ⟨now, hnow, hbecomes⟩ := hgrows _ _ hget
    refine ⟨hle, ⟨now, hnow, Nat.le_trans hlast hbecomes.records, fun hclosed => ?_⟩,
      c, hc, hid, fun hclosed => ?_⟩
    · obtain ⟨hended, hsame⟩ := hended hclosed
      obtain ⟨hended', hrecords⟩ := hbecomes.ended hended
      exact ⟨hended', hsame.trans hrecords.symm⟩
    · rw [hresume c hc]
      exact hplace hclosed
  task := h.task

end

end Ez4.Dynamo.Stream

import Ez4.Library.Machine

/-! # The local stream consumer

`startStreamConsumer` (`local/stream.ts`) over the stream of a table. The
shards grow while the consumer waits for an answer, and an answer is that of
the moment it is given. A record is its shard and its place in it, which is
its sequence number; no record is trimmed. -/
namespace Ez4.Dynamo.Stream
open Ez4.Library

abbrev ShardId := String

/-! ## The stream -/

structure Shard where
  id : ShardId
  parent : Option ShardId
  records : Nat := 0
  ended : Bool := false
deriving DecidableEq, Repr

abbrev Shards := List Shard

namespace Shards

variable (shards : Shards)

def get (id : ShardId) : Option Shard := shards.find? (·.id = id)

/-- A root, or a child of a shard that ended. -/
def addShard (id : ShardId) (parent : Option ShardId) : Option Shards :=
  if (shards.get id).isSome then none
  else if parent.all fun parent => (shards.get parent).any (·.ended) then
    some (shards ++ [{ id := id, parent := parent }])
  else none

def modify (id : ShardId) (f : Shard → Shard) : Shards :=
  shards.map fun shard => if shard.id = id then f shard else shard

def appendRecord (id : ShardId) : Option Shards :=
  match shards.get id with
  | some shard =>
    if shard.ended then none
    else some (shards.modify id fun shard => { shard with records := shard.records + 1 })
  | none => none

def endShard (id : ShardId) : Option Shards :=
  match shards.get id with
  | some _ => some (shards.modify id fun shard => { shard with ended := true })
  | none => none

end Shards

/-! ## Cursors -/

inductive ShardIteratorType
  | latest
  | trimHorizon
deriving DecidableEq, Repr

/-- An iterator is the place of the first record it gives. -/
structure ShardCursor where
  shardId : ShardId
  iteratorType : ShardIteratorType
  sequenceNumber : Option Nat := none
  iterator : Option Nat := none
deriving DecidableEq, Repr

/-- The iterator that `getShardIterator` gets of a shard with so many records. -/
def getShardIterator (records : Nat) (cursor : ShardCursor) : Nat :=
  match cursor.sequenceNumber with
  | some sequenceNumber => sequenceNumber + 1
  | none =>
    match cursor.iteratorType with
    | .latest => records
    | .trimHorizon => 0

/-- What `GetRecords` answers. The last records of a shard that ended come without an iterator
for more. -/
inductive RecordsAnswer
  | records (count : Nat) (isLast : Bool)
  | notFound
  | trimmed
  | expired
deriving DecidableEq, Repr

/-- The answers of a shard, which stays and keeps its records. -/
def Shard.answers (shard : Shard) (iterator : Nat) : RecordsAnswer → Bool
  | .records count isLast =>
    decide (iterator + count ≤ shard.records) &&
      (!isLast || shard.ended && decide (iterator + count = shard.records))
  | .expired => true
  | .notFound | .trimmed => false

/-- What `getShardRecords` makes of an answer: the cursor, how many records, and `closed`. -/
def settleAnswer (cursor : ShardCursor) (iterator : Nat) :
    RecordsAnswer → ShardCursor × Nat × Bool
  | .records count isLast =>
    ({ cursor with iterator := if isLast then none else some (iterator + count) }, count, isLast)
  | .notFound => (cursor, 0, true)
  | .trimmed =>
    ({ cursor with iteratorType := .trimHorizon, sequenceNumber := none, iterator := none }, 0, false)
  | .expired => ({ cursor with iterator := none }, 0, false)

/-! ## The consumer -/

/-- Where the code waits. The lists are what is left of a loop. -/
inductive Task
  /-- For `DescribeTable` or a page of `DescribeStream`, with the shards listed so far. -/
  | describing (iteratorType : ShardIteratorType) (shards : Shards)
  /-- In the loop of `discoverShards`. -/
  | opening (iteratorType : ShardIteratorType) (shards : Shards)
  /-- For the next poll. -/
  | waiting
  /-- In the loop of `pollStream`. -/
  | polling (cursors : List ShardId)
  /-- For an iterator or for records. -/
  | reading (shardId : ShardId) (cursors : List ShardId)
  /-- In the loop of `pollShard`, with records from a place on. -/
  | handing (shardId : ShardId) (next last : Nat) (closed : Bool) (cursors : List ShardId)
  /-- The consumer stopped or could not start. -/
  | finished
deriving DecidableEq, Repr

/-- The consumer with its stream. The code keeps neither the shards there were when
`startStreamConsumer` returned nor the records it handed over: they are for statements only. -/
structure StreamConsumer where
  stream : Shards := []
  openShards : List ShardCursor := []
  knownShards : List ShardId := []
  discover : Bool := false
  stopped : Bool := false
  failing : Bool := false
  task : Task := .describing .latest []
  /-- The stream at the start, once there was one. -/
  startedWith : Option Shards := none
  handed : List (ShardId × Nat) := []
deriving DecidableEq, Repr

namespace StreamConsumer

variable (p : StreamConsumer)

def isOpen (id : ShardId) : Bool := p.openShards.any (·.shardId = id)

def cursor (id : ShardId) : Option ShardCursor := p.openShards.find? (·.shardId = id)

def updateCursor (cursor : ShardCursor) : StreamConsumer :=
  { p with openShards := p.openShards.map fun other =>
      if other.shardId = cursor.shardId then cursor else other }

/-- The end of `pollStream`. -/
def endPoll : StreamConsumer := { p with task := if p.stopped then .finished else .waiting }

/-- An error that is thrown, at the start or in a poll. -/
def failRequest : StreamConsumer :=
  if p.startedWith.isNone then { p with task := .finished }
  else { p with discover := true, failing := true }.endPoll

/-- What follows `discoverShards`. -/
def endDiscovery : ShardIteratorType → StreamConsumer
  | .latest => { p with startedWith := some p.stream, task := .waiting }
  | .trimHorizon =>
    { p with discover := false, task := .polling (p.openShards.map (·.shardId)) }

/-- The timer of `schedulePoll`. -/
def startPoll : StreamConsumer :=
  if p.discover || p.openShards.isEmpty then { p with task := .describing .trimHorizon [] }
  else { p with task := .polling (p.openShards.map (·.shardId)) }

/-- A turn of the loop of `discoverShards`. -/
def openShard (iteratorType : ShardIteratorType) (shard : Shard) (shards : Shards) :
    Option StreamConsumer :=
  let p := { p with task := .opening iteratorType shards }
  if p.knownShards.contains shard.id then some p
  else if shard.parent.any p.isOpen then some p
  else if iteratorType = .latest ∧ shard.ended = true then
    some { p with knownShards := p.knownShards ++ [shard.id] }
  else
    (p.stream.get shard.id).map fun now =>
      let cursor : ShardCursor := { shardId := shard.id, iteratorType }
      { p with
        knownShards := p.knownShards ++ [shard.id]
        openShards :=
          p.openShards ++ [{ cursor with iterator := some (getShardIterator now.records cursor) }] }

/-- `getShardIterator`, for a cursor without an iterator. -/
def takeIterator (shardId : ShardId) : Option StreamConsumer := do
  let cursor ← p.cursor shardId
  let shard ← p.stream.get shardId
  if cursor.iterator.isSome then none
  else some (p.updateCursor { cursor with iterator := some (getShardIterator shard.records cursor) })

/-- `GetRecords`, for a cursor with an iterator. -/
def getRecords (shardId : ShardId) (cursors : List ShardId) (answer : RecordsAnswer) :
    Option StreamConsumer := do
  let cursor ← p.cursor shardId
  let shard ← p.stream.get shardId
  let iterator ← cursor.iterator
  if shard.answers iterator answer then
    let (cursor, count, closed) := settleAnswer cursor iterator answer
    some { p.updateCursor cursor with
      task := .handing shardId iterator (iterator + count) closed cursors }
  else none

/-- `onRecord` is called, and settles. -/
def handRecord (shardId : ShardId) (next : Nat) : StreamConsumer :=
  { p with
    handed := p.handed ++ [(shardId, next)]
    openShards := p.openShards.map fun cursor =>
      if cursor.shardId = shardId then { cursor with sequenceNumber := some next } else cursor }

/-- The end of the loop of `pollShard`. -/
def endRecords (shardId : ShardId) (closed : Bool) (cursors : List ShardId) : StreamConsumer :=
  if closed then
    { p with
      openShards := p.openShards.filter (·.shardId ≠ shardId)
      discover := true
      task := .polling cursors }
  else { p with task := .polling cursors }

end StreamConsumer

inductive StreamEvent
  | addShard (id : ShardId) (parent : Option ShardId)
  | appendRecord (id : ShardId)
  | endShard (id : ShardId)
  /-- `DescribeTable` finds no stream. -/
  | noStream
  /-- A page of `DescribeStream` lists shards. -/
  | page (ids : List ShardId)
  | lastPage
  | openShard
  | pollTimer
  | pollNext
  | takeIterator
  | getRecords (answer : RecordsAnswer)
  | handRecord
  /-- A request fails. -/
  | failRequest
  | stop
deriving DecidableEq, Repr

namespace StreamConsumer

variable (p : StreamConsumer)

def step : StreamEvent → Option StreamConsumer
  | .addShard id parent => (p.stream.addShard id parent).map ({ p with stream := · })
  | .appendRecord id => (p.stream.appendRecord id).map ({ p with stream := · })
  | .endShard id => (p.stream.endShard id).map ({ p with stream := · })
  | .noStream =>
    match p.task with
    | .describing iteratorType [] => some (p.endDiscovery iteratorType)
    | _ => none
  | .page ids =>
    match p.task with
    | .describing iteratorType shards =>
      some { p with task := .describing iteratorType (shards ++ ids.filterMap p.stream.get) }
    | _ => none
  | .lastPage =>
    match p.task with
    | .describing iteratorType shards => some { p with task := .opening iteratorType shards }
    | _ => none
  | .openShard =>
    match p.task with
    | .opening iteratorType [] => some (p.endDiscovery iteratorType)
    | .opening iteratorType (shard :: shards) => p.openShard iteratorType shard shards
    | _ => none
  | .pollTimer => if p.task = .waiting then some p.startPoll else none
  | .pollNext =>
    match p.task with
    | .polling [] => some { p with failing := false }.endPoll
    | .polling (shardId :: cursors) =>
      if p.stopped then some p.endPoll else some { p with task := .reading shardId cursors }
    | _ => none
  | .takeIterator =>
    match p.task with
    | .reading shardId _ => p.takeIterator shardId
    | _ => none
  | .getRecords answer =>
    match p.task with
    | .reading shardId cursors => p.getRecords shardId cursors answer
    | _ => none
  | .handRecord =>
    match p.task with
    | .handing shardId next last closed cursors =>
      if next = last then some (p.endRecords shardId closed cursors)
      else if p.stopped then some p.endPoll
      else some { p.handRecord shardId next with
        task := .handing shardId (next + 1) last closed cursors }
    | _ => none
  | .failRequest =>
    match p.task with
    | .describing _ _ | .opening _ (_ :: _) | .reading _ _ => some p.failRequest
    | _ => none
  | .stop =>
    if p.startedWith.isNone ∨ p.stopped then none
    else some { p with stopped := true, task := if p.task = .waiting then .finished else p.task }

end StreamConsumer

/-- A consumer of a table whose stream has some shards. -/
def startStreamConsumer : Machine StreamConsumer StreamEvent where
  init := {}
  step p event := p.step event

end Ez4.Dynamo.Stream

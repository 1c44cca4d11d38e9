import Ez4.Library.Machine
import Ez4.Library.PartialMap

/-! # Inserting many records into a DynamoDB table

`prepareInsertMany` (`client/common/queries.ts`), `Table.insertMany` with
`insertSkippingDuplicates` and `getExistingRecords` (`client/table.ts`), and the
batches of `executeTransaction` (`client/common/client.ts`). Between two
requests other writers may write any item. `V` are the values of a key, `I` the
records and `R` what is returned of a record. -/
namespace Ez4.Dynamo.InsertMany
open Ez4.Library

/-- Partition and sort value. A sort value may be missing. -/
abbrev Key (V : Type) := V × Option V

/-- `Query.InsertManyInput`, with the keys and the schema of the table. -/
structure InsertManyInput (V I R : Type) where
  data : List I
  partitionId : I → V
  /-- The sort value, where it is neither undefined nor null. -/
  sortId : I → Option V
  /-- `${value}` -/
  text : V → String
  /-- `validateSchema` and `prepareInsert`: the key of the item that is inserted,
  unless a check throws. A schema may change the values that are stored. -/
  prepareInsert : I → Option (Key V)
  skipDuplicates : Bool
  /-- `getTransformedRecords` with the fields of `select`, when it is given. -/
  select : Option (I → R)

/-- What the call did to the table, or found there. The code keeps no such
list: it is for statements only. -/
inductive Entry (I : Type)
  | written (record : I)
  /-- An item of the key of the record exists. -/
  | found (record : I)
deriving DecidableEq, Repr

/-- A statement, as the key of the item that it inserts, with its record. -/
abbrev Pending (V I : Type) := List (Key V × I)

inductive Stage (V I R : Type)
  /-- Sends the batch at the offset (`executeTransaction`). -/
  | inserting (offset : Nat)
  /-- Sends what is pending of the batch at the offset (`insertSkippingDuplicates`). -/
  | sending (offset : Nat) (pending : Pending V I)
  /-- Reads the records that failed (`getExistingRecords`). -/
  | checking (offset : Nat) (pending : Pending V I) (failedIndexes : List Nat)
    (existing : List (Option Bool))
  | returned (result : Option (List R))
  | thrown
deriving DecidableEq

structure State (V I R : Type) where
  /-- The record that an item was made of. -/
  table : Key V → Option I
  stage : Stage V I R
  insertedRecords : List I := []
  log : List (Entry I) := []

variable {V I R : Type} [DecidableEq V]

namespace InsertManyInput

variable (query : InsertManyInput V I R)

def key (record : I) : Key V := (query.partitionId record, query.sortId record)

def uniqueRecordId (record : I) : String :=
  query.text (query.partitionId record) ++ ((query.sortId record).map query.text).getD ""

/-- The loop of `prepareInsertMany`: the statements and their records. -/
def prepareInsertMany (identifiers : List String) : List I → Option (List (Key V) × List I)
  | [] => some ([], [])
  | data :: rest =>
    if identifiers.contains (query.uniqueRecordId data) then prepareInsertMany identifiers rest
    else do
      let transaction ← query.prepareInsert data
      let (transactions, records) ←
        prepareInsertMany (query.uniqueRecordId data :: identifiers) rest
      some (transaction :: transactions, data :: records)

end InsertManyInput

def transactionBatchSize : Nat := 100

/-- `list.slice(offset, offset + TRANSACTION_BATCH_SIZE)` -/
def slice {α : Type} (list : List α) (offset : Nat) : List α :=
  (list.drop offset).take transactionBatchSize

/-- What the requests of a call are made from. -/
structure Prepared (V I R : Type) where
  query : InsertManyInput V I R
  transactions : List (Key V)
  records : List I

namespace Prepared

variable (prepared : Prepared V I R)

/-- The result for the records that were inserted. -/
def result (insertedRecords : List I) : Option (List R) :=
  prepared.query.select.map fun read => insertedRecords.map read

/-- The next batch of `executeTransaction`, if there is one. -/
def nextInserting (s : State V I R) (offset : Nat) : State V I R :=
  if offset < prepared.transactions.length then { s with stage := .inserting offset }
  else { s with stage := .returned (prepared.result prepared.records) }

/-- The next batch of `insertSkippingDuplicates`, if there is one. -/
def nextBatch (s : State V I R) (offset : Nat) : State V I R :=
  if offset < prepared.transactions.length then
    let pending := (slice prepared.transactions offset).zip (slice prepared.records offset)
    { s with stage := .sending offset pending }
  else { s with stage := .returned (prepared.result s.insertedRecords) }

def start (s : State V I R) : State V I R :=
  if prepared.query.skipDuplicates then prepared.nextBatch s 0 else prepared.nextInserting s 0

/-- `while (pending.length)`, with what is still pending. -/
def continueBatch (s : State V I R) (offset : Nat) (pending : Pending V I) : State V I R :=
  if pending.isEmpty then prepared.nextBatch s (offset + transactionBatchSize)
  else { s with stage := .sending offset pending }

end Prepared

/-! ## The requests -/

/-- A transaction of inserts can be made: no item has a key of it, and no two
of its statements have one key. -/
def commits (table : Key V → Option I) (pending : Pending V I) : Bool :=
  decide (pending.map Prod.fst).Nodup && pending.all fun statement => (table statement.1).isNone

def insertAll (table : Key V → Option I) (pending : Pending V I) : Key V → Option I :=
  pending.foldl (fun table statement => put table statement.1 (some statement.2)) table

/-- The state after a transaction is made. -/
def State.commit (s : State V I R) (pending : Pending V I) : State V I R :=
  { s with
    table := insertAll s.table pending
    log := s.log ++ pending.map fun statement => .written statement.2 }

/-- The positions of the reasons whose code is not `None`. -/
def failedIndexes (reasons : List Bool) : List Nat :=
  (List.range reasons.length).filter fun index => reasons.getD index false

/-- What may happen next. -/
inductive Action (V I : Type)
  /-- The transaction that is sent is made. -/
  | commit
  /-- It is cancelled, for the statements at the positions that are true. -/
  | cancel (reasons : List Bool)
  /-- A request fails for another reason. -/
  | fail
  /-- One of the reads of the failed records is made. -/
  | read (position : Nat)
  /-- All reads are made. -/
  | resume
  /-- Another writer inserts, updates or deletes an item. -/
  | write (key : Key V) (item : Option I)

/-- What the call does itself. -/
def Action.isOwn : Action V I → Bool
  | .write .. => false
  | _ => true

/-- `duplicates`: the failed positions where an item exists. -/
def duplicatesOf (failedIndexes : List Nat) (existing : List (Option Bool)) : List Nat :=
  ((failedIndexes.zip existing).filter fun read => read.2 = some true).map Prod.fst

/-- `pending.filter((_, index) => !duplicates.has(index))` -/
def withoutDuplicates (pending : Pending V I) (duplicates : List Nat) : Pending V I :=
  (pending.zipIdx.filter fun statement => !duplicates.contains statement.2).map Prod.fst

namespace Prepared

variable (prepared : Prepared V I R)

def step (s : State V I R) (action : Action V I) : Option (State V I R) :=
  match s.stage, action with
  | _, .write key item => some { s with table := put s.table key item }
  | .inserting offset, .commit =>
    let pending := (slice prepared.transactions offset).zip (slice prepared.records offset)
    if commits s.table pending then
      some (prepared.nextInserting (s.commit pending) (offset + transactionBatchSize))
    else none
  | .inserting _, .cancel _ => some { s with stage := .thrown }
  | .inserting _, .fail => some { s with stage := .thrown }
  | .sending offset pending, .commit =>
    if commits s.table pending then
      let s := s.commit pending
      some (prepared.nextBatch
        { s with insertedRecords := s.insertedRecords ++ pending.map Prod.snd }
        (offset + transactionBatchSize))
    else none
  | .sending offset pending, .cancel reasons =>
    -- there is one reason for each statement
    if reasons.length = pending.length then
      let existing := (failedIndexes reasons).map fun _ => none
      some { s with stage := .checking offset pending (failedIndexes reasons) existing }
    else none
  -- no failed positions are known, so there are no duplicates
  | .sending _ _, .fail => some { s with stage := .thrown }
  | .checking offset pending failed existing, .read position => do
    let index ← failed[position]?
    let (_, record) ← pending[index]?
    if existing[position]? ≠ some none then none
    else
      let exists_ := (s.table (prepared.query.key record)).isSome
      some { s with
        stage := .checking offset pending failed (existing.set position (some exists_))
        log := if exists_ then s.log ++ [.found record] else s.log }
  | .checking _ _ _ _, .fail => some { s with stage := .thrown }
  | .checking offset pending failed existing, .resume =>
    if existing.all Option.isSome then
      let duplicates := duplicatesOf failed existing
      if duplicates.isEmpty then some { s with stage := .thrown }
      else some (prepared.continueBatch s offset (withoutDuplicates pending duplicates))
    else none
  | _, _ => none

/-- The call, in a table that has any content when it starts. -/
def insertMany (table : Key V → Option I) : Machine (State V I R) (Action V I) where
  init := prepared.start { table, stage := .thrown }
  step := prepared.step

end Prepared

end Ez4.Dynamo.InsertMany

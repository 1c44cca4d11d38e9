import Ez4.Library.Machine
import Ez4.Library.PartialMap

/-! # Upserts of a DynamoDB table

`Table.upsertOne` with `tryInsertOne` and `tryUpdateOne` (`client/table.ts`): up
to three requests, between which other writers may write any item. A request is
atomic, and it fails when its condition does not hold: an insert on an item of
its key, an update on no item of its key that matches its filters. `K` are the
keys of a table, `I` its items, `R` the records that are returned and `V` the
values of an update. -/
namespace Ez4.Dynamo.Upsert
open Ez4.Library

/-- What `prepareUpdateOne` makes of `where` and `update`. -/
structure UpdateStatement (K I : Type) where
  key : K
  /-- The filters of `where`. -/
  matching : I → Bool
  change : I → I

/-- `Query.UpsertOneInput`, with the statements that are made of it. A builder
may throw, as on values that do not match the schema. -/
structure UpsertOneInput (K I R V : Type) where
  /-- The values of `update`, where none is undefined. -/
  update : List (String × Option V)
  previous : Bool := false
  /-- `getTransformedRecords` with the fields of `select`, when it is given. -/
  select : Option (I → R) := none
  /-- `getTransformedRecords` of `insert`, with the fields of `select`. -/
  insertRecord : R
  /-- `prepareInsertOne`: the item that is inserted, and its key. -/
  insertStatement : Option (K × I)
  /-- `prepareUpdateOne` -/
  updateStatement : Option (UpdateStatement K I)

structure UpsertOneResult (R : Type) where
  inserted : Bool
  record : Option R := none
deriving DecidableEq, Repr

/-- Where the call is. -/
inductive Stage (R : Type)
  /-- The insert alone answers. -/
  | insertOnly
  | firstUpdate
  | insert
  | secondUpdate
  | returned (result : UpsertOneResult R)
  | thrown
deriving DecidableEq, Repr

/-- What the call did to the table, or found there. The code keeps no such
list: it is for statements only. -/
inductive Entry (K I : Type)
  | inserted (key : K) (item : I)
  /-- The item of the key was changed. -/
  | updated (key : K) (item : I)
  /-- An item of the key exists already. -/
  | found (key : K) (item : I)
deriving DecidableEq, Repr

structure State (K I R : Type) where
  table : K → Option I
  stage : Stage R
  log : List (Entry K I) := []

variable {K I R V : Type} [DecidableEq K]

namespace UpsertOneInput

/-- `hasUpdateData(query.update)` -/
def hasUpdateData (query : UpsertOneInput K I R V) : Bool :=
  query.update.any fun field => field.2.isSome

def start (query : UpsertOneInput K I R V) : Stage R :=
  if query.select.isNone && !query.hasUpdateData then .insertOnly else .firstUpdate

end UpsertOneInput

/-- The request of `tryInsertOne`: whether it wrote the item, unless it threw. -/
def tryInsertOne (query : UpsertOneInput K I R V) (s : State K I R) :
    Option Bool × State K I R :=
  match query.insertStatement with
  | none => (none, s)
  | some (key, item) =>
    match s.table key with
    | none =>
      (some true,
        { s with table := put s.table key (some item), log := s.log ++ [.inserted key item] })
    | some other => (some false, { s with log := s.log ++ [.found key other] })

/-- The request of `tryUpdateOne`: `{ record }`, or nothing when no item
matches, unless it threw. -/
def tryUpdateOne (query : UpsertOneInput K I R V) (s : State K I R) :
    Option (Option (Option R)) × State K I R :=
  match query.updateStatement with
  | none => (none, s)
  | some statement =>
    match s.table statement.key with
    | none => (some none, s)
    | some item =>
      if statement.matching item then
        let current := statement.change item
        -- `RETURNING ALL OLD *` or `RETURNING ALL NEW *`
        let record := query.select.map fun read => read (if query.previous then item else current)
        (some (some record),
          { s with
            table := put s.table statement.key (some current)
            log := s.log ++ [.updated statement.key item] })
      else (some none, s)

/-- `upsertOne` from the answer of one request to the next request. -/
def request (query : UpsertOneInput K I R V) (s : State K I R) : Option (State K I R) :=
  match s.stage with
  | .insertOnly =>
    let (inserted, s) := tryInsertOne query s
    some { s with stage := match inserted with
      | none => .thrown
      | some inserted => .returned { inserted } }
  | .firstUpdate =>
    let (updated, s) := tryUpdateOne query s
    some { s with stage := match updated with
      | none => .thrown
      | some none => .insert
      | some (some record) => .returned { inserted := false, record } }
  | .insert =>
    let (inserted, s) := tryInsertOne query s
    some { s with stage := match inserted with
      | none => .thrown
      | some true =>
        .returned { inserted := true, record := query.select.map fun _ => query.insertRecord }
      | some false => .secondUpdate }
  | .secondUpdate =>
    let (updated, s) := tryUpdateOne query s
    some { s with stage := match updated with
      | none => .thrown
      -- `updated?.record`
      | some updated => .returned { inserted := false, record := updated.join } }
  | .returned _ => none
  | .thrown => none

/-- What may happen next. -/
inductive Action (K I : Type)
  | request
  /-- The request fails for another reason, after it was applied or not. -/
  | fail (applied : Bool)
  /-- Another writer inserts, updates or deletes the item of a key. -/
  | write (key : K) (item : Option I)

def step (query : UpsertOneInput K I R V) (s : State K I R) : Action K I → Option (State K I R)
  | .request => request query s
  | .fail applied => (request query s).map fun t =>
    { if applied then t else s with stage := .thrown }
  | .write key item => some { s with table := put s.table key item }

/-- The call, in a table that has any content when it starts. -/
def upsertOne (query : UpsertOneInput K I R V) (table : K → Option I) :
    Machine (State K I R) (Action K I) where
  init := { table, stage := query.start }
  step := step query

/-! ## What is reported -/

/-- What the call returned is what it did. -/
def Truthful (query : UpsertOneInput K I R V) (s : State K I R) : Prop :=
  match s.stage with
  | .returned result =>
    if result.inserted then
      ∃ key item, query.insertStatement = some (key, item) ∧ .inserted key item ∈ s.log
    else
      (∃ statement item, query.updateStatement = some statement ∧ statement.matching item = true ∧
        .updated statement.key item ∈ s.log) ∨
      query.hasUpdateData = false ∧
        ∃ key item other, query.insertStatement = some (key, item) ∧ .found key other ∈ s.log
  | _ => True

/-- The second update finds an item that matches, unless there is nothing to
update. -/
def SecondUpdateMatches (query : UpsertOneInput K I R V) (s : State K I R) : Action K I → Prop
  | .request => s.stage = .secondUpdate → query.hasUpdateData = true →
    ∀ statement, query.updateStatement = some statement →
      ∃ item, s.table statement.key = some item ∧ statement.matching item = true
  | _ => True

end Ez4.Dynamo.Upsert

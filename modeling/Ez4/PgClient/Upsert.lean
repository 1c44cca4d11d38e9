import Mathlib.Data.List.Pairwise
import Ez4.Utils.Value

/-! # Upserts

`Table.upsertOne` (`service/table.ts`), both through the one statement that
`prepareUpsertQuery` (`queries/upsert.ts`) builds and in steps, over the rows of
a table that no one else writes. What other modules make of the input is given:
the record to insert, the changes of the update, the conditions of the filters. -/
namespace Ez4.PgClient.Upsert
open Ez4.Utils

/-! ## Tables -/

/-- A row, with null or a value in each column. -/
abbrev Row (V : Type) := String → Option V

inductive IndexType
  | primary
  | secondary
  | unique
  | ttl
  deriving DecidableEq

structure TableIndex (V : Type) where
  columns : List String
  type : IndexType
  /-- `options.where`, as the rows that the index holds. -/
  predicate? : Option (Row V → Bool) := none
  nullsNotDistinct : Bool := false

variable {V P : Type}

def TableIndex.isUnique (index : TableIndex V) : Bool :=
  index.type = .primary || index.type = .unique

/-- `tryExtractUniqueIndex`: a partial index is no target of a conflict. -/
def tryExtractUniqueIndex (indexes : List (TableIndex V)) (fields : List String) :
    Option (TableIndex V) :=
  indexes.find? fun index =>
    index.isUnique && index.predicate?.isNone && index.columns.all fields.contains

section
variable [DecidableEq V]

/-- Null is equal to nothing. -/
def sqlEqual (value other : Option V) : Bool :=
  match value, other with
  | some value, some other => value = other
  | _, _ => false

/-- Two rows that a unique index does not hold together. -/
def TableIndex.clash (index : TableIndex V) (row other : Row V) : Bool :=
  index.isUnique &&
    (index.predicate?.all fun holds => holds row && holds other) &&
    index.columns.all fun column => sqlEqual (row column) (other column) ||
      index.nullsNotDistinct && (row column).isNone && (other column).isNone

def clashes (indexes : List (TableIndex V)) (row other : Row V) : Bool :=
  indexes.any fun index => index.clash row other

/-- The rows satisfy the unique indexes. -/
def Distinct (indexes : List (TableIndex V)) (rows : List (Row V)) : Prop :=
  rows.Pairwise fun row other => clashes indexes row other = false

instance (indexes : List (TableIndex V)) (rows : List (Row V)) : Decidable (Distinct indexes rows) :=
  inferInstanceAs (Decidable (List.Pairwise _ _))

end

/-! ## Filters -/

/-- A key of the filters. What is no plain value is given as the rows it holds
for: operators, groups and relations, and what is undefined. -/
inductive WhereField (V : Type)
  | value (value : Option V)
  | condition (holds : Row V → Bool)

structure WhereInput (V : Type) where
  fields : List (String × WhereField V)
  distinct : (keysOf fields).Nodup

def WhereField.holds [DecidableEq V] (column : String) (row : Row V) : WhereField V → Bool
  | .value (some other) => sqlEqual (row column) (some other)
  | .value none => (row column).isNone
  | .condition holds => holds row

/-- The rows for which all the filters hold. -/
def fieldsHold [DecidableEq V] (fields : List (String × WhereField V)) (row : Row V) : Bool :=
  fields.all fun field => field.2.holds field.1 row

/-! ## Records -/

abbrev Tables (V : Type) := String → List (Row V)

/-- A relation of the table, with what is read of each related row. -/
structure SelectRelation (V P : Type) where
  sourceTable : String
  sourceColumn : String
  /-- Whether the source index is primary or unique. -/
  single : Bool
  targetColumn : String
  read : Tables V → Row V → P

inductive SelectField (V P : Type)
  | value
  | relation (relation : SelectRelation V P)

/-- What is included of a relation: the rows of `where`, and of these the ones of
`skip` and `take`, in their `order`. -/
structure RelationInclude (V : Type) where
  filters : Row V → Bool := fun _ => true
  page : List (Row V) → List (Row V) := id

inductive Cell (V P : Type)
  | value (value : Option V)
  | object (record : Option P)
  | array (records : List P)
  deriving DecidableEq

abbrev RecordOf (V P : Type) := List (String × Cell V P)

abbrev SelectInput (V P : Type) := List (String × SelectField V P)

abbrev IncludeInput (V : Type) := String → Option (RelationInclude V)

section
variable [DecidableEq V]

/-- The related rows, as they are included. -/
def relatedRows (tables : Tables V) (include? : Option (RelationInclude V))
    (relation : SelectRelation V P) (row : Row V) : List (Row V) :=
  let rows := (tables relation.sourceTable).filter fun related =>
    sqlEqual (related relation.sourceColumn) (row relation.targetColumn)
  match include? with
  | none => rows
  | some relationIncludes =>
    let rows := rows.filter relationIncludes.filters
    if relation.single then rows else relationIncludes.page rows

/-- `getSelectFields`, and `getInsertSelectFields` when nothing is included: a
record inserted without related ones reads those that it is connected with. -/
def readField (tables : Tables V) (included : IncludeInput V) (row : Row V)
    (field : String × SelectField V P) : String × Cell V P :=
  match field.2 with
  | .value => (field.1, .value (row field.1))
  | .relation relation =>
    let records := (relatedRows tables (included field.1) relation row).map (relation.read tables)
    (field.1, if relation.single then .object records.head? else .array records)

def readRecord (tables : Tables V) (included : IncludeInput V) (select : SelectInput V P)
    (row : Row V) : RecordOf V P :=
  select.map (readField tables included row)

end

/-! ## Statements -/

inductive UpsertError
  | duplicateUniqueKey
  | missingUniqueIndex
  deriving DecidableEq

/-- `UpsertOneInput`, with what `prepareUpsertQuery` makes of its parts. -/
structure UpsertInput (V P : Type) where
  filters : WhereInput V
  previous : Bool := false
  /-- `rewritesOtherTables`, of the update. -/
  rewritesOtherTables : Bool := false
  /-- Whether the insert takes statements for related records. -/
  relationQueries : Bool := false
  /-- `getInsertRecord` -/
  insertRecord : List (String × Option V)
  /-- What the columns that the record leaves out are given. -/
  defaults : Row V := fun _ => none
  /-- `getUpdateRecord`, as the change of a row; an empty one is none. -/
  updateRecord : Option (Row V → Row V)
  select : Option (SelectInput V P) := none
  included : IncludeInput V := fun _ => none

/-- The row that the insert writes. -/
def UpsertInput.row (input : UpsertInput V P) : Row V := fun column =>
  (find input.insertRecord column).getD (input.defaults column)

/-- `INSERT … ON CONFLICT (columns)`, with the change of the existing row and its
filters, or with nothing to do. -/
structure UpsertStatement (V : Type) where
  conflictColumns : List String
  row : Row V
  update : Option ((Row V → Row V) × (Row V → Bool))

def UpsertStatement.skipsUpdate (statement : UpsertStatement V) : Bool := statement.update.isNone

section
variable [DecidableEq V]

def isConflictTarget (filters : WhereInput V) (record : List (String × Option V))
    (conflictColumns : List String) : Bool :=
  conflictColumns.all fun column =>
    match find filters.fields column with
    | some (.value (some value)) => find record column = some (some value)
    | _ => false

def getUpdateFilters (filters : WhereInput V) (conflictColumns : List String) :
    List (String × WhereField V) :=
  filters.fields.filter fun field => !conflictColumns.contains field.1

def prepareUpsertQuery (input : UpsertInput V P) (conflictColumns : List String) :
    Option (UpsertStatement V) :=
  if input.previous || input.rewritesOtherTables then none
  else if input.relationQueries then none
  else if !isConflictTarget input.filters input.insertRecord conflictColumns then none
  else some
    { conflictColumns
      row := input.row
      update := input.updateRecord.map fun update =>
        (update, fieldsHold (getUpdateFilters input.filters conflictColumns)) }

variable (indexes : List (TableIndex V))

/-- The rows are written unless a unique index is violated, which undoes the
statement. -/
def store {α : Type} (rows written : List (Row V)) (result : α) :
    Except UpsertError α × List (Row V) :=
  if Distinct indexes written then (.ok result, written) else (.error .duplicateUniqueKey, rows)

/-- Whether the row has the key of the existing one. -/
def conflictsOn (conflictColumns : List String) (row existing : Row V) : Bool :=
  conflictColumns.all fun column => sqlEqual (row column) (existing column)

/-- The row that is written, and whether it is inserted. -/
def executeUpsert (statement : UpsertStatement V) (rows : List (Row V)) :
    Except UpsertError (Option (Row V × Bool)) × List (Row V) :=
  let conflicts := conflictsOn statement.conflictColumns statement.row
  match rows.find? conflicts, statement.update with
  | none, _ => store indexes rows (rows ++ [statement.row]) (some (statement.row, true))
  | some _, none => (.ok none, rows)
  | some existing, some (update, filters) =>
    if filters existing then
      store indexes rows (rows.modify (rows.findIdx conflicts) update) (some (update existing, false))
    else (.ok none, rows)

/-- A duplicate key is tried once more. -/
def sendUpsertStatement (statement : UpsertStatement V) (rows : List (Row V)) :
    Except UpsertError (Option (Row V × Bool)) × List (Row V) :=
  match executeUpsert indexes statement rows with
  | (.error .duplicateUniqueKey, rows) => executeUpsert indexes statement rows
  | result => result

/-- `UPDATE … WHERE`, or `SELECT … WHERE` when there is nothing to change: the
first row that is written, or read. -/
def executeUpdate (input : UpsertInput V P) (rows : List (Row V)) :
    Except UpsertError (Option (Row V)) × List (Row V) :=
  let matching := fieldsHold input.filters.fields
  match input.updateRecord with
  | none => (.ok (rows.find? matching), rows)
  | some update =>
    store indexes rows (rows.map fun row => if matching row then update row else row)
      ((rows.find? matching).map update)

/-- `INSERT … ON CONFLICT DO NOTHING`, on any unique index. -/
def executeInsert (input : UpsertInput V P) (rows : List (Row V)) :
    Except UpsertError (Option (Row V)) × List (Row V) :=
  if rows.any (clashes indexes input.row) then (.ok none, rows)
  else (.ok (some input.row), rows ++ [input.row])

/-! ## `upsertOne` -/

structure UpsertResult (V P : Type) where
  record : Option (RecordOf V P)
  inserted : Bool

/-- The tables of the relations, where the table itself may be one of them. -/
abbrev Database (V : Type) := List (Row V) → Tables V

variable (database : Database V) (input : UpsertInput V P)

/-- `getUpsertResult`: a statement reads the tables as they were before it. -/
def getUpsertResult (included : IncludeInput V) (before : List (Row V)) (row : Row V)
    (inserted : Bool) : UpsertResult V P where
  record := input.select.map fun select => readRecord (database before) included select row
  inserted

/-- The attempts of `upsertOne`, of which some are left. -/
def upsertThrough (statement : UpsertStatement V) (left : Nat) (rows : List (Row V)) :
    Except UpsertError (UpsertResult V P) × List (Row V) :=
  match sendUpsertStatement indexes statement rows with
  | (.error error, written) => (.error error, written)
  | (.ok (some (row, inserted)), written) =>
    (.ok (getUpsertResult database input input.included rows row inserted), written)
  | (.ok none, written) =>
    if !statement.skipsUpdate then (.error .duplicateUniqueKey, written)
    else match left with
      | 0 => (.error .duplicateUniqueKey, written)
      | left + 1 =>
        -- `findOne`
        match written.find? (fieldsHold input.filters.fields) with
        | some existing =>
          (.ok (getUpsertResult database input input.included written existing false), written)
        | none => upsertThrough statement left written

/-- The attempts of `upsertInSteps`. Without statements for related records the
insert skips every conflict, and what it reads takes no `include`. -/
def upsertInSteps (left : Nat) (rows : List (Row V)) :
    Except UpsertError (UpsertResult V P) × List (Row V) :=
  match executeUpdate indexes input rows with
  | (.error error, written) => (.error error, written)
  | (.ok (some row), written) =>
    (.ok (getUpsertResult database input input.included rows row false), written)
  | (.ok none, written) =>
    match executeInsert indexes input written with
    | (.error error, written) => (.error error, written)
    | (.ok (some row), inserted) =>
      (.ok (getUpsertResult database input (fun _ => none) written row true), inserted)
    | (.ok none, written) =>
      match left with
      | 0 => (.error .duplicateUniqueKey, written)
      | left + 1 => upsertInSteps left written

def upsertOne (rows : List (Row V)) : Except UpsertError (UpsertResult V P) × List (Row V) :=
  match tryExtractUniqueIndex indexes (keysOf input.filters.fields) with
  | none => (.error .missingUniqueIndex, rows)
  | some uniqueIndex =>
    match prepareUpsertQuery input uniqueIndex.columns with
    | none => upsertInSteps indexes database input 1 rows
    | some statement => upsertThrough indexes database input statement 1 rows

end

end Ez4.PgClient.Upsert

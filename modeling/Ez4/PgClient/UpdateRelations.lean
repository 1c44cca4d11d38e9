import Ez4.PgClient.RelationStatement

/-! # Updates of relations

`updateOne` (`queries/update.ts`): the record that the update writes, with the
columns that hold relations, and the parts that write the related records. What
the schema makes of a value is given with it, and the filters as the rows that
they hold for. -/
namespace Ez4.PgClient.UpdateRelations
open Ez4.Utils Ez4.PgClient.Upsert Ez4.PgClient.RelationStatement

export Upsert (Row)
export RelationStatement (Part)

variable {V : Type}

inductive UpdateError
  | invalidRelationField
  | emptyRecord
  /-- What is written breaks a constraint of the tables. -/
  | refused
  deriving DecidableEq

structure UpdateInput (V : Type) where
  table : String
  /-- The relations that the table declares, by their alias. -/
  relations : List (String × Relation)
  data : SqlData V
  touch : Bool := false
  /-- `where` -/
  matching : Row V → Bool

/-! ## Records -/

/-- What is made of each column. -/
abbrev UpdateRecord (V : Type) := List (String × (Option V → Option V))

def applyRecord (record : UpdateRecord V) (row : Row V) : Row V := fun column =>
  match find record column with
  | some change => change (row column)
  | none => row column

/-- The change of a column, where there is one. -/
def columnChange : DataField V → Option (Option V → Option V)
  | .value value => some fun _ => value
  | .object fields operation => if isEmptyObject fields then none else operation

/-- A related record is named by a value. -/
def getRelationValue (fields : SqlData V) (relation : Relation) : Option (Option V) :=
  match find fields relation.relationColumn with
  | some (.value value) => some value
  | _ => none

def otherFields (fields : SqlData V) (relation : Relation) : SqlData V :=
  fields.filter fun field => field.1 ≠ relation.relationColumn

/-- The record so far, with the data that is left. -/
def getUpdateRecord (relations : List (String × Relation)) :
    SqlData V → UpdateRecord V → Except UpdateError (UpdateRecord V)
  | [], record => .ok record
  | (fieldKey, fieldValue) :: data, record =>
    match find relations fieldKey with
    | some fieldRelation =>
      match fieldValue with
      | .value _ => .error .invalidRelationField
      | .object fields _ =>
        match getRelationValue fields fieldRelation with
        | some relationValue =>
          if fieldRelation.isHolder then
            getUpdateRecord relations data
              (assign record fieldRelation.targetColumn fun _ => relationValue)
          else getUpdateRecord relations data record
        | none => getUpdateRecord relations data record
    | none =>
      match columnChange fieldValue with
      | some change => getUpdateRecord relations data (assign record fieldKey change)
      | none => getUpdateRecord relations data record

/-- The related record that is named, or the fields that are given to the related
ones. -/
def getPostRelationValue (fields : SqlData V) (relation : Relation) :
    Option (Option V) × Option (SqlData V) :=
  if isEmptyObject (otherFields fields relation) then
    (if relation.isHolder then none else getRelationValue fields relation, none)
  else (none, some fields)

/-! ## Parts -/

section
variable [DecidableEq V]

/-- Whether the row is related to the record that the update returns. -/
def joins (relation : Relation) (source : Option (Row V)) (row : Row V) : Bool :=
  source.any fun record => sqlEqual (row relation.sourceColumn) (record relation.targetColumn)

def detachPart (relation : Relation) (source : Option (Row V)) : Part V where
  table := relation.sourceTable
  write row :=
    if joins relation source row then some (Function.update row relation.sourceColumn none)
    else none

/-- Connects the named record, once for each record that `from` returns. -/
def connectPart (relation : Relation) (from? : Option (Row V)) (value : V) : Part V where
  table := relation.sourceTable
  write row := from?.bind fun record =>
    if sqlEqual (row relation.relationColumn) (some value) then
      some (Function.update row relation.sourceColumn (record relation.targetColumn))
    else none

/-- What the detached records return of the record that they were related to. -/
def detached (relation : Relation) (source : Option (Row V)) (before : Tables V) : Option (Row V) :=
  source.filter fun _ => (before relation.sourceTable).any (joins relation source)

def relationParts (relations : List (String × Relation)) (relation : Relation) (fields : SqlData V)
    (source : Option (Row V)) (before : Tables V) : Except UpdateError (List (Part V)) :=
  match getPostRelationValue fields relation with
  | (some none, _) => .ok [detachPart relation source]
  | (some (some value), _) =>
    if relation.sourceIndex = some .unique then
      .ok [detachPart relation source,
        connectPart relation (detached relation source before) value]
    else .ok [connectPart relation source value]
  | (none, some relationInput) => do
    let record ← getUpdateRecord relations relationInput []
    if record.isEmpty then throw .emptyRecord
    return [{
      table := relation.sourceTable
      write row := if joins relation source row then some (applyRecord record row) else none }]
  | (none, none) => .ok []

def preparePostUpdateRelations (input : UpdateInput V) (source : Option (Row V))
    (before : Tables V) : List (String × Relation) → Except UpdateError (List (Part V))
  | [] => .ok []
  | (targetAlias, relation) :: relations =>
    match find input.data targetAlias with
    | none => preparePostUpdateRelations input source before relations
    | some (.value _) => .error .invalidRelationField
    | some (.object fields _) => do
      let parts ← relationParts input.relations relation fields source before
      let others ← preparePostUpdateRelations input source before relations
      return parts ++ others

/-- A record with nothing to change is read instead, unless it is touched. -/
def prepareUpdateQuery (input : UpdateInput V) (before : Tables V) :
    Except UpdateError (List (Part V)) := do
  let updateRecord ← getUpdateRecord input.relations input.data []
  let hasRecord := !updateRecord.isEmpty || input.touch
  let source := ((before input.table).find? input.matching).map (applyRecord updateRecord)
  let postUpdateQueries ← preparePostUpdateRelations input source before input.relations
  return {
    table := input.table
    write row :=
      if input.matching row && hasRecord then some (applyRecord updateRecord row) else none
  } :: postUpdateQueries

/-- What an update may come to. The constraints of the tables accept what it
writes or refuse it; a foreign key that would carry a change on refuses it too. -/
def Updates (accepts : Tables V → Tables V → Bool) (input : UpdateInput V) (before : Tables V)
    (result : Except UpdateError (Tables V)) : Prop :=
  match prepareUpdateQuery input before with
  | .error error => result = .error error
  | .ok parts => ∃ after, Outcome parts before after ∧
      result = if accepts before after then .ok after else .error .refused

end

end Ez4.PgClient.UpdateRelations

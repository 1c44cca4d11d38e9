import Ez4.Migration.Changes
import Ez4.Migration.Catalog

/-! # The statements of a migration

The statements on tables and columns that `getUpdateStepQueries` spreads over
the three steps (`service/queries.ts`, `queries/tables.ts`,
`queries/columns.ts`), in the order `getStepStatements` runs them. The
statements on constraints, indexes, relations and triggers leave the tables
and columns as they are, and are not part of this model. -/

namespace Ez4.Migration
open Ez4.Library Ez4.Utils

/-- `getTimestampColumns` -/
def getTimestampColumns (timestamps : Option TableTimestamps) : List String :=
  match timestamps with
  | some t => t.created.toList ++ t.updated.toList
  | none => []

/-- `indexes[column]?.type === Index.Primary` -/
def columnIsPrimary (indexes : Record TableIndex) (column : String) : Bool :=
  match indexes.find column with
  | some index => index.type == .primary
  | none => false

/-- A column as it is created with its table, or added to it. -/
def columnDefinition (indexes : Record TableIndex) (timestamps : Option TableTimestamps)
    (column : String × AnySchema) : ColumnDefinition where
  name := column.1
  type := getColumnType column.2 (columnIsPrimary indexes column.1)
  required := !isOptionalColumn column.2
  default := getColumnDefault column.2 (columnIsPrimary indexes column.1)
    (column.1 ∈ getTimestampColumns timestamps)

namespace TableQuery

def prepareCreate (table : String) (schema : ObjectSchema) (indexes : Record TableIndex)
    (timestamps : Option TableTimestamps) : Statement where
  query := .createTable table (schema.properties.values.map (columnDefinition indexes timestamps))

def prepareRename (fromTable toTable : String) : Statement where
  query := .renameTable fromTable toTable

def prepareDelete (table : String) : Statement where
  query := .dropTable table

end TableQuery

/-! ## Changes of a column -/

/-- `change?.[key]` of the changes of a column, where `update` may also hold
the changes of an array. -/
def updated (c : ObjectComparison) (key : String) : Value :=
  match find c.update key with
  | some (.value v) => v
  | some (.array _) | some (.object _) => .obj []
  | none => .undefined

/-- `[create, update, remove]`, each as what it holds under a key. -/
def attributeChanges (c : ObjectComparison) (key : String) : List Value :=
  [get c.create key, updated c key, get c.remove key]

/-- `definitions?.[key]` -/
def definition (definitions : Value) (key : String) : Value :=
  match definitions with
  | .obj fields => get fields key
  | _ => .undefined

/-- `definitionChanges`, each as what it holds under a key. -/
def definitionChanges (c : ObjectComparison) (key : String) : List Value :=
  (attributeChanges c "definitions").map (definition · key) ++
    match find c.nested "definitions" with
    | some d =>
      [get d.create key, updated d key, get d.remove key,
        if (find d.nested key).isSome then .obj [] else .undefined]
    | none => []

def hasTypeChanged (c : ObjectComparison) : Bool :=
  (attributeChanges c "type").any Value.truthy || (attributeChanges c "format").any Value.truthy

/-- `isNotNullish(change?.optional ?? change?.nullable)` for one of the changes. -/
def hasNullityChanged (c : ObjectComparison) : Bool :=
  (attributeChanges c "optional").any (!·.isNullish) ||
    (attributeChanges c "nullable").any (!·.isNullish)

def hasDefaultChanged (c : ObjectComparison) : Bool :=
  (definitionChanges c "default").any (!·.isUndefined)

def hasLengthChanged (c : ObjectComparison) : Bool :=
  (definitionChanges c "maxLength").any Value.isAnyNumber

/-- Whether the default is among what the column lost. -/
def isDefaultRemoved (c : ObjectComparison) : Bool :=
  !(definition (get c.remove "definitions") "default").isUndefined ||
    match find c.nested "definitions" with
    | some d => !(get d.remove "default").isUndefined
    | none => false

/-- `columnType.startsWith('varchar(')` -/
def ColumnType.isVarchar : ColumnType → Bool
  | varchar _ => true
  | _ => false

namespace ColumnQuery

def prepareCreate (table : String) (indexes : Record TableIndex)
    (columns : List (String × AnySchema)) (timestamps : Option TableTimestamps) : Statement where
  query := .addColumns table (columns.map (columnDefinition indexes timestamps))

/-- The clauses of the statement that updates a column. -/
def alteration (indexes : Record TableIndex) (timestamps : Option TableTimestamps)
    (columnName : String) (columnSchema : AnySchema) (changes : ObjectComparison) :
    ColumnAlteration :=
  let isPrimary := columnIsPrimary indexes columnName
  let isTimestamp := columnName ∈ getTimestampColumns timestamps
  { type :=
      if hasTypeChanged changes || hasLengthChanged changes then
        let columnType := getColumnType columnSchema false
        some (columnType, !columnType.isVarchar)
      else none
    optional :=
      if !isPrimary && hasNullityChanged changes then some (isOptionalColumn columnSchema)
      else none
    default :=
      if hasDefaultChanged changes then
        if isDefaultRemoved changes && !isTimestamp then some none
        else (getColumnDefault columnSchema isPrimary isTimestamp).map some
      else none }

/-- The statements that update the columns of `changes`; each is a column of
the schema. -/
def prepareUpdate (table : String) (schema : ObjectSchema) (indexes : Record TableIndex)
    (changes : List (String × ObjectComparison)) (timestamps : Option TableTimestamps) :
    List Statement :=
  changes.filterMap fun (columnName, columnChanges) =>
    (schema.properties.find columnName).bind fun columnSchema =>
      let a := alteration indexes timestamps columnName columnSchema columnChanges
      if a.empty then none
      else some ⟨some (.columnMissing table columnName), .alterColumn table columnName a⟩

def prepareRename (table : String) (changes : List (String × String)) : List Statement :=
  changes.map fun (fromColumn, toColumn) =>
    ⟨some (.columnMissing table fromColumn), .renameColumn table fromColumn toColumn⟩

def prepareDelete (table : String) (columns : List String) : Statement where
  query := .dropColumns table columns

end ColumnQuery

/-! ## The steps -/

/-- `PgMigrationSteps`, as the table statements of each step. -/
structure MigrationSteps where
  prepare : List Statement := []
  rollout : List Statement := []
  cleanup : List Statement := []

inductive MigrationError
  /-- `MigrationTimestampsError`: a rename that moves a timestamp column. -/
  | timestampRenamed (table fromColumn toColumn : String)
deriving DecidableEq

/-- `TimestampQuery.validateRenames` -/
def validateRenames (table : String) (source target : Option TableTimestamps)
    (renames : List (String × String)) : Except MigrationError Unit :=
  renames.forM fun (fromColumn, toColumn) =>
    if fromColumn ∈ getTimestampColumns source ∨ toColumn ∈ getTimestampColumns target then
      throw (.timestampRenamed table fromColumn toColumn)
    else pure ()

/-- The schemas a repository declares for the columns created. A comparison
holds them as objects; the target has them under the same names. -/
def declared (schema : ObjectSchema) (columns : Fields) : List (String × AnySchema) :=
  schema.properties.values.filter fun f => f.1 ∈ keysOf columns

/-- `tableChanges.schema?.nested?.properties` -/
def columnChanges (tableChanges : ObjectComparison) : ObjectComparison :=
  ((find tableChanges.nested "schema").bind fun schema => find schema.nested "properties").getD
    ObjectComparison.none

/-- The statements on the columns of a table changed. It is created under the
name the source has for it, and goes by the key of the target from then on. -/
def columnSteps (table : String) (target source : TableMetadata) (c : ObjectComparison) :
    MigrationSteps where
  prepare :=
    if c.create = [] then []
    else [ColumnQuery.prepareCreate source.name target.indexes (declared target.schema c.create)
      target.timestamps]
  rollout :=
    ColumnQuery.prepareRename table c.rename ++
      ColumnQuery.prepareUpdate table target.schema target.indexes c.nested target.timestamps
  cleanup := if c.remove = [] then [] else [ColumnQuery.prepareDelete table (keysOf c.remove)]

/-- The body of the loop over the tables changed. -/
def tableSteps (target : TableRepository) (changes : TableRepositoryChanges) (table : String)
    (tableChanges : ObjectComparison) : Except MigrationError MigrationSteps :=
  match target.find table, changes.source.find table with
  | some targetTable, some sourceTable => do
    let c := columnChanges tableChanges
    validateRenames table sourceTable.timestamps targetTable.timestamps c.rename
    pure (columnSteps table targetTable sourceTable c)
  | _, _ => pure {}

/-- `combineSteps` -/
def combineSteps (target source : MigrationSteps) : MigrationSteps where
  prepare := target.prepare ++ source.prepare
  rollout := target.rollout ++ source.rollout
  cleanup := target.cleanup ++ source.cleanup

/-- `getUpdateStepQueries` -/
def getUpdateStepQueries (target source : TableRepository) : Except MigrationError MigrationSteps := do
  let changes := getTableRepositoryChanges target source
  let created := target.values.filter fun f => f.1 ∈ keysOf changes.changes.create
  let removed := changes.source.values.filter fun f => f.1 ∈ keysOf changes.changes.remove
  let steps : MigrationSteps :=
    { prepare := created.map fun (_, t) =>
        TableQuery.prepareCreate t.name t.schema t.indexes t.timestamps
      rollout := changes.changes.rename.map fun (fromTable, toTable) =>
        TableQuery.prepareRename fromTable toTable }
  let steps ← changes.changes.nested.foldlM (fun steps (table, tableChanges) =>
    combineSteps steps <$> tableSteps target changes table tableChanges) steps
  pure { steps with cleanup := steps.cleanup ++ removed.map fun (_, t) => TableQuery.prepareDelete t.name }

/-- `prepare`, then `rollout`, then `cleanup`. -/
def MigrationSteps.statements (steps : MigrationSteps) : List Statement :=
  steps.prepare ++ steps.rollout ++ steps.cleanup

end Ez4.Migration

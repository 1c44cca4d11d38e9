import Ez4.Migration.Repository
import Ez4.Utils.Naming

/-! # Changes between two repositories

`utils/repository.ts`: declared renames align the source with the target
before the two are compared, and the renames left undeclared are guessed from
the names. -/

namespace Ez4.Migration
open Ez4.Library Ez4.Utils

/-! ## What may be a rename -/

/-- `isObjectWith` -/
def isObjectWith (object : Fields) (properties : List String) : Bool :=
  properties.all fun property => !(get object property).isNullish

def isTableMetadata (input : Fields) : Bool :=
  isObjectWith input ["name", "indexes", "relations", "schema"]

def isTableIndex (input : Fields) : Bool := isObjectWith input ["name", "columns", "type"]

/-- The texts of `SchemaType`. -/
def schemaTypes : List SchemaType :=
  [.boolean, .number, .string, .object, .reference, .union, .array, .tuple, .enum]

def isAnySchema (schema : Fields) : Bool :=
  match get schema "type" with
  | .str type => schemaTypes.any fun t => t.text == type
  | _ => false

/-- `Object.keys(schema.properties)` -/
def propertyKeys (schema : Value) : List String :=
  match schema with
  | .obj schema =>
    match get schema "properties" with
    | .obj properties => keysOf properties
    | _ => []
  | _ => []

def canRenameTable (target source : Value) : Bool :=
  let targetColumns := propertyKeys target
  let sourceColumns := propertyKeys source
  if targetColumns ≠ [] ∧ sourceColumns ≠ [] then
    let keptColumns := sourceColumns.filter (· ∈ targetColumns)
    decide (sourceColumns.length ≤ keptColumns.length * 2)
  else true

/-- `options ?? {}` -/
def orEmpty (value : Value) : Value := if value.isNullish then .obj [] else value

/-- A rename keeps the index as it is built. -/
def canRenameIndex (target source : Fields) : Bool :=
  (get target "type").strictEq (get source "type") &&
    deepEqual {} (get target "columns") (get source "columns") == some true &&
    deepEqual { selection := .excluding [("name", .flag true)] } (orEmpty (get target "options"))
      (orEmpty (get source "options")) == some true

def canRenameColumn (target source : Fields) : Bool :=
  deepEqualObject
    { depth := some 1
      selection := .including
        [("type", .flag true), ("definitions", .flag true), ("nullable", .flag true),
          ("format", .flag true)] }
    target source

/-- `onCompareName`: the names share a word of more than one letter. -/
def sharesWord (target source : String) : Bool :=
  (snakeWords source).any fun word => decide (1 < word.length) && decide (word ∈ snakeWords target)

/-- `onRename` -/
def canRename : Value → Value → Bool
  | .obj target, .obj source =>
    if isTableMetadata target && isTableMetadata source then
      canRenameTable (get target "schema") (get source "schema")
    else if isTableIndex target && isTableIndex source then canRenameIndex target source
    else if isAnySchema target && isAnySchema source then canRenameColumn target source
    else false
  | _, _ => false

/-- The options of the comparison of two repositories. -/
def repositoryOptions : CompareOptions where
  onCompareName := some sharesWord
  onRename := some canRename

/-- `getRepositoryChanges` -/
def getRepositoryChanges (target source : TableRepository) : ObjectComparison :=
  deepCompareObject repositoryOptions (withoutRenames target) (withoutRenames source)

/-! ## Declared renames -/

/-- `renamedFrom?.columns ?? {}`, as entries. -/
def declaredColumns (target : TableMetadata) : List (String × String) :=
  match target.renamedFrom.bind (·.columns) with
  | some columns => columns.values
  | none => []

/-- The declared column renames a source table hasn't gone through yet, from
the previous name to the new one; none are `undefined`. -/
def getColumnRenames (target source : TableMetadata) : List (String × String) :=
  (declaredColumns target).foldl (fun renames (column, previousColumn) =>
    if source.columns.has previousColumn && !source.columns.has column then
      assign renames previousColumn column
    else renames) []

/-- `properties[to] = properties[from]; delete properties[from]` -/
def renameColumn (properties : Record AnySchema) (rename : String × String) : Record AnySchema :=
  match properties.find rename.1 with
  | some schema => (properties.set (rename.2, schema)).erase rename.1
  | none => properties.erase rename.1

def renameColumns (table : TableMetadata) (renames : List (String × String)) : TableMetadata :=
  { table with
    schema := { table.schema with properties := renames.foldl renameColumn table.columns } }

/-- `{ ...object, ...other }` -/
def spread {α : Type} (object other : List (String × α)) : List (String × α) :=
  other.foldl (fun object f => assign object f.1 f.2) object

def ObjectComparison.none : ObjectComparison := ⟨0, [], [], [], [], []⟩

/-- Adds renames to the comparison at the given path, counting each level it
creates as a change of its parent. -/
def addRenames (comparison : Option ObjectComparison) (path : List String)
    (renames : List (String × String)) : ObjectComparison :=
  let current := comparison.getD ObjectComparison.none
  if renames = [] then current
  else
    match path with
    | [] =>
      { current with
        counts := current.counts + renames.length
        rename := spread current.rename renames }
    | key :: nestedPath =>
      let nested := find current.nested key
      { current with
        counts := current.counts + if nested.isSome then 0 else 1
        nested := assign current.nested key (addRenames nested nestedPath renames) }

/-! ## The changes -/

/-- The source once the declared renames are made, and the renames. -/
structure Alignment where
  source : TableRepository
  tableRenames : List (String × String) := []
  columnRenames : List (String × List (String × String)) := []

/-- The body of the loop over the tables of the target. -/
def Alignment.step (source : TableRepository) (a : Alignment) (table : String)
    (target : TableMetadata) : Alignment :=
  let a :=
    match target.renamedFrom.bind (·.table) with
    | some previousTable =>
      match source.find previousTable with
      | some metadata =>
        if previousTable ≠ "" ∧ !source.has table then
          { a with
            tableRenames := assign a.tableRenames previousTable table
            source := (a.source.set (table, metadata)).erase previousTable }
        else a
      | none => a
    | none => a
  match a.source.find table with
  | some sourceTable =>
    let renames := getColumnRenames target sourceTable
    if renames = [] then a
    else
      { a with
        columnRenames := assign a.columnRenames table renames
        source := a.source.set (table, renameColumns sourceTable renames) }
  | none => a

/-- Declared renames align the source with the target. -/
def alignSource (target source : TableRepository) : Alignment :=
  target.values.foldl (fun a (table, metadata) => a.step source table metadata) { source }

/-- The variables of the loop over the tables renamed. -/
structure Normalization where
  source : TableRepository
  nested : List (String × ObjectComparison)
  columnRenames : List (String × List (String × String))

/-- The body of the loop: a table with a guessed rename is compared again
under its new name. -/
def Normalization.step (target source : TableRepository) (n : Normalization)
    (rename : String × String) : Normalization :=
  match target.find rename.2, source.find rename.1 with
  | some targetTable, some fromTable =>
    let renames := getColumnRenames targetTable fromTable
    let sourceTable := if renames = [] then fromTable else renameColumns fromTable renames
    let columnRenames :=
      if renames = [] then n.columnRenames else assign n.columnRenames rename.2 renames
    let changes :=
      getRepositoryChanges ((∅ : TableRepository).set (rename.2, targetTable))
        ((∅ : TableRepository).set (rename.2, sourceTable))
    { source := (n.source.set (rename.2, sourceTable)).erase rename.1
      columnRenames
      nested :=
        match find changes.nested rename.2 with
        | some renamedChanges => assign n.nested rename.2 renamedChanges
        | none => n.nested }
  | _, _ => n

/-- The changes of a repository, with the source under its new names. -/
structure TableRepositoryChanges where
  changes : ObjectComparison
  source : TableRepository

def getTableRepositoryChanges (target source : TableRepository) : TableRepositoryChanges :=
  let aligned := alignSource target source
  let changes := getRepositoryChanges target aligned.source
  let n := changes.rename.foldl (Normalization.step target source)
    ⟨aligned.source, changes.nested, aligned.columnRenames⟩
  let allChanges := addRenames (some { changes with nested := n.nested }) [] aligned.tableRenames
  { changes := n.columnRenames.foldl (fun allChanges (table, renames) =>
      addRenames (some allChanges) [table, "schema", "properties"] renames) allChanges
    source := n.source }

end Ez4.Migration

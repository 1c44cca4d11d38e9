import Ez4.Migration.Columns
import Ez4.Library.Utf16
import Ez4.Utils.Naming

/-! # Validation of a repository

`validateRepository` (`service/validation.ts`), with the names it compares. It
throws the first of its errors. -/

/-! ## Names of objects

The names the migration gives to indexes and constraints (`utils/naming.ts`).
A name that is cut may end with a half of a character, so it is a list of
UTF-16 units there. -/

namespace Ez4.Migration
open Ez4.Library.Utf16 Ez4.Utils

/-- Postgres truncates a longer identifier to this size (in bytes). -/
def maxNameSize : Nat := 63

/-- None when the loop never ends: an empty name is longer than a negative size. -/
def clipName (name : List Nat) (size : Int) : Option (List Nat) :=
  if size < 0 then none else some (clip size.toNat name.length name)

/-- The name as Postgres stores it. -/
def getStoredName (name : String) : List Nat :=
  let name := units name.toList
  clip maxNameSize name.length name

/-- The parts before and after the last underscore, which starts the second one. A name
without one is all in the second. -/
def splitName (name : List Char) : List Char × List Char :=
  let lastPart := name.reverse.takeWhile (· ≠ '_')
  name.splitAt (name.length - (lastPart.length + 1))

/-- The end of the temporary name of a long name, from the underscore of its hash. -/
def temporaryMarker (hashData : String → String) (name : String) (suffix : List Char) : List Char :=
  '_' :: (hashData name).toList.take 8 ++ "_tmp".toList ++ suffix

/-- The name an object is built under before it takes the place of the one with the given
name, unless there is none. -/
def getTemporaryName (hashData : String → String) (name : String) : Option (List Nat) :=
  let (beforeLast, suffix) := splitName name.toList
  let temporaryName := units (beforeLast ++ "_tmp".toList ++ suffix)
  if byteLength temporaryName ≤ maxNameSize then some temporaryName
  else
    let marker := units (temporaryMarker hashData name suffix)
    (clipName (units beforeLast) (maxNameSize - byteLength marker)).map (· ++ marker)

/-- `name.replaceAll(':', '_')` -/
def replaceColons (name : String) : String :=
  String.ofList (name.toList.map fun c => if c = ':' then '_' else c)

def getName (table name : String) : String := table ++ "_" ++ toSnakeCase (replaceColons name)

def getPrimaryKeyName (table name : String) : String := getName table name ++ "_pk"

def getUniqueKeyName (table name : String) : String := getName table name ++ "_uk"

def getSecondaryKeyName (table name : String) : String := getName table name ++ "_sk"

def getRelationName (table name : String) : String := getName table name ++ "_fk"

def getConstraintName (table name : String) : String := getName table name ++ "_ck"

example : getTemporaryName id "table_column_pk" = some (units "table_column_tmp_pk".toList) := by
  decide +kernel

end Ez4.Migration

/-! ## The checks -/

namespace Ez4.Migration
open Ez4.Library Ez4.Utils Ez4.Library.Utf16

inductive ValidationError
  /-- `MigrationIndexError` -/
  | index (index reason : String)
  /-- `MigrationRelationError` -/
  | relation (relation reason : String)
  /-- `MigrationTimestampsError` -/
  | timestamps (table reason : String)
  /-- `MigrationNameCollisionError` -/
  | nameCollision (names : List String)
deriving DecidableEq

def ValidationError.message : ValidationError → String
  | .index name reason => "Index " ++ name ++ " " ++ reason ++ "."
  | .relation name reason => "Relation " ++ name ++ " " ++ reason ++ "."
  | .timestamps table reason => "Table " ++ table ++ " " ++ reason ++ "."
  | .nameCollision names =>
    "Names longer than " ++ toString maxNameSize ++ " bytes collide once Postgres truncates them: " ++
      ", ".intercalate names ++ "."

abbrev Validated := Except ValidationError Unit

/-! ## Indexes -/

def indexFilterOperators : List String :=
  ["equal", "not", "gt", "gte", "lt", "lte", "isIn", "isNull"]

/-- Each column is compared to a literal (or null), or takes operators that compare it to
literals. -/
def isIndexFilters (filters : Fields) : Bool :=
  filters.all fun (_, value) =>
    match value with
    | .obj operators => (keysOf operators).all (indexFilterOperators.contains ·)
    | _ => true

def validateIndex (indexName : String) (type : Index) (options : IndexOptions) : Validated := do
  let method := options.method.getD "btree"
  if type = .unique ∧ method ≠ "btree" then
    throw (.index indexName "is unique, which only a btree index can be")
  if options.nullsNotDistinct = some true ∧ type ≠ .unique then
    throw (.index indexName "has nulls not distinct, which only a unique index takes")
  if options.order.isSome ∧ method ≠ "btree" then
    throw (.index indexName "has an order, which only a btree index keeps")
  if options.include_.isSome ∧ method ≠ "btree" ∧ method ≠ "gist" then
    throw (.index indexName "includes columns, which only a btree or gist index stores")
  if options.where_.any (!isIndexFilters ·) then
    throw (.index indexName ("has a where with an operator other than " ++
      ", ".intercalate indexFilterOperators))

def validateIndexes (target : TableRepository) : Validated :=
  target.values.forM fun (table, metadata) =>
    metadata.indexes.values.forM fun (indexKey, index) =>
      match index.options with
      | none => pure ()
      | some options => validateIndex (table ++ "." ++ indexKey) index.type options

/-! ## Relations -/

/-- Whether the relation is held by a foreign key. -/
def hasForeignKey (relation : RelationMetadata) : Bool :=
  match relation.foreignKey with
  | some foreignKey => foreignKey
  | none =>
    relation.sourceIndex.any (· ≠ .secondary) && decide (relation.targetIndex ≠ some .primary)

/-- What deleting the referenced record does to the record holding the key. -/
def getDeleteAction (relation : RelationMetadata) (schema : ObjectSchema) : String :=
  relation.onDelete.getD
    (if (schema.properties.find relation.targetColumn).any isOptionalColumn then "set null"
      else "cascade")

/-- Types a foreign key can compare. -/
def getKeyType (schema : AnySchema) (primary : Bool) : ColumnType :=
  match getColumnType schema primary with
  | .bigserial => .bigint
  | .varchar _ => .text
  | type => type

def hasRepeatedColumn (columns : List String) : Bool := columns.eraseDups.length < columns.length

/-- An index that is a key on these columns. -/
def isKeyOn (keyColumns : List String) (index : TableIndex) : Bool :=
  (decide (index.type = .primary) || decide (index.type = .unique)) &&
    !(index.options.any fun options => options.where_.isSome) &&
    decide (index.columns.length = keyColumns.length) &&
    keyColumns.all (index.columns.contains ·)

def validateScope (target : TableRepository) (relationName : String) (relation : RelationMetadata)
    (scope : List String) (schema : ObjectSchema) : Validated := do
  let keyColumns := scope ++ [relation.sourceColumn]
  if hasRepeatedColumn keyColumns ∨ hasRepeatedColumn (scope ++ [relation.targetColumn]) then
    throw (.relation relationName "has a scope that repeats a column of its key")
  let sourceTableMetadata := target.find relation.sourceTable
  let hasKey := sourceTableMetadata.any fun metadata =>
    metadata.indexes.values.any fun (_, index) => isKeyOn keyColumns index
  if ¬ hasKey then
    throw (.relation relationName ("references " ++ relation.sourceColumn ++ " within " ++
      ", ".intercalate scope ++ ", which needs a primary or unique key on " ++
      ", ".intercalate keyColumns ++ " in " ++ relation.sourceTable))
  scope.forM fun scopeColumn => do
    let targetSchema := schema.properties.find scopeColumn
    let sourceSchema := sourceTableMetadata.bind (·.columns.find scopeColumn)
    if targetSchema.any isOptionalColumn then
      throw (.relation relationName ("is scoped by " ++ scopeColumn ++
        ", which takes null: the key isn't checked on records without it"))
    match targetSchema, sourceSchema with
    | some targetSchema, some sourceSchema =>
      if getKeyType targetSchema false ≠ getKeyType sourceSchema false then
        throw (.relation relationName ("is scoped by " ++ scopeColumn ++
          ", which has another type in " ++ relation.sourceTable))
    | _, _ => pure ()

def validateRelation (target : TableRepository) (schema : ObjectSchema) (relationName : String)
    (relation : RelationMetadata) : Validated := do
  let targetSchema := schema.properties.find relation.targetColumn
  let sourceSchema := (target.find relation.sourceTable).bind (·.columns.find relation.sourceColumn)
  if hasForeignKey relation then
    match relation.scope with
    | some scope => validateScope target relationName relation scope schema
    | none => pure ()
    if relation.foreignKey = some true ∧ relation.sourceIndex ≠ some .primary ∧
        relation.sourceIndex ≠ some .unique then
      throw (.relation relationName ("references " ++ relation.sourceColumn ++
        ", which isn't a primary or unique key"))
    if getDeleteAction relation schema = "set null" ∧ targetSchema.any (!isOptionalColumn ·) then
      throw (.relation relationName ("sets " ++ relation.targetColumn ++
        " to null, which doesn't take null"))
    match targetSchema, sourceSchema with
    | some targetSchema, some sourceSchema =>
      if getKeyType targetSchema (decide (relation.targetIndex = some .primary)) ≠
          getKeyType sourceSchema (decide (relation.sourceIndex = some .primary)) then
        throw (.relation relationName ("holds a key of another type than " ++ relation.sourceColumn))
    | _, _ => pure ()
  else
    if relation.onDelete.isSome then
      throw (.relation relationName "has a delete action but no foreign key")
    if relation.scope.isSome then throw (.relation relationName "has a scope but no foreign key")

def validateRelations (target : TableRepository) : Validated :=
  target.values.forM fun (table, metadata) =>
    metadata.relations.values.forM fun (targetAlias, relation) =>
      validateRelation target metadata.schema (table ++ "." ++ targetAlias) relation

/-! ## Timestamps -/

/-- `getStampName` -/
def getStampName (column : String) : String := "ez4_stamp_" ++ column

/-- The column of a timestamp that is declared. -/
def timestampColumn (column : Option String) : Option String := column.filter (· ≠ "")

def validateTimestamp (table : String) (metadata : TableMetadata) (option : String)
    (column : Option String) : Validated := do
  match timestampColumn column with
  | none => pure ()
  | some column =>
    match metadata.columns.find column with
    | none =>
      throw (.timestamps table ("has no column " ++ column ++ " for its " ++ option ++ " timestamp"))
    | some columnSchema =>
      let declared := "has its " ++ option ++ " timestamp in " ++ column
      if columnSchema.type ≠ .string ∨ columnSchema.format ≠ some "date-time" then
        throw (.timestamps table (declared ++ ", which isn't a date-time"))
      if isOptionalColumn columnSchema then
        throw (.timestamps table (declared ++ ", which is optional or nullable"))
      if metadata.indexes.values.any fun (_, index) =>
          decide (index.type = .primary) && index.columns.contains column then
        throw (.timestamps table (declared ++ ", which is in the primary key"))
      if ((metadata.renamedFrom.bind (·.columns)).bind (·.find column)).any (· ≠ "") then
        throw (.timestamps table ("renames " ++ column ++ ", which is a timestamp: the rename " ++
          "needs a deploy without timestamps on the column"))
      if option = "updated" ∧ maxNameSize < byteLength (units (getStampName column).toList) then
        throw (.timestamps table (declared ++ ", whose trigger name is longer than " ++
          toString maxNameSize ++ " bytes"))

def validateTimestamps (target : TableRepository) : Validated :=
  target.values.forM fun (table, metadata) => do
    let created := metadata.timestamps.bind (·.created)
    let updated := metadata.timestamps.bind (·.updated)
    if (timestampColumn created).isSome ∧ created = updated then
      throw (.timestamps table ("has both timestamps in " ++ created.getD ""))
    validateTimestamp table metadata "created" created
    validateTimestamp table metadata "updated" updated

/-! ## Names -/

def getIndexName (table : String) (index : TableIndex) : String :=
  match (index.options.bind (·.name)).filter (· ≠ "") with
  | some name => name
  | none =>
    match index.type with
    | .primary => getPrimaryKeyName table index.name
    | .unique => getUniqueKeyName table index.name
    | .secondary => getSecondaryKeyName table index.name

/-- `isScalarSchema`, `isEnumSchema`: a column whose values are checked. -/
def isConstrainedSchema (schema : AnySchema) : Bool :=
  decide (schema.type = .enum) ||
    (decide (schema.type = .boolean ∨ schema.type = .number ∨ schema.type = .string) &&
      (schema.definitions.bind (·.value)).any (!·.isNullish))

/-- `IndexQueries.getNames`, for the indexes. -/
def indexNames (table : String) (indexes : Record TableIndex) : List String :=
  indexes.values.map fun (_, index) => getIndexName table index

/-- `IndexQueries.getNames`, for the constraints among them (the primary key is both). -/
def primaryNames (table : String) (indexes : Record TableIndex) : List String :=
  (indexes.values.filter fun (_, index) => decide (index.type = .primary)).map fun (_, index) =>
    getIndexName table index

/-- `RelationQuery.getNames` -/
def relationNames (table : String) (relations : Record RelationMetadata) : List String :=
  (relations.values.filter fun (_, relation) => hasForeignKey relation).map fun (targetAlias, _) =>
    getRelationName table targetAlias

/-- `ConstraintQuery.getNames` -/
def checkNames (table : String) (columns : Record AnySchema) : List String :=
  (columns.values.filter fun (_, schema) => isConstrainedSchema schema).map fun (columnName, _) =>
    getConstraintName table columnName

/-- Adds a name to the set of those with its stored name. -/
def addName (storedName : List Nat) (name : String) :
    List (List Nat × List String) → List (List Nat × List String)
  | [] => [(storedName, [name])]
  | (other, group) :: rest =>
    if other = storedName then (other, if name ∈ group then group else group ++ [name]) :: rest
    else (other, group) :: addName storedName name rest

def namesByStoredName (names : List String) : List (List Nat × List String) :=
  names.foldl (fun groups name => addName (getStoredName name) name groups) []

def getCollisions (names : List String) : List String :=
  ((namesByStoredName names).filter fun (_, group) => 1 < group.length).flatMap Prod.snd

/-- Two object names that are the same once Postgres truncates them. -/
def validateNames (target : TableRepository) : Validated :=
  let indexNames := target.values.flatMap fun (_, t) => indexNames t.name t.indexes
  let constraintNames := target.values.flatMap fun (_, t) =>
    primaryNames t.name t.indexes ++ relationNames t.name t.relations ++ checkNames t.name t.columns
  let collisions := getCollisions indexNames ++ getCollisions constraintNames
  if collisions.isEmpty then pure () else throw (.nameCollision collisions)

def validateRepository (target : TableRepository) : Validated := do
  validateIndexes target
  validateRelations target
  validateTimestamps target
  validateNames target

end Ez4.Migration

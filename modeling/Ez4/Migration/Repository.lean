import Ez4.Utils.ComparedKeys

/-! # Table repositories

What a deploy declares of its tables (`PgTableRepository`) and the schemas of
their columns, as typed records. `toFields` and `toValue` give them back as
the plain objects that `deepCompareObject` and `deepEqual` walk through. -/

namespace Ez4.Migration
open Ez4.Library Ez4.Utils

/-- `Record<string, α>` -/
abbrev Record (α : Type) := KeyedMap (Prod.fst : String × α → String)

namespace Record

variable {α : Type}

/-- `record[key]` -/
def find (r : Record α) (key : String) : Option α := Utils.find r.values key

/-- `!!record[key]` -/
def has (r : Record α) (key : String) : Bool := (r.find key).isSome

theorem nodup_keys (r : Record α) : (keysOf r.values).Nodup := r.nodup

@[simp] theorem find_set (r : Record α) (key : String) (value : α) (k : String) :
    Record.find (r.set (key, value)) k = if key = k then some value else r.find k :=
  find_assign r.values key k value

@[simp] theorem find_erase (r : Record α) (key k : String) :
    Record.find (r.erase key) k = if k = key then none else r.find k := by
  simp only [Record.find, KeyedMap.erase, ne_eq]
  rw [find_filter_keys r.values (fun j => decide (¬ j = key))]
  by_cases h : k = key <;> simp [h]

end Record

/-! ## Column schemas -/

inductive SchemaType
  | boolean | number | string | object | reference | union | array | tuple | enum
deriving DecidableEq

def SchemaType.text : SchemaType → String
  | boolean => "boolean"
  | number => "number"
  | string => "string"
  | object => "object"
  | reference => "reference"
  | union => "union"
  | array => "array"
  | tuple => "tuple"
  | enum => "enum"

/-- An optional property, left out of the object when there is none. -/
def field (key : String) (value : Option Value) : Fields :=
  match value with
  | some value => [(key, value)]
  | none => []

/-- The definitions of a schema. `rest` holds those the migration only
compares (`minLength`, `pattern`, `types`, ...), among them no name that makes
an object pass for a schema or a table. -/
structure Definitions where
  maxLength : Option Number := none
  default : Option Value := none
  value : Option Value := none
  rest : Fields := []
  rest_keys : ∀ k ∈ keysOf rest,
    k ∉ ["maxLength", "default", "value", "type", "relations"] := by decide
  rest_defined : Defined rest := by exact ⟨by decide, by simp⟩
  default_defined : ∀ v, default = some v → v.isUndefined = false := by simp
  value_defined : ∀ v, value = some v → v.isUndefined = false := by simp

def Definitions.toFields (d : Definitions) : Fields :=
  field "maxLength" (d.maxLength.map .num) ++ field "default" d.default ++
    field "value" d.value ++ d.rest

/-- The value of an enum option. -/
inductive OptionValue
  | num (n : Number)
  | str (s : String)
deriving DecidableEq

structure EnumSchemaOption where
  value : OptionValue
  description : Option String := none
deriving DecidableEq

def OptionValue.toValue : OptionValue → Value
  | num n => .num n
  | str s => .str s

def EnumSchemaOption.toValue (o : EnumSchemaOption) : Value :=
  .obj ([("value", o.value.toValue)] ++ field "description" (o.description.map .str))

/-- The schema of a column. `format` is left out when it is empty, as the
schema builders do, and `rest` holds what the migration only compares
(`description`, `properties`, `element`, ...), among it no name that makes an
object pass for an index or a table. -/
structure AnySchema where
  type : SchemaType
  definitions : Option Definitions := none
  optional : Option Bool := none
  nullable : Option Bool := none
  format : Option String := none
  options : List EnumSchemaOption := []
  rest : Fields := []
  format_ne : format ≠ some "" := by decide
  rest_keys : ∀ k ∈ keysOf rest,
    k ∉ ["type", "definitions", "optional", "nullable", "format", "options", "columns", "relations"]
    := by decide
  rest_defined : Defined rest := by exact ⟨by decide, by simp⟩

def AnySchema.toFields (s : AnySchema) : Fields :=
  [("type", .str s.type.text)] ++ field "definitions" (s.definitions.map fun d => .obj d.toFields) ++
    field "optional" (s.optional.map .bool) ++ field "nullable" (s.nullable.map .bool) ++
    field "format" (s.format.map .str) ++
    field "options"
      (if s.type = .enum then some (.arr (s.options.map EnumSchemaOption.toValue)) else none) ++
    s.rest

def AnySchema.toValue (s : AnySchema) : Value := .obj s.toFields

/-! ## Tables -/

/-- The kinds of index a repository keeps. -/
inductive Index
  | primary | secondary | unique
deriving DecidableEq

def Index.text : Index → String
  | primary => "primary"
  | secondary => "secondary"
  | unique => "unique"

/-- The options of an index. -/
structure IndexOptions where
  name : Option String := none
  where_ : Option Fields := none
  include_ : Option (List String) := none
  order : Option (List (String × String)) := none
  nullsNotDistinct : Option Bool := none
  method : Option String := none

def IndexOptions.toFields (o : IndexOptions) : Fields :=
  field "name" (o.name.map .str) ++ field "where" (o.where_.map .obj) ++
    field "include" (o.include_.map fun l => .arr (l.map .str)) ++
    field "order" (o.order.map fun l => .obj (l.map fun f => (f.1, .str f.2))) ++
    field "nullsNotDistinct" (o.nullsNotDistinct.map .bool) ++ field "method" (o.method.map .str)

structure TableIndex where
  name : String
  columns : List String
  type : Index
  options : Option IndexOptions := none

def TableIndex.toFields (i : TableIndex) : Fields :=
  [("name", .str i.name), ("columns", .arr (i.columns.map .str)), ("type", .str i.type.text)] ++
    field "options" (i.options.map fun o => .obj o.toFields)

def TableIndex.toValue (i : TableIndex) : Value := .obj i.toFields

structure RelationMetadata where
  sourceTable : String
  sourceColumn : String
  sourceIndex : Option Index := none
  targetColumn : String
  targetIndex : Option Index := none
  onDelete : Option String := none
  foreignKey : Option Bool := none
  scope : Option (List String) := none

def RelationMetadata.toValue (r : RelationMetadata) : Value :=
  .obj ([("sourceTable", .str r.sourceTable), ("sourceColumn", .str r.sourceColumn)] ++
    field "sourceIndex" (r.sourceIndex.map fun i => .str i.text) ++
    [("targetColumn", .str r.targetColumn)] ++
    field "targetIndex" (r.targetIndex.map fun i => .str i.text) ++
    field "onDelete" (r.onDelete.map .str) ++ field "foreignKey" (r.foreignKey.map .bool) ++
    field "scope" (r.scope.map fun l => .arr (l.map .str)))

structure TableRenames where
  table : Option String := none
  columns : Option (Record String) := none

structure TableTimestamps where
  created : Option String := none
  updated : Option String := none
deriving DecidableEq

def TableTimestamps.toValue (t : TableTimestamps) : Value :=
  .obj (field "created" (t.created.map .str) ++ field "updated" (t.updated.map .str))

/-- The schema of the records of a table: its columns, and in `rest` what the
migration only compares (`description`, `identity`, ...). -/
structure ObjectSchema where
  properties : Record AnySchema
  rest : Fields := []
  rest_keys : ∀ k ∈ keysOf rest, k ∉ ["type", "properties"] := by decide
  rest_defined : Defined rest := by exact ⟨by decide, by simp⟩

/-- The values of a record, as a plain object. -/
def Record.toFields {α : Type} (r : Record α) (toValue : α → Value) : Fields :=
  r.values.map fun f => (f.1, toValue f.2)

def ObjectSchema.toFields (s : ObjectSchema) : Fields :=
  [("type", .str SchemaType.object.text),
    ("properties", .obj (s.properties.toFields AnySchema.toValue))] ++ s.rest

structure TableMetadata where
  name : String
  renamedFrom : Option TableRenames := none
  timestamps : Option TableTimestamps := none
  relations : Record RelationMetadata := ∅
  indexes : Record TableIndex := ∅
  schema : ObjectSchema

/-- `columns` of a table. -/
abbrev TableMetadata.columns (t : TableMetadata) : Record AnySchema := t.schema.properties

/-- A table as an object, without how it was renamed: that tells the migration
what to do, but isn't part of the table. -/
def TableMetadata.withoutRenames (t : TableMetadata) : Fields :=
  [("name", .str t.name), ("indexes", .obj (t.indexes.toFields TableIndex.toValue)),
    ("relations", .obj (t.relations.toFields RelationMetadata.toValue)),
    ("schema", .obj t.schema.toFields)] ++
    field "timestamps" (t.timestamps.map TableTimestamps.toValue)

abbrev TableRepository := Record TableMetadata

/-- `withoutRenames` -/
def withoutRenames (repository : TableRepository) : Fields :=
  repository.toFields fun t => .obj t.withoutRenames

end Ez4.Migration

import Ez4.Migration.Repository

/-! # Columns

The type, the nullability and the default of a column (`utils/columns.ts`). A
type or a default stands for its SQL text. -/

namespace Ez4.Migration
open Ez4.Library Ez4.Utils

inductive ColumnType
  | jsonb | boolean | text | bigserial | bigint | decimal | uuid | time | date | timestamptz
  | varchar (maxLength : Number)
deriving DecidableEq

inductive ColumnDefault
  /-- `TIMESTAMP_VALUE` -/
  | timestamp
  /-- The SQL literal of a value. -/
  | literal (value : Value)
  | now
  | genRandomUuid
  | null

def isOptionalColumn (schema : AnySchema) : Bool :=
  schema.nullable.getD false || schema.optional.getD false

/-- Whether the default of the definitions is one the switch on its type has a
case for. -/
def defaultLiteral (definitions : Option Definitions) : Option ColumnDefault :=
  match definitions.bind (·.default) with
  | some (.bool b) => some (.literal (.bool b))
  | some (.num n) => some (.literal (.num n))
  | some (.str s) => some (.literal (.str s))
  | some (.arr items) => some (.literal (.arr items))
  | some (.obj fields) => some (.literal (.obj fields))
  | some .null => some (.literal .null)
  | _ => none

/-- The default an uuid or a date of the primary key has. -/
def primaryDefault (schema : AnySchema) : Option ColumnDefault :=
  if schema.type = .string then
    if schema.format = some "date-time" ∨ schema.format = some "date" ∨ schema.format = some "time"
    then some .now
    else if schema.format = some "uuid" then some .genRandomUuid
    else none
  else none

/-- The default of a column. A timestamp column always defaults to the
timestamp. -/
def getColumnDefault (schema : AnySchema) (primaryIndex timestampColumn : Bool) :
    Option ColumnDefault :=
  if timestampColumn then some .timestamp
  else
    let declared :=
      match schema.type with
      | .boolean | .number | .string | .object | .array | .tuple =>
        defaultLiteral schema.definitions
      | .enum =>
        match schema.definitions.bind (·.default) with
        | some value => if value.truthy then some (.literal value) else none
        | none => none
      | .reference | .union => none
    (declared.or (if primaryIndex then primaryDefault schema else none)).or
      (if isOptionalColumn schema then some .null else none)

def getColumnNumberType (schema : AnySchema) (primaryIndex : Bool) : ColumnType :=
  if schema.format = some "integer" then if primaryIndex then .bigserial else .bigint
  else .decimal

def getColumnTextType (schema : AnySchema) : ColumnType :=
  if schema.format = some "uuid" then .uuid
  else if schema.format = some "time" then .time
  else if schema.format = some "date" then .date
  else if schema.format = some "date-time" then .timestamptz
  else
    match schema.definitions.bind (·.maxLength) with
    | some maxLength => .varchar maxLength
    | none => .text

def getColumnType (schema : AnySchema) (primaryIndex : Bool) : ColumnType :=
  match schema.type with
  | .array | .object | .reference | .union | .tuple => .jsonb
  | .boolean => .boolean
  | .enum => .text
  | .number => getColumnNumberType schema primaryIndex
  | .string => getColumnTextType schema

/-- The type a column is read back with: a `bigserial` is a `bigint`. -/
def ColumnType.stored : ColumnType → ColumnType
  | bigserial => bigint
  | type => type

theorem stored_getColumnType (schema : AnySchema) (primaryIndex : Bool) :
    (getColumnType schema primaryIndex).stored = getColumnType schema false := by
  unfold getColumnType
  split <;> try rfl
  · unfold getColumnNumberType
    split
    · cases primaryIndex <;> rfl
    · rfl
  · unfold getColumnTextType
    split <;> (try rfl)
    split <;> (try rfl)
    split <;> (try rfl)
    split <;> (try rfl)
    split <;> rfl

/-- The type of a column depends on these alone. -/
theorem getColumnType_congr {schema other : AnySchema} (ht : schema.type = other.type)
    (hf : schema.format = other.format)
    (hd : schema.definitions.bind (·.maxLength) = other.definitions.bind (·.maxLength))
    (primaryIndex : Bool) :
    getColumnType schema primaryIndex = getColumnType other primaryIndex := by
  unfold getColumnType getColumnNumberType getColumnTextType
  rw [ht, hf, hd]

end Ez4.Migration

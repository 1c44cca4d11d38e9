import Ez4.PgSql.Text

/-! # The operations of a condition

`operations/*.ts`, but for the tree of the filters: the text each operator
writes for a column and an operand. What the operations leave to others is in
`Runtime`: how a nested statement is built, and what the language does. -/
namespace Ez4.PgSql
open Ez4.Utils Ez4.Schema

/-! ## Operands -/

/-- The text of a number. -/
structure NumberText where
  text : String
  nonempty : text ≠ ""
  chars : ∀ c ∈ text.toList, c.isDigit || ['-', '+', '.', 'e', 'N', 'a', 'I', 'n', 'f', 'i', 't',
    'y'].contains c

/-- The column of a reference: its name, or what a generator made. -/
inductive ReferencedColumn
  | name (column : String)
  | generated (text : String)

/-- `SqlColumnReference`, with the alias that its source has when it is built. -/
structure ColumnReference where
  sourceAlias : Option String
  column : ReferencedColumn
  alias? : Option String

/-- A value of the filters or of a record. `Q` is the type of the statements
nested in it. -/
inductive SqlOperand (Q : Type)
  | undefined
  | null
  | boolean (value : Bool)
  | number (value : NumberText)
  | string (value : String)
  | array (items : List (SqlOperand Q))
  | object (fields : List (String × SqlOperand Q))
  /-- An object of another class, which has no properties of its own. -/
  | instance_ (name : String)
  /-- `SqlRawValue`, with the text it is built to. -/
  | raw (text : String)
  | reference (reference : ColumnReference)
  | select (statement : Q)
  /-- `SqlRawCondition`: its text, with the values it binds where they stand. -/
  | condition (parts : List (String × Option (SqlOperand Q × Option AnySchema))) (last : String)

variable {Q W : Type}

namespace SqlOperand

def isUndefined : SqlOperand Q → Bool
  | undefined => true
  | _ => false

/-- `!!operand` -/
def truthy : SqlOperand Q → Bool
  | undefined | null => false
  | boolean value => value
  | number value => value.text != "0" && value.text != "NaN"
  | string value => value != ""
  | _ => true

/-- `isAnyObject` -/
def isAnyObject : SqlOperand Q → Bool
  | object _ | instance_ _ | raw _ | reference _ | select _ | condition _ _ => true
  | _ => false

/-- What `for in` goes through. The items of a group of filters are objects. -/
def fields : SqlOperand Q → List (String × SqlOperand Q)
  | object fields => fields
  | _ => []

/-- SQL written by the caller. -/
def isWritten : SqlOperand Q → Bool
  | raw _ | reference _ => true
  | _ => false

end SqlOperand

/-! ## Contexts -/

/-- `SqlVariableContext` -/
structure VariableContext where
  index : Nat
  schema : Option AnySchema := none
  json : Option Bool := none

structure SqlBuilderOptions (Q W : Type) where
  onPrepareVariable : Option (SqlOperand Q → VariableContext → W) := none
  onPrepareArray : Option (List (SqlOperand Q) → VariableContext → Option W) := none

structure Runtime (Q W : Type) where
  /-- A value among the variables, as it is. -/
  bare : SqlOperand Q → W
  /-- `JSON.stringify` -/
  stringify : SqlOperand Q → String
  deepEqual : AnySchema → AnySchema → Bool
  /-- `build` of a nested statement. -/
  build : Q → Build W (Text W × List W)

structure SqlOperationFlags where
  insensitive : Bool := false
  count : Bool := false

/-- `SqlOperationContext`, with what is read of the source. -/
structure SqlOperationContext (Q W : Type) where
  runtime : Runtime Q W
  options : SqlBuilderOptions Q W := {}
  /-- Whether the builder has references. -/
  references : Bool := true
  flags : Option SqlOperationFlags := none
  /-- `source.alias` -/
  alias? : Option String := none
  field : Option String := none
  path : Option (Text W) := none

/-! ## `utils.ts` -/

def ColumnReference.build (reference : ColumnReference) : Text W :=
  let result := match reference.column with
    | .generated text => sql text
    | .name column => mergeSqlAlias (sql (escapeSqlName column)) reference.sourceAlias
  match reference.alias? with
  | some name => if name = "" then result else result ++ sql " AS " ++ sql (escapeSqlName name)
  | none => result

def escapeSqlData (runtime : Runtime Q W) (data : SqlOperand Q) : Build W (Text W) :=
  match data with
  | .number value => pure (sql value.text)
  | .boolean value => pure (sql (if value then "true" else "false"))
  | .string value => pure (sql (escapeSqlText value))
  | .undefined => throw .unsupportedSqlData
  | _ => pure (sql (escapeSqlText (runtime.stringify data)))

section
variable (context : SqlOperationContext Q W)

def isJsonOperand (schema : Option AnySchema) (encode : Bool) : Bool :=
  context.path.isSome && (encode || schema.isNone)

def getOperandValue (schema : Option AnySchema) (operand : SqlOperand Q) (encode : Bool) :
    Build W (Text W) := do
  match operand with
  | .raw text => return sql text
  | .reference reference => return reference.build
  | _ =>
    if !context.references then escapeSqlData context.runtime operand
    else
      let index ← takeIndex
      let value := match context.options.onPrepareVariable with
        | none => context.runtime.bare operand
        | some prepare =>
          prepare operand { index, schema, json := some (isJsonOperand context schema encode) }
      pushVariables [value]
      return [.placeholder index value]

def getOperandArray (schema : Option AnySchema) (operands : List (SqlOperand Q)) :
    Build W (Option (Text W)) := do
  match context.references, context.options.onPrepareArray with
  | true, some prepare =>
    if operands.any SqlOperand.isWritten || isJsonOperand context schema false then return none
    else
      let index := (← getThe (Scope W)).counter
      match prepare operands { index, schema } with
      | none => return none
      | some value =>
        let _ ← takeIndex
        pushVariables [value]
        return some [.placeholder index value]
  | _, _ => return none

def getOperandPattern (schema : Option AnySchema) (operand : SqlOperand Q) : Build W (Text W) :=
  match operand with
  | .string value =>
    let escaped := replaceAll value (['\\', '%', '_'].contains ·) fun c => ['\\', c]
    getOperandValue context schema (.string escaped) false
  | _ => getOperandValue context schema operand false

/-- The type a text of JSON is cast to. -/
def castOf : AnySchema → Option String
  | .boolean _ => some "bool"
  | .number schema => some (if schema.format = some "integer" then "int" else "dec")
  | .string schema =>
    if schema.format = some "date-time" then some "timestamptz"
    else if schema.format = some "date" then some "date"
    else if schema.format = some "time" then some "time"
    else none
  | _ => none

def getOperandColumn (schema : Option AnySchema) (column : Text W) : Text W :=
  if context.path.isNone then column
  else match schema.bind castOf with
    | some type => sql "(" ++ column ++ sql ")::" ++ sql type
    | none => column

def getOperandFunction (column : Text W) (flags : SqlOperationFlags) : Text W :=
  if flags.count then sql "COUNT(" ++ column ++ sql ")"
  else if flags.insensitive then sql "LOWER(" ++ column ++ sql ")"
  else column

/-- `context.flags ? getOperandFunction(column, context.flags) : column` -/
def flagged (column : Text W) : Text W :=
  match context.flags with
  | some flags => getOperandFunction column flags
  | none => column

/-- `context.flags?.insensitive` -/
def isInsensitive : Bool := (context.flags.map SqlOperationFlags.insensitive).getD false

/-! ## The operators -/

def getIsNullOperation (column : Text W) (operand : SqlOperand Q) : Text W :=
  if !operand.truthy then column ++ sql " IS NOT null" else column ++ sql " IS null"

/-- The key of a JSON field, with the path it is read under. -/
def hasKey? : Option (Text W) :=
  match context.path, context.field with
  | some path, some field =>
    if field = "" then none else some (path ++ sql " ? " ++ sql (escapeSqlKey field))
  | _, _ => none

def getIsMissingOperation (column : Text W) (operand : SqlOperand Q) : Text W :=
  match hasKey? context with
  | none => getIsNullOperation column operand
  | some hasKey => if operand.truthy then sql "NOT (" ++ hasKey ++ sql ")" else hasKey

def getIsMissingOrNullOperation (column : Text W) (operand : SqlOperand Q) : Text W :=
  match hasKey? context with
  | none => getIsNullOperation column operand
  | some hasKey =>
    if operand.truthy then
      sql "(NOT (" ++ hasKey ++ sql ") OR " ++ column ++ sql " IS null)"
    else sql "(" ++ hasKey ++ sql " AND " ++ column ++ sql " IS NOT null)"

/-- `equal` and `not`, which compare with a null as given. -/
def getEqualityOperation (operator : String) (isNull : Bool) (column : Text W)
    (schema : Option AnySchema) (operand : SqlOperand Q) : Build W (Text W) := do
  match operand with
  | .null => return getIsNullOperation column (.boolean isNull : SqlOperand Q)
  | _ =>
    let lhsColumn := getOperandColumn context schema column
    let rhsValue ← getOperandValue context schema operand false
    let rhsOperand := if isInsensitive context then flagged context rhsValue else rhsValue
    return flagged context lhsColumn ++ sql operator ++ rhsOperand

def getEqualOperation : Text W → Option AnySchema → SqlOperand Q → Build W (Text W) :=
  getEqualityOperation context " = " true

def getNotEqualOperation : Text W → Option AnySchema → SqlOperand Q → Build W (Text W) :=
  getEqualityOperation context " != " false

/-- The operators of an order. -/
def getOrderOperation (operator : String) (column : Text W) (schema : Option AnySchema)
    (operand : SqlOperand Q) : Build W (Text W) := do
  let lhsColumn := getOperandColumn context schema column
  let rhsOperand ← getOperandValue context schema operand false
  return flagged context lhsColumn ++ sql operator ++ rhsOperand

def getGreaterThanOperation : Text W → Option AnySchema → SqlOperand Q → Build W (Text W) :=
  getOrderOperation context " > "

def getGreaterOrEqualOperation : Text W → Option AnySchema → SqlOperand Q → Build W (Text W) :=
  getOrderOperation context " >= "

def getLessThanOperation : Text W → Option AnySchema → SqlOperand Q → Build W (Text W) :=
  getOrderOperation context " < "

def getLessOrEqualOperation : Text W → Option AnySchema → SqlOperand Q → Build W (Text W) :=
  getOrderOperation context " <= "

/-- The types that are compared as JSON. -/
def isJsonSchema : Option AnySchema → Bool
  | some (.object _) | some (.array _ _ _) | some (.tuple _ _ _) => true
  | _ => false

def getIsInOperation (column : Text W) (schema : Option AnySchema) (operand : SqlOperand Q) :
    Build W (Text W) := do
  match operand with
  | .array [] => return sql "false"
  | .array operands =>
    let lhsColumn := getOperandColumn context schema column
    if isJsonSchema schema then
      let rhsOperands ← operands.mapM fun current => getOperandValue context schema current true
      let operations := rhsOperands.map fun rhsOperand => lhsColumn ++ sql " <@ " ++ rhsOperand
      return sql "(" ++ join " OR " operations ++ sql ")"
    else
      let lhsOperand := flagged context lhsColumn
      match ← getOperandArray context schema operands with
      | some rhsArray => return lhsOperand ++ sql " = ANY(" ++ rhsArray ++ sql ")"
      | none =>
        let rhsOperands ← operands.mapM fun current => getOperandValue context schema current false
        return lhsOperand ++ sql " IN (" ++ join ", " rhsOperands ++ sql ")"
  | _ => throw (.invalidOperand (some column))

def getIsBetweenOperation (column : Text W) (schema : Option AnySchema) (operand : SqlOperand Q) :
    Build W (Text W) := do
  match operand with
  | .array [first, second] =>
    let begin_ ← getOperandValue context schema first false
    let end_ ← getOperandValue context schema second false
    let lhsOperand := flagged context (getOperandColumn context schema column)
    return lhsOperand ++ sql " BETWEEN " ++ begin_ ++ sql " AND " ++ end_
  | _ => throw (.invalidOperand (some column))

/-- `ILIKE`, or `LIKE`. -/
def likeOperator : Text W := sql (if isInsensitive context then " ILIKE " else " LIKE ")

def getStartsWithOperation (column : Text W) (schema : Option AnySchema) (operand : SqlOperand Q) :
    Build W (Text W) := do
  let rhsOperand ← getOperandPattern context schema operand
  return getOperandColumn context schema column ++ likeOperator context ++ rhsOperand ++
    sql " || '%'"

def getContainsOperation (column : Text W) (schema : Option AnySchema) (operand : SqlOperand Q) :
    Build W (Text W) := do
  if isJsonSchema schema then
    let rhsOperand ← getOperandValue context schema operand true
    return column ++ sql " @> " ++ rhsOperand
  else
    let rhsOperand ← getOperandPattern context schema operand
    return getOperandColumn context schema column ++ likeOperator context ++ sql "'%' || " ++
      rhsOperand ++ sql " || '%'"

def getExistsOperation (statement : Q) : Build W (Text W) := do
  let (text, values) ← context.runtime.build statement
  pushVariables values
  return sql "EXISTS (" ++ text ++ sql ")"

end

end Ez4.PgSql

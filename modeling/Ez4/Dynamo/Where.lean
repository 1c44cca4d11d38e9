import Ez4.PgSql.Text

/-! # The conditions of a DynamoDB statement

`prepareWhereFields`, `prepareOperation` and `sanitizeValues`
(`client/common/where.ts`), with `arrayUnique`. Filters are objects
(`Query.WhereInput`), and a group is an array of them: what else stands in their
place is read as no filters. -/
namespace Ez4.Dynamo
open Ez4.Utils Ez4.Schema Ez4.PgSql

inductive WhereError
  /-- `Field with AND/OR operations must be an array.` -/
  | notArray
  /-- `TypeError`: the operand is not iterable. -/
  | notIterable
deriving DecidableEq, Repr

/-! ## Operands -/

/-- `arrayUnique(values)`: of an array its elements, of anything else itself. -/
def arrayUnique (values : Value) : List Value :=
  let elements := match values with
    | .arr items => items
    | value => [value]
  elements.foldl (fun unique value =>
    if value.isUndefined || unique.any value.strictEq then unique else unique ++ [value]) []

/-- No value may be an empty text for DynamoDB. -/
def sanitizeValues (values : Value) : List Value :=
  (arrayUnique values).filter fun value => !value.strictEq (.str "")

/-- `isEmptyArray` -/
def isEmptyArray (values : List Value) : Bool := values.all Value.isUndefined

/-- What `for of` goes through. -/
def iterate : Value → Except WhereError (List Value)
  | .arr items => .ok items
  | .str text => .ok (text.toList.map fun c => .str c.toString)
  | _ => .error .notIterable

/-- Whether the type of the schema is `Array` or `Tuple`. -/
def hasElements : Option AnySchema → Bool
  | some (.array _ _ _) | some (.tuple _ _ _) => true
  | _ => false

/-! ## Operations -/

/-- The conditions that are collected, and the values of their variables. -/
structure Prepared where
  operations : List String := []
  values : List Value := []
deriving Inhabited

def Prepared.append (a b : Prepared) : Prepared :=
  { operations := a.operations ++ b.operations, values := a.values ++ b.values }

/-- A condition, and the values of its variables. -/
abbrev Operation := String × List Value

/-- `? IN path` for each of the values. -/
def elementsIn (path : String) (values : List Value) : String :=
  " AND ".intercalate (values.map fun _ => "? IN " ++ path)

def prepareIsIn (schema : Option AnySchema) (path : String) (value : Value) :
    Except WhereError Operation := do
  if !hasElements schema then
    let values := sanitizeValues value
    if !isEmptyArray values then
      return (path ++ " IN [" ++ ", ".intercalate (values.map fun _ => "?") ++ "]", values)
  else
    let operands ← iterate value
    let lists := (operands.map sanitizeValues).filter fun values => !isEmptyArray values
    let conditions := lists.map fun values => "(" ++ elementsIn path values ++ ")"
    if !conditions.isEmpty then
      return ("(" ++ " OR ".intercalate conditions ++ ")", lists.flatten)
  -- no results for empty arrays
  return ("1 = 0", [])

def prepareContains (schema : Option AnySchema) (path : String) (value : Value) : Operation :=
  let contains := "contains(" ++ path ++ ", ?)"
  match value with
  | .arr _ =>
    let values := sanitizeValues value
    if !isEmptyArray values && hasElements schema then
      (" AND ".intercalate (values.map fun _ => contains), values)
    -- any results for empty arrays
    else ("1 = 1", [])
  | _ => (contains, [value])

/-- `prepareOperation`; nothing when there is no such operator. -/
def prepareOperation (operator : String) (value : Value) (schema : Option AnySchema)
    (path : String) : Except WhereError (Option Operation) :=
  match operator with
  | "equal" => .ok (some (path ++ " = ?", [value]))
  | "not" => .ok (some (path ++ " != ?", [value]))
  | "gt" => .ok (some (path ++ " > ?", [value]))
  | "gte" => .ok (some (path ++ " >= ?", [value]))
  | "lt" => .ok (some (path ++ " < ?", [value]))
  | "lte" => .ok (some (path ++ " <= ?", [value]))
  | "isIn" => (prepareIsIn schema path value).map some
  | "isBetween" => (iterate value).map fun values => some (path ++ " BETWEEN ? AND ?", values)
  | "isMissing" =>
    .ok (some (path ++ " IS " ++ (if value.truthy then "MISSING" else "NOT MISSING"), []))
  | "isNull" => .ok (some (path ++ " IS " ++ (if value.truthy then "null" else "NOT null"), []))
  | "isMissingOrNull" =>
    .ok (some (if value.truthy then "(" ++ path ++ " IS MISSING OR " ++ path ++ " IS null)"
      else "(" ++ path ++ " IS NOT MISSING AND " ++ path ++ " IS NOT null)", []))
  | "startsWith" => .ok (some ("begins_with(" ++ path ++ ", ?)", [value]))
  | "contains" => .ok (some (prepareContains schema path value))
  | _ => .ok none

/-! ## Fields and groups -/

def conjunction (operations : List String) : String := " AND ".intercalate operations

/-- `NOT`, around what it holds. -/
def Prepared.negated (nested : Prepared) : Prepared :=
  { nested with operations := ["NOT (" ++
      (if nested.operations.length > 1 then conjunction nested.operations
        -- `${nestedOperations[0]}`
        else nested.operations.head?.getD "undefined") ++ ")"] }

/-- An item of a group, as it goes on the list of the group. -/
def Prepared.item (isOr : Bool) (nested : Prepared) : Prepared :=
  if isOr && nested.operations.length > 1 then
    { nested with operations := ["(" ++ conjunction nested.operations ++ ")"] }
  else nested

/-- The list of a group, as it goes on the list around it. -/
def Prepared.group (isOr : Bool) (nested : Prepared) : Prepared :=
  if isOr && nested.operations.length > 1 then
    { nested with operations := ["(" ++ " OR ".intercalate nested.operations ++ ")"] }
  else nested

/-- `path ? path."name" : "name"` -/
def fieldPath (path : Option String) (fieldName : String) : String :=
  match path with
  | some path => path ++ ".\"" ++ fieldName ++ "\""
  | none => "\"" ++ fieldName ++ "\""

/-- The loop over the entries of a field. What is no operator has all fields of
the field prepared, as `nested`. -/
def prepareEntries (schema : Option AnySchema) (path : String)
    (nested : Except WhereError Prepared) : Fields → Except WhereError Prepared
  | [] => .ok {}
  | (operator, value) :: rest => do
    let prepared ← match ← prepareOperation operator value schema path with
      | some (operation, values) => pure { operations := [operation], values }
      | none => nested
    return prepared.append (← prepareEntries schema path nested rest)

section
variable (deepEqual : AnySchema → AnySchema → Bool)

/-- The entries of a field that is no object. -/
def prepareValue (schema : Option AnySchema) (path : Option String) (fieldName : String)
    (entry : String × Value) : Except WhereError Prepared :=
  let fieldSchema := schema.bind fun schema => getSchemaProperty deepEqual schema fieldName
  prepareEntries fieldSchema (fieldPath path fieldName) (.ok {}) [entry]

mutual

/-- The fields that are not undefined. -/
def prepareFields (schema : Option AnySchema) (path : Option String) (data : Fields) :
    Except WhereError Prepared := do
  match data with
  | [] => return {}
  | (fieldName, value) :: rest =>
    let prepared ← prepareField schema path fieldName value
    return prepared.append (← prepareFields schema path rest)

def prepareField (schema : Option AnySchema) (path : Option String) (fieldName : String)
    (value : Value) : Except WhereError Prepared :=
  match value with
  | .undefined => .ok {}
  | .obj fields =>
    if fieldName = "NOT" then (prepareFields schema path fields).map Prepared.negated
    else if fieldName = "AND" ∨ fieldName = "OR" then .error .notArray
    else
      let fieldSchema := schema.bind fun schema => getSchemaProperty deepEqual schema fieldName
      let fieldPath := fieldPath path fieldName
      prepareEntries fieldSchema fieldPath (prepareFields schema (some fieldPath) fields) fields
  | .arr items =>
    if fieldName = "NOT" then .ok (Prepared.negated {})
    else if fieldName = "AND" ∨ fieldName = "OR" then
      (prepareItems schema path (fieldName = "OR") items).map (Prepared.group (fieldName = "OR"))
    else prepareValue deepEqual schema path fieldName ("equal", .arr items)
  | value =>
    if fieldName = "NOT" then .ok (Prepared.negated {})
    else if fieldName = "AND" ∨ fieldName = "OR" then .error .notArray
    else match value with
      | .null => prepareValue deepEqual schema path fieldName ("isNull", .bool true)
      | value => prepareValue deepEqual schema path fieldName ("equal", value)

/-- The items of a group. -/
def prepareItems (schema : Option AnySchema) (path : Option String) (isOr : Bool)
    (items : List Value) : Except WhereError Prepared := do
  match items with
  | [] => return {}
  | .obj fields :: rest =>
    let prepared ← prepareFields schema path fields
    return (prepared.item isOr).append (← prepareItems schema path isOr rest)
  | _ :: rest => prepareItems schema path isOr rest

end

/-- The text of a condition, and the values of its variables. -/
def prepareWhereFields (input : Fields) (schema : ObjectSchema) : Except WhereError Operation := do
  let prepared ← prepareFields deepEqual (some (.object schema)) none input
  return (conjunction prepared.operations, prepared.values)

end

end Ez4.Dynamo

import Ez4.PgSql.Operations

/-! # Conditions

`SqlConditions` (`operations/conditions.ts`): the text of a tree of filters. The
filters of an object are its fields in their order. -/
namespace Ez4.PgSql
open Ez4.Utils Ez4.Schema

variable {Q W : Type}

abbrev SqlFilters (Q : Type) := List (String × SqlOperand Q)

/-! ## The operators of a column -/

def getFinalOperation (column : Text W) (schema : Option AnySchema) (operator : String)
    (operand : SqlOperand Q) (context : SqlOperationContext Q W) : Build W (Option (Text W)) :=
  if operand.isUndefined then pure none
  else match operator with
    | "isNull" => pure (some (getIsNullOperation column operand))
    | "isMissing" => pure (some (getIsMissingOperation context column operand))
    | "isMissingOrNull" => pure (some (getIsMissingOrNullOperation context column operand))
    | "equal" => some <$> getEqualOperation context column schema operand
    | "not" => some <$> getNotEqualOperation context column schema operand
    | "gt" => some <$> getGreaterThanOperation context column schema operand
    | "gte" => some <$> getGreaterOrEqualOperation context column schema operand
    | "lt" => some <$> getLessThanOperation context column schema operand
    | "lte" => some <$> getLessOrEqualOperation context column schema operand
    | "isIn" => some <$> getIsInOperation context column schema operand
    | "isBetween" => some <$> getIsBetweenOperation context column schema operand
    | "startsWith" => some <$> getStartsWithOperation context column schema operand
    | "contains" => some <$> getContainsOperation context column schema operand
    | _ => pure none

def getMultipleOperations (column : Text W) (schema : Option AnySchema)
    (entries : List (String × SqlOperand Q)) (context : SqlOperationContext Q W) :
    Build W (List (Text W)) := do
  let allOperations ← entries.mapM fun (operator, operand) =>
    getFinalOperation column schema operator operand context
  return allOperations.reduceOption

/-- Nothing, when there are no operations. -/
def combineOperations (operations : List (Text W)) : Option (Text W) :=
  match operations with
  | [] => none
  | [operation] => some operation
  | _ => some (sql "(" ++ join " AND " operations ++ sql ")")

/-- The group that `getLogicalOperations` ends with. -/
def groupOperations (field : String) (operations : List (Text W)) : Option (Text W) :=
  if operations.isEmpty then none
  else some (sql "(" ++ join (" " ++ field ++ " ") operations ++ sql ")")

/-- What a raw condition writes, each value bound where it stands. -/
def conditionBody (context : SqlOperationContext Q W)
    (parts : List (String × Option (SqlOperand Q × Option AnySchema))) (last : String) :
    Build W (Text W) := do
  let texts ← parts.mapM fun (text, bound) => do
    match bound with
    | none => return sql text
    | some (value, schema) => return sql text ++ (← getOperandValue context schema value false)
  return texts.flatten ++ sql last

/-- `SqlRawCondition.build` -/
def buildCondition (context : SqlOperationContext Q W)
    (parts : List (String × Option (SqlOperand Q × Option AnySchema))) (last : String) :
    Build W (Text W) := do
  let body ← conditionBody context parts last
  return sql "(" ++ body ++ sql ")"

/-! ## Columns -/

/-- What `getFieldOperation` finds out of a column. -/
structure Column (W : Type) where
  schema : Option AnySchema
  /-- `hasSubColumn` -/
  nested : Bool
  name : Text W
  path : Text W

def columnOf (context : SqlOperationContext Q W) (schema : Option AnySchema) (field : String) :
    Column W :=
  let columnSchema := schema.bind fun schema =>
    getSchemaProperty context.runtime.deepEqual schema field
  let hasSubColumn := (columnSchema.map isNestedSchema).getD false
  let columnName :=
    if columnSchema.isSome && !hasSubColumn then
      mergeSqlJsonPath field context.path true (columnKey field)
    else mergeSqlPath field context.path (columnKey field)
  { schema := columnSchema, nested := hasSubColumn, name := columnName,
    path := if context.path.isSome then columnName else mergeSqlAlias columnName context.alias? }

/-- What is taken out of the operators of a column. -/
def flagNames : List String := ["insensitive", "count"]

def flagsOf (value : List (String × SqlOperand Q)) : SqlOperationFlags :=
  { insensitive := ((find value "insensitive").map SqlOperand.truthy).getD false
    count := ((find value "count").map SqlOperand.truthy).getD false }

/-! ## Filters -/

mutual

/-- The filters but for the omitted ones. -/
def getFilterOperations (omitted : List String) (filters : List (String × SqlOperand Q))
    (schema : Option AnySchema) (context : SqlOperationContext Q W) : Build W (List (Text W)) := do
  match filters with
  | [] => return []
  | (field, value) :: rest =>
    if omitted.contains field || value.isUndefined then
      getFilterOperations omitted rest schema context
    else
      let operation ← getFieldOperation field value schema { context with field := some field }
      let operations ← getFilterOperations omitted rest schema context
      return operation.toList ++ operations

def getFieldOperation (field : String) (value : SqlOperand Q) (schema : Option AnySchema)
    (context : SqlOperationContext Q W) : Build W (Option (Text W)) := do
  let column := columnOf context schema field
  match value with
  | .array items =>
    if field = "AND" || field = "OR" then
      return groupOperations field (← getLogicalOperations field items schema context)
    else if field = "NOT" then throw (.invalidOperand none)
    else return some (← getEqualOperation context column.path column.schema value)
  | .object fields =>
    if field = "AND" || field = "OR" then throw (.invalidOperand none)
    else if field = "NOT" then
      -- `getNegateOperations`
      match combineOperations (← getFilterOperations [] fields schema context) with
      | some operation => return some (sql "NOT " ++ operation)
      | none => return none
    else
      let columnContext := { context with flags := some (flagsOf fields) }
      match fields.filter fun entry => !flagNames.contains entry.1 with
      | [] => throw (.missingOperator column.name)
      | [(operator, operand)] =>
        -- `getSingleOperation`
        match ← getFinalOperation column.path column.schema operator operand columnContext with
        | some operation => return some operation
        | none =>
          return combineOperations (← getFilterOperations flagNames fields column.schema
            { columnContext with path := some column.path })
      | entries =>
        if !column.nested then
          return combineOperations
            (← getMultipleOperations column.path column.schema entries columnContext)
        else
          return combineOperations (← getFilterOperations flagNames fields column.schema
            { context with path := some column.path })
  | _ =>
    if field = "AND" || field = "OR" then throw (.invalidOperand none)
    else if field = "NOT" then
      if value.isAnyObject then return none else throw (.invalidOperand none)
    else match value with
      | .null => return some (getIsNullOperation column.path (.boolean true : SqlOperand Q))
      | .select statement => return some (← getExistsOperation context statement)
      | .instance_ _ | .condition _ _ => throw (.missingOperator column.name)
      | _ => return some (← getEqualOperation context column.path column.schema value)

/-- The items of a group are objects of filters, and conditions. -/
def getLogicalOperations (field : String) (items : List (SqlOperand Q)) (schema : Option AnySchema)
    (context : SqlOperationContext Q W) : Build W (List (Text W)) := do
  match items with
  | [] => return []
  | .condition parts last :: rest =>
    let operation ← buildCondition context parts last
    return operation :: (← getLogicalOperations field rest schema context)
  | .object filters :: rest =>
    let operations ← getFilterOperations [] filters schema context
    let others ← getLogicalOperations field rest schema context
    if field = "AND" then return operations ++ others
    else return (combineOperations operations).toList ++ others
  | _ :: rest => getLogicalOperations field rest schema context

end

/-- `SqlConditions.build`: the text and its variables. -/
def buildConditions (context : SqlOperationContext Q W) (schema : Option AnySchema)
    (filters : SqlFilters Q) : Build W (Option (Text W × List W)) := do
  let (operations, values) ← withVariables (getFilterOperations [] filters schema context)
  if operations.isEmpty then return none else return some (join " AND " operations, values)

end Ez4.PgSql

import Ez4.Dynamo.Where

/-! # The reads of a DynamoDB table

`prepareSelect`, `prepareOrderFields`, `findBestSecondaryIndex` and the commands
of `client/common/queries.ts` that read: those of `findOne`, `findMany`, `exists`
and `count`, and the reads that `updateMany` and `deleteMany` start with. -/
namespace Ez4.Dynamo
open Ez4.Utils Ez4.Schema Ez4.PgSql

inductive QueryError
  | where_ (error : WhereError)
  /-- `Order ${order} isn't supported.` -/
  | order (order : Value)

/-! ## Indexes -/

def getIndexName (indexParts : List String) : String :=
  toKebabCase ("-".intercalate indexParts) ++ "-index"

mutual

/-- Nothing in it is defined but objects in which nothing is. -/
def isEmptyObject (fields : List (String × Value)) : Bool :=
  match fields with
  | [] => true
  | (_, value) :: rest => isEmptyValue value && isEmptyObject rest

def isEmptyValue (value : Value) : Bool :=
  match value with
  | .undefined => true
  | .obj fields => isEmptyObject fields
  | _ => false

end

/-- The loop over the keys: the indexes that have all keys so far, and the last
of them that were any. -/
def bestIndexes (partitionKey : String) (currentIndexes : List (List String))
    (best : Option (List (List String))) : List String → Option (List (List String))
  | [] => best
  | fieldKey :: rest =>
    if partitionKey = fieldKey then none
    else
      let currentIndexes := currentIndexes.filter fun index => index.contains fieldKey
      let best := if currentIndexes.isEmpty then best else some currentIndexes
      bestIndexes partitionKey currentIndexes best rest

/-- The keys of a table: those of its primary index and of the others. -/
structure TableIndexes where
  partitionKey : String
  sortKey : Option String := none
  secondaryIndexes : List (List String) := []
  /-- No two indexes of a table have one name. -/
  names_nodup : (secondaryIndexes.map getIndexName).Nodup

def findBestSecondaryIndex (indexes : TableIndexes) (fields : Fields) : Option String :=
  if isEmptyObject fields then none
  else
    match bestIndexes indexes.partitionKey indexes.secondaryIndexes none (keysOf fields) with
    | none => none
    | some best =>
      let sorted := if best.length > 1 then best.mergeSort fun a b => a.length ≤ b.length else best
      sorted.head?.map getIndexName

/-! ## Statements -/

def getFieldOrder (order : Value) : Except QueryError String :=
  match order with
  | .str "asc" => .ok "ASC"
  | .str "desc" => .ok "DESC"
  | order => .error (.order order)

def prepareOrderFields (order : Fields) : Except QueryError String := do
  let operations ← (order.filter fun field => field.2.truthy).mapM fun (fieldKey, fieldOrder) => do
    return "\"" ++ fieldKey ++ "\" " ++ (← getFieldOrder fieldOrder)
  return ",".intercalate operations

/-- The list of a `SELECT`. -/
def selectList (selectFields : List String) : String :=
  if selectFields.isEmpty then "*" else ", ".intercalate selectFields

section
variable (deepEqual : AnySchema → AnySchema → Bool)

mutual

/-- The fields on the list of `getSelectFields`. -/
def getSelectFields (fields : List (String × Value)) (schema : Option AnySchema)
    (path : Option String) : List String :=
  match fields with
  | [] => []
  | (fieldKey, fieldValue) :: rest =>
    let fieldSchema := schema.bind fun schema => getSchemaProperty deepEqual schema fieldKey
    getSelectField fieldValue fieldSchema (fieldPath path fieldKey) ++
      getSelectFields rest schema path

def getSelectField (fieldValue : Value) (fieldSchema : Option AnySchema) (fieldPath : String) :
    List String :=
  match fieldValue with
  | .obj fields =>
    match fieldSchema with
    | some (.array _ _ _) => [fieldPath]
    | fieldSchema => [selectList (getSelectFields fields fieldSchema (some fieldPath))]
  | value => if value.truthy then [fieldPath] else []

end

/-- What `prepareSelect` puts together. -/
structure SelectStatement where
  selectFields : String
  table : String
  index : Option String := none
  whereFields : Option String := none
  orderFields : Option String := none

/-- The text of the statement. -/
def SelectStatement.text (statement : SelectStatement) : String :=
  " ".intercalate (
    ["SELECT " ++ statement.selectFields ++ " FROM \"" ++ statement.table ++ "\"" ++
      (match statement.index with
        | some index => ".\"" ++ index ++ "\""
        | none => "")] ++
    (statement.whereFields.map fun fields => "WHERE " ++ fields).toList ++
    (statement.orderFields.map fun fields => "ORDER BY " ++ fields).toList)

/-- Nothing when the text is empty. -/
def nonEmpty (text : String) : Option String := if text = "" then none else some text

/-- `Query.FindManyInput`. A property that is not given is none. -/
structure FindManyInput where
  select : Fields := []
  where_ : Option Fields := none
  order : Option Fields := none
  cursor : Option Value := none
  limit : Option Value := none
  consistent : Option Bool := none

/-- The condition of a query, when it has one. -/
def FindManyInput.whereFields (query : FindManyInput) (schema : ObjectSchema) :
    Except QueryError Operation :=
  match query.where_ with
  | some where_ => (prepareWhereFields deepEqual where_ schema).mapError .where_
  | none => .ok ("", [])

/-- The order of a query, when it has one. -/
def FindManyInput.orderFields (query : FindManyInput) : Except QueryError String :=
  match query.order with
  | some order => prepareOrderFields order
  | none => .ok ""

def prepareSelect (table : String) (schema : ObjectSchema) (index : Option String)
    (query : FindManyInput) : Except QueryError (SelectStatement × List Value) := do
  let (whereFields, values) ← query.whereFields deepEqual schema
  let orderFields ← query.orderFields
  return (
    { selectFields := selectList (getSelectFields deepEqual query.select (some (.object schema)) none)
      table, index, whereFields := nonEmpty whereFields, orderFields := nonEmpty orderFields },
    if whereFields = "" then [] else values)

/-! ## Commands -/

/-- `ExecuteStatementCommandInput` -/
structure Command where
  statement : SelectStatement
  parameters : List Value := []
  consistentRead : Option Bool := none
  limit : Option Value := none
  nextToken : Option Value := none

/-- A read is strongly consistent unless the query asks otherwise. A secondary
index only serves eventual reads. -/
def isConsistentRead (secondaryIndex : Option String) (consistent : Option Bool) : Bool :=
  secondaryIndex.isNone && consistent != some false

/-- The table that is read: its name, schema and keys. -/
structure Table where
  name : String
  schema : ObjectSchema
  indexes : TableIndexes

variable (table : Table)

def prepareFindOne (select where_ : Fields) (consistent : Option Bool) :
    Except QueryError Command := do
  let secondaryIndex := findBestSecondaryIndex table.indexes where_
  let (statement, parameters) ← prepareSelect deepEqual table.name table.schema secondaryIndex
    { select, where_ := some where_ }
  return {
    statement, parameters
    consistentRead := some (isConsistentRead secondaryIndex consistent)
    limit := some (.num (.finite 1)) }

/-- `order ?? where ?? {}` -/
def FindManyInput.indexFields (query : FindManyInput) : Fields :=
  (query.order.or query.where_).getD []

def prepareFindMany (query : FindManyInput) : Except QueryError Command := do
  let secondaryIndex := findBestSecondaryIndex table.indexes query.indexFields
  let (statement, parameters) ←
    prepareSelect deepEqual table.name table.schema secondaryIndex query
  return {
    statement, parameters
    consistentRead := some (isConsistentRead secondaryIndex query.consistent)
    limit := query.limit
    nextToken := query.cursor }

/-- The select of the reads of `prepareUpdateMany` and `prepareDeleteMany`. -/
def withKeys (indexes : TableIndexes) (select : Fields) : Fields :=
  let select := match indexes.sortKey with
    | some sortKey => assign select sortKey (.bool true)
    | none => select
  assign select indexes.partitionKey (.bool true)

/-- The read of `prepareUpdateMany` and of `prepareDeleteMany`. -/
def prepareFindWritten (query : FindManyInput) : Except QueryError Command :=
  prepareFindMany deepEqual table
    { query with select := withKeys table.indexes query.select }

/-- The select of `prepareExists` and `prepareCount`. -/
def keySelect (indexes : TableIndexes) : Fields := [(indexes.partitionKey, .bool true)]

def prepareExists (where_ : Option Fields) (consistent : Option Bool) :
    Except QueryError Command := do
  let secondaryIndex := findBestSecondaryIndex table.indexes (where_.getD [])
  let (statement, parameters) ← prepareSelect deepEqual table.name table.schema secondaryIndex
    { select := keySelect table.indexes, where_ }
  return {
    statement, parameters
    consistentRead := some (isConsistentRead secondaryIndex consistent)
    limit := some (.num (.finite 1)) }

def prepareCount (where_ : Option Fields) : Except QueryError Command := do
  let secondaryIndex := findBestSecondaryIndex table.indexes (where_.getD [])
  let (statement, parameters) ← prepareSelect deepEqual table.name table.schema secondaryIndex
    { select := keySelect table.indexes, where_ }
  return { statement, parameters }

end

end Ez4.Dynamo

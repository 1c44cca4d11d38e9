import Ez4.Library.Keyset
import Ez4.PgClient.CursorTypes

/-! # Pages with a cursor

`findMany` (`service/table.ts`) with what it prepares (`queries/select.ts`,
`queries/utils/cursor.ts`), over a table whose rows give a value to each column.
The database is a parameter: how it compares the values of a column, sorts rows,
writes a value as text and casts the text back. Its row comparison is
lexicographic. -/
namespace Ez4.PgClient
open Ez4.Library Ez4.Utils

variable {V : Type}

abbrev Row (V : Type) := String → V

structure Postgres (V : Type) where
  /-- The comparison of the type of each column. -/
  compare : String → Criterion V
  /-- The text of a value; null has none. -/
  cursorText : CursorText → V → Option String
  /-- `CAST(text AS type)` -/
  cast : SqlType → String → Option V
  /-- What `ORDER BY` does with the rows of a statement. -/
  sort : Criterion (Row V) → List (Row V) → List (Row V)
  sort_perm : ∀ c rows, (sort c rows).Perm rows
  sort_sorted : ∀ c rows, (sort c rows).Pairwise fun r s => c.le r s = true

/-! ## Conditions -/

/-- `Order` -/
inductive Direction
  | asc
  | desc
deriving DecidableEq

/-- An order as it is asked for, where a column may have no direction. -/
abbrev InputOrder := List (String × Option Direction)

abbrev SqlOrder := List (String × Direction)

inductive SqlOperator
  | equal
  | greater
  | greaterOrEqual
  | less
  | lessOrEqual
deriving DecidableEq

/-- `CAST(:n AS type)`, with the text bound to the variable. -/
structure SqlValue where
  text : String
  type : SqlType
deriving DecidableEq

/-- `column operator value` or, for several columns,
`(columns) operator (values)` (`getRowComparison`). -/
structure Comparison where
  columns : List String
  operator : SqlOperator
  values : List SqlValue
deriving DecidableEq

inductive CursorCondition
  | row (comparison : Comparison)
  /-- `bound AND (c11 AND .. OR c21 AND .. OR ..)` -/
  | expanded (bound : Comparison) (conditions : List (List Comparison))
deriving DecidableEq

/-- The operator over the first cells that differ. -/
def SqlOperator.strict (operator : SqlOperator) (c : Criterion V) (x y : V) : Bool :=
  match operator with
  | .equal => false
  | .greater | .greaterOrEqual => c.before y x
  | .less | .lessOrEqual => c.before x y

/-- The operator over cells that are all equal. -/
def SqlOperator.reflexive : SqlOperator → Bool
  | .equal | .greaterOrEqual | .lessOrEqual => true
  | .greater | .less => false

/-- A row comparison: the first two cells that differ decide. -/
def rowCompare (operator : SqlOperator) : List (Criterion V × V × V) → Bool
  | [] => operator.reflexive
  | (c, x, y) :: rest => if c.same x y then rowCompare operator rest else operator.strict c x y

/-- Whether a row meets the comparison, whose columns hold no null; none when a
text can't be cast. -/
def Comparison.holds (pg : Postgres V) (row : Row V) (comparison : Comparison) : Option Bool := do
  let values ← comparison.values.mapM fun value => pg.cast value.type value.text
  let cells := (comparison.columns.zip values).map fun (column, value) =>
    (pg.compare column, row column, value)
  return rowCompare comparison.operator cells

def CursorCondition.holds (pg : Postgres V) (row : Row V) : CursorCondition → Option Bool
  | .row comparison => comparison.holds pg row
  | .expanded bound conditions => do
    let bounded ← bound.holds pg row
    let alternatives ← conditions.mapM fun equalities => equalities.mapM (·.holds pg row)
    return bounded && alternatives.any fun cells => cells.all id

/-- An entry of `AND`. -/
inductive SqlFilter (V : Type)
  | rows (keeps : Row V → Bool)
  | cursor (condition : CursorCondition)

/-- The filters of a statement: its list of `AND`, and the rows that all its
other entries keep. -/
structure SqlFilters (V : Type) where
  others : Row V → Bool
  AND : Option (List (SqlFilter V))

def SqlFilter.holds (pg : Postgres V) (row : Row V) : SqlFilter V → Option Bool
  | .rows keeps => some (keeps row)
  | .cursor condition => condition.holds pg row

def SqlFilters.holds (pg : Postgres V) (row : Row V) (filters : SqlFilters V) : Option Bool := do
  let all ← (filters.AND.getD []).mapM (·.holds pg row)
  return filters.others row && all.all id

/-! ## The cursor -/

/-- `CursorField` -/
structure CursorField where
  column : String
  columnAlias : String
deriving DecidableEq

def cursorAlias (index : Nat) : String := s!"__EZ4_CURSOR_{index}"

def getCursorFields (order : SqlOrder) : List CursorField :=
  (keysOf order).mapIdx fun index column => ⟨column, cursorAlias index⟩

/-- A cursor, as what `JSON.parse` gives for the bytes it encodes; none when
it throws. -/
abbrev Cursor := Option Value

/-- A value in an array of `JSON.stringify`. -/
def jsonItem : Value → Value
  | .undefined => .null
  | value => value

/-- The page without its cursor columns and the record past its end, and the
cursor when that record was there. -/
def takeRecordsCursor (records : List Fields) (fields : List CursorField) (take : Nat) :
    List Fields × Option Cursor :=
  let lastRecord := if take < records.length then records[take - 1]? else none
  let entries := lastRecord.map fun record =>
    fields.map fun field => Value.arr [.str field.column, jsonItem (get record field.columnAlias)]
  let page := (records.take take).map fun record =>
    fields.foldl (fun record field => remove record field.columnAlias) record
  (page, entries.map fun entries => some (.arr entries))

/-- `isCursorEntry`, with the entry. -/
def cursorEntry? : Value → Option (String × String)
  | .arr [.str column, .str value] => some (column, value)
  | _ => none

def decodeCursor (cursor : Cursor) : Except QueryError (List (String × String)) :=
  match cursor with
  | some (.arr (item :: items)) =>
    match (item :: items).mapM cursorEntry? with
    | some entries => .ok entries
    | none => .error (.invalidCursor "it cannot be decoded")
  | _ => .error (.invalidCursor "it cannot be decoded")

def Direction.operator : Direction → SqlOperator
  | .asc => .greater
  | .desc => .less

/-- The operator with `=` after it. -/
def Direction.boundOperator : Direction → SqlOperator
  | .asc => .greaterOrEqual
  | .desc => .lessOrEqual

/-- The condition over the columns of the order, the values of the position. -/
def positionCondition (order : SqlOrder) (values : List SqlValue) : CursorCondition :=
  let columns := keysOf order
  let directions := order.map Prod.snd
  let firstDirection := directions.headD .asc
  if directions.all (· = firstDirection) then
    .row ⟨columns, firstDirection.operator, values⟩
  else
    let conditions := order.mapIdx fun index (column, direction) =>
      let equalities := ((columns.zip values).take index).map fun (previous, value) =>
        (⟨[previous], .equal, [value]⟩ : Comparison)
      equalities ++ [⟨[column], direction.operator, (values.drop index).take 1⟩]
    let leadingLength := directions.findIdx (· ≠ firstDirection)
    let leadingBound := ⟨columns.take leadingLength, firstDirection.boundOperator,
      values.take leadingLength⟩
    .expanded leadingBound conditions

/-- The first entry whose text its type refuses. -/
def malformedCell? (entries : List (String × String)) (types : List SqlType) :
    Option (String × String) :=
  ((entries.zip types).find? fun (entry, type) => !type.isValid entry.2).map Prod.fst

def getCursorCondition (cursor : Cursor) (order : SqlOrder)
    (schema : List (String × ColumnSchema)) (primaryColumns : Option (List String)) :
    Except QueryError CursorCondition := do
  if primaryColumns.getD [] = [] then
    throw (.unsupportedCursor "the table has no primary index to make the order unique")
  let columnTypes ← (keysOf order).mapM fun column =>
    getCursorColumnType column schema (primaryColumns.getD [])
  let entries ← decodeCursor cursor
  if entries.map Prod.fst ≠ keysOf order then
    throw (.invalidCursor "it was made for another order")
  match malformedCell? entries columnTypes with
  | some (column, _) => throw (.invalidCursor s!"value of '{column}' is malformed")
  | none =>
    let values := (entries.zip columnTypes).map fun (entry, type) => ⟨entry.2, type⟩
    return positionCondition order values

/-! ## The statement of a page -/

/-- The order without the columns that have no direction. -/
def definedOrder (order : InputOrder) : SqlOrder :=
  order.foldl (fun pageOrder (column, direction) =>
    match direction with
    | some direction => assign pageOrder column direction
    | none => pageOrder) []

/-- `pageOrder[column] ??= direction` -/
def assignMissing (direction : Direction) (pageOrder : SqlOrder) (column : String) : SqlOrder :=
  if (find pageOrder column).isSome then pageOrder else assign pageOrder column direction

/-- The direction of the last column that has one. -/
def lastDirection? (order : InputOrder) : Option Direction := (order.filterMap Prod.snd).getLast?

def getTiebreakOrder (order : InputOrder) (primaryColumns : Option (List String)) : SqlOrder :=
  match lastDirection? order, primaryColumns with
  | some direction, some columns => columns.foldl (assignMissing direction) (definedOrder order)
  | _, _ => definedOrder order

/-- The expressions of a record, by the name of their column. -/
abbrev RecordColumns (V : Type) := List (String × (Row V → Value))

structure FindManyInput (V : Type) where
  /-- What `getSelectFields` selects. -/
  select : RecordColumns V
  /-- `where` -/
  filters : Option (SqlFilters V)
  order : Option InputOrder
  take : Option Nat
  skip : Option Nat
  cursor : Option Cursor
  count : Bool

/-- The order of the statement, which leaves out columns without a direction. -/
def getPageOrder (input : FindManyInput V) (primaryColumns : Option (List String)) :
    Option SqlOrder :=
  input.order.map fun order =>
    if input.take.isSome || input.skip.isSome || input.cursor.isSome then
      getTiebreakOrder order primaryColumns
    else definedOrder order

structure SelectStatement (V : Type) where
  record : RecordColumns V
  filters : Option (SqlFilters V)
  order : Option SqlOrder
  skip : Option Nat
  take : Option Nat

/-- The table a client reads. -/
structure Table (V : Type) where
  schema : List (String × ColumnSchema)
  /-- `primaryKey` -/
  primaryColumns : Option (List String)
  rows : List (Row V)

/-- The text of the column as a cell of a record. -/
def cursorCell (pg : Postgres V) (columnSchema : ColumnSchema) (column : String) (row : Row V) :
    Value :=
  match pg.cursorText (getCursorColumn columnSchema) (row column) with
  | some text => .str text
  | none => .null

def assignCursorFields (pg : Postgres V) (record : RecordColumns V) (order : SqlOrder)
    (schema : List (String × ColumnSchema)) :
    Except QueryError (RecordColumns V × List CursorField) := do
  let record ← (getCursorFields order).foldlM (fun record field =>
    match find schema field.column with
    | none => throw (.missingFieldSchema field.column)
    | some columnSchema =>
      return assign record field.columnAlias (cursorCell pg columnSchema field.column)) record
  return (record, getCursorFields order)

/-- `order && !isEmptyObject(order)`, for a page with a `take` above zero. -/
def cursorOrder? (input : FindManyInput V) (order : Option SqlOrder) : Option SqlOrder :=
  match input.take, order with
  | some take, some order => if 0 < take ∧ order ≠ [] then some order else none
  | _, _ => none

/-- The filters, with the condition in their list of `AND`. -/
def andCondition (filters : Option (SqlFilters V)) (condition : CursorCondition) :
    SqlFilters V :=
  let filters := filters.getD ⟨fun _ => true, none⟩
  { filters with AND := some (filters.AND.getD [] ++ [.cursor condition]) }

def prepareSelectQuery (pg : Postgres V) (table : Table V) (input : FindManyInput V) :
    Except QueryError (SelectStatement V × Option (List CursorField)) := do
  let order := getPageOrder input table.primaryColumns
  let (record, cursorFields) ←
    match cursorOrder? input order with
    | some order => do
      let (record, fields) ← assignCursorFields pg input.select order table.schema
      pure (record, some fields)
    | none => pure (input.select, none)
  let filters ←
    match input.cursor with
    | some cursor => do
      let condition ← getCursorCondition cursor (order.getD []) table.schema table.primaryColumns
      pure (some (andCondition input.filters condition))
    | none => pure input.filters
  let take := input.take.map fun take => if cursorFields.isSome then take + 1 else take
  return ({ record, filters, order, skip := input.skip, take }, cursorFields)

/-! ## Reading -/

/-- A column of an `ORDER BY`. -/
def orderCriterion (pg : Postgres V) (entry : String × Direction) : Criterion (Row V) :=
  let column := (pg.compare entry.1).on fun row : Row V => row entry.1
  match entry.2 with
  | .asc => column
  | .desc => column.reverse

def rowCriteria (pg : Postgres V) (order : SqlOrder) : List (Criterion (Row V)) :=
  order.map (orderCriterion pg)

/-- Whether the row meets the `WHERE` of the statement, if it has one. -/
def rowMatches (pg : Postgres V) (filters : Option (SqlFilters V)) (row : Row V) : Option Bool :=
  match filters with
  | none => some true
  | some filters => filters.holds pg row

def matchingRows (pg : Postgres V) (rows : List (Row V)) (filters : Option (SqlFilters V)) :
    Except QueryError (List (Row V)) :=
  match rows.mapM (rowMatches pg filters) with
  | some kept => .ok ((rows.zip kept).filterMap fun (row, keep) => if keep then some row else none)
  | none => .error .statementFailed

/-- The record of a row. -/
def readRecord (record : RecordColumns V) (row : Row V) : Fields :=
  record.map fun (name, cell) => (name, cell row)

/-- `sendStatement` -/
def sendSelect (pg : Postgres V) (rows : List (Row V)) (statement : SelectStatement V) :
    Except QueryError (List Fields) := do
  let kept ← matchingRows pg rows statement.filters
  let sorted := pg.sort (lexicographic (rowCriteria pg (statement.order.getD []))) kept
  let skipped := sorted.drop (statement.skip.getD 0)
  let taken := match statement.take with
    | some take => skipped.take take
    | none => skipped
  return taken.map (readRecord statement.record)

structure FindManyResult where
  records : List Fields
  total : Option Nat
  cursor : Option Cursor

def findMany (pg : Postgres V) (table : Table V) (input : FindManyInput V) :
    Except QueryError FindManyResult := do
  let (statement, cursorFields) ← prepareSelectQuery pg table input
  let records ← sendSelect pg table.rows statement
  let (records, cursor) :=
    match cursorFields, input.take with
    | some fields, some take => takeRecordsCursor records fields take
    | _, _ => (records, none)
  if input.count then
    let counted ← matchingRows pg table.rows input.filters
    return { records, total := some counted.length, cursor }
  else
    return { records, total := none, cursor }

/-- Reading pages, each with the cursor of the page before, until a page has
none; none when that takes more pages than the given number. -/
def readPages (pg : Postgres V) (table : Table V) (input : FindManyInput V) :
    Nat → Option Cursor → Except QueryError (Option (List (List Fields)))
  | 0, _ => .ok none
  | pages + 1, cursor => do
    let page ← findMany pg table { input with cursor }
    match page.cursor with
    | none => return some [page.records]
    | some next =>
      let rest ← readPages pg table input pages (some next)
      return rest.map (page.records :: ·)

end Ez4.PgClient

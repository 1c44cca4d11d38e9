import Ez4.Utils.Value

/-! # The types a cursor compares

`getCursorColumnType` (`queries/utils/cursor.ts`), and the texts its types
accept: the patterns of the module, and `isDate`, `isTime` and `isDateTime`
(`string/date.ts`). -/
namespace Ez4.PgClient
open Ez4.Utils

/-- The fields a column schema is read for. -/
inductive ColumnKind
  | boolean
  | number (format : Option String)
  | enum
  | string (format : Option String)
  /-- Objects, arrays and every other schema. -/
  | other
deriving DecidableEq

structure ColumnSchema where
  kind : ColumnKind
  nullable : Bool
  optional : Bool
deriving DecidableEq

/-- `isNullishSchema` -/
def ColumnSchema.isNullish (schema : ColumnSchema) : Bool := schema.nullable || schema.optional

/-- The type a cursor value is cast to. -/
inductive SqlType
  | boolean
  | bigint
  | decimal
  | text
  | uuid
  | timestamptz
  | date
  | time
deriving DecidableEq

/-! ## Patterns -/

def isHexDigit (c : Char) : Bool :=
  c.isDigit || ('a' ≤ c && c ≤ 'f') || ('A' ≤ c && c ≤ 'F')

def dropSign : List Char → List Char
  | '-' :: rest => rest
  | text => text

/-- `INTEGER_PATTERN` -/
def integerPattern (text : List Char) : Bool :=
  let digits := dropSign text
  !digits.isEmpty && digits.all Char.isDigit

/-- `DECIMAL_PATTERN` -/
def decimalPattern (text : List Char) : Bool :=
  let (whole, rest) := (dropSign text).span Char.isDigit
  !whole.isEmpty &&
    match rest with
    | [] => true
    | '.' :: fraction => !fraction.isEmpty && fraction.all Char.isDigit
    | _ => false

/-- Groups of hexadecimal digits with a hyphen between them. -/
def hexGroups : List Nat → List Char → Bool
  | [], text => text.isEmpty
  | [size], text => text.length == size && text.all isHexDigit
  | size :: sizes, text =>
    (text.take size).length == size && (text.take size).all isHexDigit &&
      match text.drop size with
      | '-' :: rest => hexGroups sizes rest
      | _ => false

/-- `UUID_PATTERN` -/
def uuidPattern (text : List Char) : Bool := hexGroups [8, 4, 4, 4, 12] text

/-! ## Dates and times -/

/-- A number of the given count of digits, and the text after it. -/
def takeDigits (count : Nat) (text : List Char) : Option (Nat × List Char) :=
  let digits := text.take count
  if digits.length = count ∧ digits.all Char.isDigit then
    some (digits.foldl (fun n c => 10 * n + (c.toNat - '0'.toNat)) 0, text.drop count)
  else none

def takeChar (c : Char) : List Char → Option (List Char)
  | [] => none
  | d :: rest => if d = c then some rest else none

/-- `DATE_PATTERN` -/
def takeDate (text : List Char) : Option ((Nat × Nat × Nat) × List Char) := do
  let (year, text) ← takeDigits 4 text
  let (month, text) ← takeDigits 2 (← takeChar '-' text)
  let (day, text) ← takeDigits 2 (← takeChar '-' text)
  if 1 ≤ month ∧ month ≤ 12 ∧ 1 ≤ day ∧ day ≤ 31 then some ((year, month, day), text) else none

/-- The hours and minutes of a time or of an offset. -/
def takeClock (text : List Char) : Option (List Char) := do
  let (hours, text) ← takeDigits 2 text
  let (minutes, text) ← takeDigits 2 (← takeChar ':' text)
  if hours ≤ 23 ∧ minutes ≤ 59 then some text else none

/-- `TIME_PATTERN` -/
def takeTime (text : List Char) : Option (List Char) := do
  let text ← takeClock text
  let (seconds, text) ← takeDigits 2 (← takeChar ':' text)
  if seconds ≤ 59 then some text else none

/-- `MS_PATTERN`, which may be left out. -/
def takeFraction : List Char → Option (List Char)
  | '.' :: text =>
    let (digits, rest) := text.span Char.isDigit
    if digits.isEmpty then none else some rest
  | text => some text

/-- `TZ_PATTERN`, which may be left out, at the end of the text. -/
def isZone : List Char → Bool
  | [] => true
  | ['Z'] => true
  | '+' :: text => takeClock text == some []
  | '-' :: text => takeClock text == some []
  | _ => false

/-- What follows the date of a date-time, or a time on its own. -/
def isClockTime (text : List Char) : Bool :=
  match takeTime text >>= takeFraction with
  | some rest => isZone rest
  | none => false

def daysInMonth (year month : Nat) : Nat :=
  if month = 2 then
    if year % 4 = 0 ∧ (year % 100 ≠ 0 ∨ year % 400 = 0) then 29 else 28
  else if month = 4 ∨ month = 6 ∨ month = 9 ∨ month = 11 then 30
  else 31

/-- `ensureValidDate`: a day past the end of its month rolls over into the next
one, and `new Date` reads a year below 100 as one of the twentieth century. -/
def ensureValidDate (date : Nat × Nat × Nat) : Bool :=
  let (year, month, day) := date
  let fullYear := if year < 100 then 1900 + year else year
  day ≤ daysInMonth fullYear month

/-- `isDate` -/
def isDate (text : List Char) : Bool :=
  match takeDate text with
  | some (date, []) => ensureValidDate date
  | _ => false

/-- `isTime` -/
def isTime (text : List Char) : Bool := isClockTime text

/-- `isDateTime` -/
def isDateTime (text : List Char) : Bool :=
  match takeDate text with
  | some (date, 'T' :: rest) => isClockTime rest && ensureValidDate date
  | _ => false

example : isDateTime "2024-02-29T10:15:59.123456Z".toList = true := by decide +kernel

example : isDateTime "10000-01-01T00:00:00.000000Z".toList = false := by decide +kernel

/-! ## Column types -/

/-- The texts a type of the cursor accepts (`isValid`). -/
def SqlType.isValid (type : SqlType) (value : String) : Bool :=
  match type with
  | .boolean => value = "true" || value = "false"
  | .bigint => integerPattern value.toList
  | .decimal => decimalPattern value.toList
  | .text => true
  | .uuid => uuidPattern value.toList
  | .timestamptz => isDateTime value.toList
  | .date => isDate value.toList
  | .time => isTime value.toList

def getColumnType (schema : ColumnSchema) : Option SqlType :=
  match schema.kind with
  | .boolean => some .boolean
  | .number format => if format = some "integer" then some .bigint else some .decimal
  | .enum => some .text
  | .string (some "uuid") => some .uuid
  | .string (some "date-time") => some .timestamptz
  | .string (some "date") => some .date
  | .string (some "time") => some .time
  | .string _ => some .text
  | .other => none

/-- How `getCursorColumn` reads a column as text. -/
inductive CursorText
  /-- `column::text` -/
  | cast
  /-- `to_char` in UTC, down to the microsecond -/
  | dateTime
  | time
  | date
deriving DecidableEq

def getCursorColumn (schema : ColumnSchema) : CursorText :=
  match schema.kind with
  | .string (some "date-time") => .dateTime
  | .string (some "time") => .time
  | .string (some "date") => .date
  | _ => .cast

/-- The errors of a query, and the reasons they give. -/
inductive QueryError
  | missingFieldSchema (field : String)
  | unsupportedCursor (reason : String)
  | invalidCursor (reason : String)
  /-- A statement the database rejected. -/
  | statementFailed
deriving DecidableEq

/-- `getCursorColumnType` -/
def getCursorColumnType (column : String) (schema : List (String × ColumnSchema))
    (primaryColumns : List String) : Except QueryError SqlType :=
  match find schema column with
  | none => .error (.missingFieldSchema column)
  | some columnSchema =>
    if columnSchema.isNullish && !primaryColumns.contains column then
      .error (.unsupportedCursor
        s!"the order column '{column}' is nullable, and a cursor over null values isn't supported")
    else
      match getColumnType columnSchema with
      | none => .error (.unsupportedCursor s!"the order column '{column}' has no comparable type")
      | some columnType => .ok columnType

end Ez4.PgClient

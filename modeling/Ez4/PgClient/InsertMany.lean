import Mathlib.Data.Rat.Floor
import Ez4.PgSql.Text

/-! # Insertions of many records

`prepareInsertMany` (`queries/queries.ts`), with what `SqlInsertStatement.build`
writes for records of values. The list is cut by an estimate of the parameters,
and each part again by how far its statement passes the limits. -/
namespace Ez4.PgClient
open Ez4.Utils Ez4.Schema Ez4.PgSql

/-! ## The statement -/

/-- A column without a value is `undefined`. -/
abbrev SqlRecord := Fields

/-- A variable of the driver, by the name of its place. -/
structure FieldParameter (π : Type) where
  name : String
  content : π

/-- What a cell of the values stands for. -/
inductive Cell (π : Type)
  | default
  | null
  | placeholder (index : Nat) (value : FieldParameter π)

/-- What the insertion is made with, beside the records. -/
structure InsertManyInput (π : Type) where
  table : String
  schema : ObjectSchema
  skipDuplicates : Bool := false
  /-- The result columns of `RETURNING`, if any are selected. -/
  returning : Option String := none
  /-- `driver.prepareVariable`, but for the name. -/
  content : Value → Option AnySchema → π
  /-- `Buffer.byteLength(JSON.stringify(variables))` -/
  variablesSize : List (FieldParameter π) → Nat
  /-- `Math.floor(length / excess)`, as doubles are divided. -/
  share : Nat → Rat → Nat
  /-- An excess is at least a byte over, which is more than a rounding. -/
  share_lt : ∀ {length : Nat} {excess : Rat}, 0 < length → 1 < excess → share length excess < length

structure PgExecuteStatement (π : Type) where
  query : String
  boundVariables : List (FieldParameter π)
  /-- The columns that are named, and the rows of cells for them. -/
  fields : List String
  rows : List (List (Cell π))

/-- `getFields` -/
def getFields (record : SqlRecord) : List String :=
  keysOf (record.filter fun column => !column.2.isUndefined)

/-- `SqlInsertStatement.fields` -/
def fieldsOf (records : List SqlRecord) : List String := (records.flatMap getFields).eraseDups

variable {π : Type}

namespace Cell

def text : Cell π → String
  | default => "DEFAULT"
  | null => "null"
  | placeholder index _ => ":" ++ toString index

def bound? : Cell π → Option (FieldParameter π)
  | placeholder _ value => some value
  | _ => none

end Cell

variable (input : InsertManyInput π)

/-- `getValueReferences`, with the counter before and after. -/
def getValueReferences (record : SqlRecord) : List String → Nat → List (Cell π) × Nat
  | [], counter => ([], counter)
  | fieldName :: rest, counter =>
    match get record fieldName with
    | .undefined =>
      let (cells, last) := getValueReferences record rest counter
      (.default :: cells, last)
    | .null =>
      let (cells, last) := getValueReferences record rest counter
      (.null :: cells, last)
    | value =>
      let content := input.content value (find input.schema.properties fieldName)
      let (cells, last) := getValueReferences record rest (counter + 1)
      (.placeholder counter ⟨toString counter, content⟩ :: cells, last)

/-- The rows of the records, with the counter that they share. -/
def getRows (fields : List String) : List SqlRecord → Nat → List (List (Cell π))
  | [], _ => []
  | record :: rest, counter =>
    let (cells, last) := getValueReferences input record fields counter
    cells :: getRows fields rest last

/-- `query.build()` of `prepareInsertManyQuery`. -/
def prepareStatement (records : List SqlRecord) :
    Except (SqlError (FieldParameter π)) (PgExecuteStatement π) :=
  let fields := fieldsOf records
  if records.length > 1 && fields.isEmpty then throw .emptyRecord
  else
    -- The records without columns are one row of defaults.
    let rows := if fields.isEmpty then [[]] else getRows input fields records 0
    let values := rows.map fun cells => "(" ++ ", ".intercalate (cells.map Cell.text) ++ ")"
    let statement := ["INSERT", "INTO", escapeSqlName input.table,
      if fields.isEmpty then "DEFAULT" else "(" ++ escapeSqlNames fields ++ ")", "VALUES"] ++
      (if fields.isEmpty then [] else [", ".intercalate values]) ++
      (if input.skipDuplicates then ["ON CONFLICT DO NOTHING"] else []) ++
      (input.returning.map ("RETURNING " ++ ·)).toList
    return { query := " ".intercalate statement
             boundVariables := rows.flatMap (·.filterMap Cell.bound?), fields, rows }

/-! ## The parts -/

/-- `MAX_STATEMENT_PARAMETERS` -/
def maxStatementParameters : Nat := 65535

/-- `MAX_STATEMENT_LENGTH` -/
def maxStatementLength : Nat := 65536

/-- `MAX_VARIABLES_SIZE` -/
def maxVariablesSize : Nat := 3 * 1024 * 1024

def getStatementExcess (statement : PgExecuteStatement π) : Rat :=
  max ((textLength statement.query : Rat) / maxStatementLength)
    ((input.variablesSize statement.boundVariables : Rat) / maxVariablesSize)

def getColumnsCount (records : List SqlRecord) : Nat := (fieldsOf records).length

def getChunks {α : Type} (list : List α) (size : Nat) (hsize : 0 < size) : List (List α) :=
  match list with
  | [] => []
  | first :: rest => (first :: rest).take size :: getChunks ((first :: rest).drop size) size hsize
termination_by list.length
decreasing_by simp only [List.length_drop, List.length_cons]; omega

section Chunks

variable {α : Type} {list chunk : List α} {size : Nat} {hsize : 0 < size}

theorem getChunks_nil : getChunks ([] : List α) size hsize = [] := by rw [getChunks]

theorem getChunks_of_ne (h : list ≠ []) :
    getChunks list size hsize = list.take size :: getChunks (list.drop size) size hsize := by
  cases list with
  | nil => exact absurd rfl h
  | cons first rest => rw [getChunks]

theorem flatten_getChunks (list : List α) : (getChunks list size hsize).flatten = list := by
  induction hn : list.length using Nat.strong_induction_on generalizing list with
  | _ n ih =>
    by_cases h : list = []
    · rw [h, getChunks_nil, List.flatten_nil]
    · rw [getChunks_of_ne h, List.flatten_cons, ih _ ?_ _ rfl, List.take_append_drop]
      have := List.length_pos_of_ne_nil h
      rw [List.length_drop]
      omega

theorem mem_getChunks (h : chunk ∈ getChunks list size hsize) :
    chunk ≠ [] ∧ chunk.length ≤ size ∧ chunk.length ≤ list.length := by
  induction hn : list.length using Nat.strong_induction_on generalizing list with
  | _ n ih =>
    by_cases hne : list = []
    · rw [hne, getChunks_nil] at h
      cases h
    · have hpos := List.length_pos_of_ne_nil hne
      rw [getChunks_of_ne hne] at h
      rcases List.mem_cons.mp h with rfl | h
      · have hlength := List.length_take (i := size) (l := list)
        refine ⟨List.ne_nil_of_length_pos (by omega), by omega, by omega⟩
      · have hlength := List.length_drop (i := size) (l := list)
        obtain ⟨hchunk, hsize, hle⟩ := ih _ (by omega) h rfl
        exact ⟨hchunk, hsize, by omega⟩

end Chunks

/-- How many records each part of a chunk over the limits gets. -/
def partSize (length : Nat) (excess : Rat) : Nat := max (input.share length excess) 1

theorem partSize_pos (length : Nat) (excess : Rat) : 0 < partSize input length excess :=
  Nat.lt_of_lt_of_le Nat.one_pos (Nat.le_max_right _ _)

/-- A chunk over the limits is cut into smaller ones. -/
theorem length_part_lt {chunk part : List SqlRecord} {excess : Rat} (h : ¬(excess ≤ 1 ∨ chunk.length = 1))
    (hm : part ∈ getChunks chunk (partSize input chunk.length excess) (partSize_pos input _ _)) :
    part.length < chunk.length := by
  rw [not_or, not_le] at h
  obtain ⟨hne, hsize, hle⟩ := mem_getChunks hm
  have hpos := List.length_pos_of_ne_nil hne
  have hshare := input.share_lt (by omega : 0 < chunk.length) h.1
  have := h.2
  unfold partSize at hsize
  omega

/-- `prepareStatements`, which splits a chunk over the limits. -/
def prepareStatements (chunk : List SqlRecord) :
    Except (SqlError (FieldParameter π)) (List (PgExecuteStatement π)) := do
  let statement ← prepareStatement input chunk
  let excess := getStatementExcess input statement
  if _h : excess ≤ 1 ∨ chunk.length = 1 then return [statement]
  else
    let parts ← (getChunks chunk (partSize input chunk.length excess)
      (partSize_pos input _ _)).attach.mapM fun part => prepareStatements part.1
    return parts.flatten
termination_by chunk.length
decreasing_by exact length_part_lt input (by assumption) part.2

/-- `chunkSize` of `prepareInsertMany` -/
def chunkSize (records : List SqlRecord) : Nat :=
  maxStatementParameters / max (getColumnsCount records) 1

/-- `prepareInsertMany`, from the records of `getInsertManyRecords`. With more
columns than parameters `getChunks` never ends, unless there is nothing to cut. -/
def prepareInsertMany (records : List SqlRecord) :
    Option (Except (SqlError (FieldParameter π)) (List (PgExecuteStatement π))) :=
  if h : 0 < chunkSize records then some do
    let parts ← (getChunks records (chunkSize records) h).mapM (prepareStatements input)
    return parts.flatten
  else if records.isEmpty then some (.ok [])
  else none

theorem prepareStatements_eq (chunk : List SqlRecord) : prepareStatements input chunk = (do
    let statement ← prepareStatement input chunk
    if getStatementExcess input statement ≤ 1 ∨ chunk.length = 1 then return [statement]
    else
      let parts ← (getChunks chunk (partSize input chunk.length (getStatementExcess input statement))
        (partSize_pos input _ _)).mapM (prepareStatements input)
      return parts.flatten) := by
  have hattach : ∀ l : List (List SqlRecord),
      (l.attach.mapM fun part => prepareStatements input part.1) =
        l.mapM (prepareStatements input) := by
    intro l
    conv_rhs => rw [← List.attach_map_subtype_val l, List.mapM_map]
    rfl
  rw [prepareStatements]
  simp only [hattach]
  rfl

end Ez4.PgClient

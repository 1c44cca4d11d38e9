import Mathlib.Data.List.Forall2
import Mathlib.Logic.Function.Basic
import Ez4.PgClient.Upsert

/-! # Statements that write relations

What `queries/update.ts` and `queries/insert.ts` share: the relations, with the
table that holds them (`queries/utils/relation.ts`), the data they are given in,
and the parts of one `WITH` statement, each of which reads the tables as they
were before it. -/
namespace Ez4.PgClient.RelationStatement
open Ez4.Utils Ez4.PgClient.Upsert

export Upsert (Row)

/-! ## Relations -/

/-- `PgRelationWithSchema`, of the table that declares it. -/
structure Relation where
  sourceTable : String
  sourceColumn : String
  sourceIndex : Option IndexType := none
  primaryColumn : String
  targetColumn : String
  targetIndex : Option IndexType := none
  deriving DecidableEq

/-- The record holds the relation when the foreign key is its own column. -/
def isRelationHolder (sourceIndex targetIndex : Option IndexType) : Bool :=
  sourceIndex = some .primary || sourceIndex = some .unique && targetIndex ≠ some .primary

def isPostCreationRelation (sourceIndex targetIndex : Option IndexType) : Bool :=
  !isRelationHolder sourceIndex targetIndex &&
    (targetIndex = some .primary || targetIndex = some .unique)

namespace Relation

def isHolder (relation : Relation) : Bool :=
  isRelationHolder relation.sourceIndex relation.targetIndex

/-- One related record at most. -/
def isSingle (relation : Relation) : Bool :=
  relation.sourceIndex = some .primary || relation.sourceIndex = some .unique

/-- The column that names a related record. -/
def relationColumn (relation : Relation) : String :=
  if relation.sourceIndex = some .primary || relation.sourceIndex = some .unique then
    relation.sourceColumn
  else relation.primaryColumn

end Relation

/-! ## Data -/

/-- A value of the data, where what is undefined is left out. -/
inductive DataField (V : Type)
  | value (value : Option V)
  /-- An object, with what a column of objects or of numbers makes of it, which is
  a nested update or an atomic operation. -/
  | object (fields : List (String × DataField V)) (operation : Option (Option V → Option V))

abbrev SqlData (V : Type) := List (String × DataField V)

variable {V : Type}

mutual

/-- `isEmptyObject`, where an empty object within counts for nothing. -/
def isEmptyObject : List (String × DataField V) → Bool
  | [] => true
  | (_, field) :: fields => isEmptyField field && isEmptyObject fields

def isEmptyField : DataField V → Bool
  | .value _ => false
  | .object fields _ => isEmptyObject fields

end

/-! ## Parts of a statement -/

/-- A part of a statement: the row that it writes in place of one of the table,
where it writes that one, and the rows that it inserts. -/
structure Part (V : Type) where
  table : String
  write : Row V → Option (Row V) := fun _ => none
  inserted : List (Row V) := []

/-- What the parts write in place of a row. -/
def writes (parts : List (Part V)) (table : String) (row : Row V) : List (Row V) :=
  parts.filterMap fun part => if part.table = table then part.write row else none

def insertedRows (parts : List (Part V)) (table : String) : List (Row V) :=
  parts.flatMap fun part => if part.table = table then part.inserted else []

/-- What may become of a row. When two parts write one row, only one of the
writes takes place. -/
def outcomes (parts : List (Part V)) (table : String) (row : Row V) : List (Row V) :=
  match writes parts table row with
  | [] => [row]
  | written => written

/-- The tables after the parts, each of which ran once. -/
def Outcome (parts : List (Part V)) (before after : Tables V) : Prop :=
  ∀ table, ∃ written,
    List.Forall₂ (fun row written => written ∈ outcomes parts table row) (before table) written ∧
      after table = written ++ insertedRows parts table

section
variable {parts : List (Part V)} {before : Tables V}

theorem outcomes_ne_nil (table : String) (row : Row V) : outcomes parts table row ≠ [] := by
  unfold outcomes
  split
  · exact List.cons_ne_nil row []
  · assumption

theorem outcome_exists (parts : List (Part V)) (before : Tables V) :
    ∃ after, Outcome parts before after := by
  let become : String → Row V → Row V := fun table row =>
    (outcomes parts table row).head (outcomes_ne_nil table row)
  refine ⟨fun table => (before table).map (become table) ++ insertedRows parts table, fun table =>
    ⟨(before table).map (become table), ?_, rfl⟩⟩
  rw [List.forall₂_map_right_iff, List.forall₂_same]
  exact fun row _ => List.head_mem _

/-- The rows may be told apart, so each has any of its outcomes in some run. -/
theorem exists_outcome (before : Tables V) {table : String} {row written : Row V}
    (hwritten : written ∈ outcomes parts table row) :
    ∃ become : String → Row V → Row V, become table row = written ∧
      Outcome parts before fun table =>
        (before table).map (become table) ++ insertedRows parts table := by
  classical
  let become : String → Row V → Row V := fun table' row' =>
    if table' = table ∧ row' = row then written
    else (outcomes parts table' row').head (outcomes_ne_nil table' row')
  refine ⟨become, if_pos ⟨rfl, rfl⟩, ?_⟩
  intro table'
  refine ⟨(before table').map (become table'), ?_, rfl⟩
  rw [List.forall₂_map_right_iff, List.forall₂_same]
  intro row' _
  show (if table' = table ∧ row' = row then written else _) ∈ _
  split
  · rename_i hsame
    rw [hsame.1, hsame.2]
    exact hwritten
  · exact List.head_mem _

/-- Every run writes the rows as expected when every outcome of each row is as
expected. -/
theorem forall_outcomes_iff (expected : String → Row V → Row V) :
    (∀ after, Outcome parts before after →
      after = fun table => (before table).map (expected table) ++ insertedRows parts table) ↔
    ∀ table, ∀ row ∈ before table, ∀ written ∈ outcomes parts table row,
      written = expected table row := by
  constructor
  · intro h table row hrow written hwritten
    obtain ⟨become, hbecome, houtcome⟩ := exists_outcome before hwritten
    have hrows := congrFun (h _ houtcome) table
    have hmap := List.append_cancel_right hrows
    rw [← hbecome]
    exact List.map_inj_left.mp hmap row hrow
  · intro h after houtcome
    funext table
    obtain ⟨written, hwritten, hafter⟩ := houtcome table
    have hboth := (List.forall₂_and_left _ _).mpr ⟨h table, hwritten⟩
    have hexpected : List.Forall₂ (· = ·) ((before table).map (expected table)) written :=
      List.forall₂_map_left_iff.mpr (hboth.imp fun row written hrow => (hrow.1 written hrow.2).symm)
    rw [List.forall₂_eq_eq_eq] at hexpected
    rw [hafter, hexpected]

end

end Ez4.PgClient.RelationStatement

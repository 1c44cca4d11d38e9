import Ez4.Library.PartialMap
import Ez4.Migration.Columns

/-! # Statements and what they do to the catalog

The statements of a migration, as the builder writes them, and their meaning
for the tables and columns of the database: `IF EXISTS` and `IF NOT EXISTS`
make a statement do nothing, and any other mismatch is an error. Identifiers
are taken as written, and the rows of the tables are not modelled. -/

namespace Ez4.Migration
open Ez4.Library Ez4.Utils

/-- A column as `CREATE TABLE` and `ADD COLUMN` define it. -/
structure ColumnDefinition where
  name : String
  type : ColumnType
  required : Bool
  default : Option ColumnDefault

/-- `ALTER COLUMN`: the clauses set. A type comes with whether it is cast, and
a default of `none` is dropped. -/
structure ColumnAlteration where
  type : Option (ColumnType × Bool) := none
  optional : Option Bool := none
  default : Option (Option ColumnDefault) := none

/-- `query.empty` -/
def ColumnAlteration.empty (a : ColumnAlteration) : Bool :=
  a.type.isNone && a.default.isNone && a.optional.isNone

inductive Query
  /-- `CREATE TABLE IF NOT EXISTS` -/
  | createTable (table : String) (columns : List ColumnDefinition)
  /-- `ALTER TABLE IF EXISTS ... RENAME TO` -/
  | renameTable (fromTable toTable : String)
  /-- `DROP TABLE IF EXISTS ... CASCADE` -/
  | dropTable (table : String)
  /-- `ALTER TABLE IF EXISTS ... ADD COLUMN IF NOT EXISTS` -/
  | addColumns (table : String) (columns : List ColumnDefinition)
  /-- `ALTER TABLE IF EXISTS ... ALTER COLUMN` -/
  | alterColumn (table column : String) (alteration : ColumnAlteration)
  /-- `ALTER TABLE IF EXISTS ... RENAME COLUMN` -/
  | renameColumn (table fromColumn toColumn : String)
  /-- `ALTER TABLE IF EXISTS ... DROP COLUMN IF EXISTS` -/
  | dropColumns (table : String) (columns : List String)

/-- The query that a statement asks first, and that skips it by finding a row. -/
inductive Check
  /-- `getCheckColumnExistsQuery`, which finds a row when the column is missing. -/
  | columnMissing (table column : String)

/-- `PgMigrationStatement` -/
structure Statement where
  check : Option Check := none
  query : Query

/-! ## The catalog -/

/-- A column as the catalog has it. -/
structure Column where
  type : ColumnType
  nullable : Bool
deriving DecidableEq

/-- The columns of a table, by name. -/
abbrev Columns := String → Option Column

/-- The tables of the database, by name. -/
abbrev Catalog := String → Option Columns

def ColumnDefinition.column (c : ColumnDefinition) : Column := ⟨c.type.stored, !c.required⟩

/-- `ADD COLUMN IF NOT EXISTS` -/
def addColumn (columns : Columns) (c : ColumnDefinition) : Columns :=
  if (columns c.name).isSome then columns else put columns c.name (some c.column)

/-- `ALTER COLUMN` -/
def ColumnAlteration.apply (a : ColumnAlteration) (c : Column) : Column where
  type := match a.type with
    | some (type, _) => type.stored
    | none => c.type
  nullable := a.optional.getD c.nullable

/-- What a statement does to the columns of the table it alters. -/
def Query.alter : Query → Columns → Option Columns
  | addColumns _ definitions, columns => some (definitions.foldl addColumn columns)
  | alterColumn _ column a, columns =>
    (columns column).map fun c => put columns column (some (a.apply c))
  | renameColumn _ fromColumn toColumn, columns =>
    match columns fromColumn, columns toColumn with
    | some c, none => some (put (put columns fromColumn none) toColumn (some c))
    | _, _ => none
  | dropColumns _ dropped, columns => some fun c => if c ∈ dropped then none else columns c
  | _, columns => some columns

/-- A statement run on the catalog; `none` is an error. -/
def Query.exec : Query → Catalog → Option Catalog
  | createTable table definitions, catalog =>
    match catalog table with
    | some _ => some catalog
    | none => some (put catalog table (some (definitions.foldl addColumn fun _ => none)))
  | renameTable fromTable toTable, catalog =>
    match catalog fromTable, catalog toTable with
    | none, _ => some catalog
    | some columns, none => some (put (put catalog fromTable none) toTable (some columns))
    | some _, some _ => none
  | dropTable table, catalog => some (put catalog table none)
  | query@(addColumns table _), catalog
  | query@(alterColumn table _ _), catalog
  | query@(renameColumn table _ _), catalog
  | query@(dropColumns table _), catalog =>
    match catalog table with
    | none => some catalog
    | some columns => (query.alter columns).map fun columns => put catalog table (some columns)

/-- Whether the check finds a row. -/
def Check.finds : Check → Catalog → Bool
  | columnMissing table column, catalog => ((catalog table).bind (· column)).isNone

/-- A statement skipped by its check leaves the catalog as it is. -/
def Statement.exec (s : Statement) (catalog : Catalog) : Option Catalog :=
  match s.check with
  | some check => if check.finds catalog then some catalog else s.query.exec catalog
  | none => s.query.exec catalog

/-- Statements run one after the other, up to the first error. -/
def runStatements (statements : List Statement) (catalog : Catalog) : Option Catalog :=
  statements.foldlM (fun catalog s => s.exec catalog) catalog

end Ez4.Migration

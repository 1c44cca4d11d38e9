import Ez4.Schema.Types

/-! # The text of a statement

What SQL is made of (`utils/escape.ts`, `utils/merge.ts`, `helpers/alias.ts`),
and the state in which a builder makes it. A text is kept in pieces, so that a
placeholder carries the value it was written for; the code keeps no such record.
A builder fails as the code throws. -/
namespace Ez4.PgSql
open Ez4.Utils Ez4.Schema

/-! ## Texts -/

/-- A piece of a text. `W` is the type of the variables. -/
inductive Piece (W : Type)
  | sql (text : String)
  /-- `:index`, with the value of its place. -/
  | placeholder (index : Nat) (value : W)

abbrev Text (W : Type) := List (Piece W)

variable {W : Type}

def sql (text : String) : Text W := [.sql text]

def Piece.render : Piece W → String
  | .sql text => text
  | .placeholder index _ => ":" ++ toString index

/-- The text as the database is given it. -/
def Text.render (text : Text W) : String := String.join (text.map Piece.render)

/-- `texts.join(separator)` -/
def join (separator : String) (texts : List (Text W)) : Text W :=
  List.intercalate (sql separator : Text W) texts

/-- The text with each character for which it is so replaced. -/
def replaceAll (text : String) (replaced : Char → Bool) (other : Char → List Char) : String :=
  String.ofList (text.toList.flatMap fun c => if replaced c then other c else [c])

def escapeSqlName (name : String) : String :=
  if name = "*" then name
  else "\"" ++ replaceAll name (· == '"') (fun _ => ['"', '"']) ++ "\""

def escapeSqlNames (names : List String) : String := ", ".intercalate (names.map escapeSqlName)

def escapeSqlText (text : String) : String :=
  "'" ++ replaceAll text (· == '\'') (fun _ => ['\'', '\'']) ++ "'"

/-- A key never puts a backslash in the statement. -/
def escapeSqlKey (key : String) : String :=
  if !key.toList.contains '\\' then escapeSqlText key
  else
    let tokens := (List.splitOn '\\' key.toList).mapIdx fun index part =>
      (if index > 0 then ["chr(92)"] else []) ++
        (if part.isEmpty then [] else [escapeSqlText (String.ofList part)])
    "(" ++ " || ".intercalate tokens.flatten ++ ")"

/-! ## Paths -/

/-- What the paths below take for the key of a column when they are given none. -/
def columnKey (column : String) : Text W := sql (escapeSqlKey column)

def mergeSqlPath (column : String) (path : Option (Text W)) (key : Text W) : Text W :=
  match path with
  | some path => path ++ sql "[" ++ key ++ sql "]"
  | none => sql (escapeSqlName column)

def mergeSqlJsonPath (column : String) (path : Option (Text W)) (text : Bool) (key : Text W) :
    Text W :=
  match path with
  | some path => path ++ sql (if text then "->>" else "->") ++ key
  | none => sql (escapeSqlName column)

/-- An empty alias is none. -/
def mergeSqlAlias (column : Text W) (alias? : Option String) : Text W :=
  match alias? with
  | some name => if name = "" then column else sql (escapeSqlName name) ++ sql "." ++ column
  | none => column

/-! ## Builders -/

/-- The errors of `errors/*.ts` that a builder throws. -/
inductive SqlError (W : Type)
  | missingColumnAlias
  | missingTableAlias
  | invalidColumnOrder (columnName : String)
  | invalidWhereClause
  | missingConflictTarget
  | noStatements
  | unsupportedSqlData
  | missingOperator (columnName : Text W)
  | invalidOperand (columnName : Option (Text W))
  | invalidAtomicOperation (columnName : String)
  | missingTableName
  | missingRecord
  | emptyRecord
  | multipleRecords
  /-- A statement nested in more statements than there are. -/
  | stackOverflow

/-- The references of a builder (`SqlBuilderReferences`), and the `variables` of
the clause at work. -/
structure Scope (W : Type) where
  /-- How often an alias was taken. -/
  aliases : String → Nat := fun _ => 0
  counter : Nat := 0
  values : List W := []

abbrev Build (W : Type) := StateT (Scope W) (Except (SqlError W))

def getUniqueAlias (name : String) : Build W String := do
  let scope ← get
  set { scope with
    aliases := fun other => if other = name then scope.aliases name + 1 else scope.aliases other }
  return name ++ toString (scope.aliases name)

/-- `references.counter++` -/
def takeIndex : Build W Nat := do
  let scope ← get
  set { scope with counter := scope.counter + 1 }
  return scope.counter

/-- `variables.push(...values)` -/
def pushVariables (values : List W) : Build W Unit :=
  modify fun scope => { scope with values := scope.values ++ values }

/-- A clause built with a list of variables of its own. -/
def withVariables {α : Type} (clause : Build W α) : Build W (α × List W) := do
  let outer ← getThe (Scope W)
  set { outer with values := ([] : List W) }
  let result ← clause
  let inner ← getThe (Scope W)
  set { inner with values := outer.values }
  return (result, inner.values)

/-! ## Schemas -/

section
-- `deepEqual` of two schemas also compares what the schemas here leave out,
-- such as their descriptions
variable (deepEqual : AnySchema → AnySchema → Bool)

def getObjectSchemaProperty (schema : ObjectSchema) (propertyName : String) : Option AnySchema :=
  (find schema.properties propertyName).or (schema.additional.map Prod.snd)

/-- The literal of a property with one. -/
def literalOf : AnySchema → Option EnumValue
  | .string schema => schema.value.map .str
  | .number schema => schema.value.map .num
  | _ => none

/-- One property on the way through the elements of a union. -/
def collectProperty (found : List AnySchema × List AnySchema) (property : AnySchema) :
    List AnySchema × List AnySchema :=
  let (compounds, scalars) := found
  if (literalOf property).isSome then (compounds, scalars ++ [property])
  else if compounds.any fun current => deepEqual current property then (compounds, scalars)
  else (compounds ++ [property], scalars)

/-- The property of a union whose elements have these. -/
def mergeProperties (properties : List AnySchema) : Option AnySchema :=
  let (compounds, scalars) := properties.foldl (collectProperty deepEqual) ([], [])
  if compounds.length > 1 then some (.union {} none (scalars ++ compounds))
  else if scalars.length > 1 then some (.enum { options := scalars.filterMap literalOf })
  else compounds.head?.or scalars.head?

mutual

def getSchemaProperty (schema : AnySchema) (propertyName : String) : Option AnySchema :=
  match schema with
  | .object schema => getObjectSchemaProperty schema propertyName
  | .union _ _ elements => mergeProperties deepEqual (elementProperties elements propertyName)
  | _ => none

def elementProperties (elements : List AnySchema) (propertyName : String) : List AnySchema :=
  match elements with
  | [] => []
  | element :: rest =>
    (getSchemaProperty element propertyName).toList ++ elementProperties rest propertyName

end

mutual

def isNestedSchema (schema : AnySchema) : Bool :=
  match schema with
  | .object _ | .array _ _ _ | .tuple _ _ _ => true
  | .union _ _ elements => isAnyNested elements
  | _ => false

def isAnyNested (elements : List AnySchema) : Bool :=
  match elements with
  | [] => false
  | element :: rest => isNestedSchema element || isAnyNested rest

end

end

end Ez4.PgSql

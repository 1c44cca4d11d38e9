import Ez4.Dynamo.Where
import Ez4.Library.Markers

/-! # What filters mean

The filters of a tree as a formula over tests of the attributes of an item, each
with the path of its attribute and the values it is compared with, and how the
text of a condition reads as that formula. -/
namespace Ez4.Dynamo
open Ez4.Utils Ez4.Schema Ez4.PgSql Library.Lexing Library.Precedence Library.Markers

/-! ## Tests -/

inductive Comparison
  | equal
  | not
  | gt
  | gte
  | lt
  | lte

/-- A test of the attribute at a path. -/
inductive Test
  | compare (path : List String) (comparison : Comparison) (value : Value)
  /-- The attribute is one of the values. -/
  | isIn (path : List String) (values : List Value)
  /-- The value is an element of the attribute. -/
  | element (path : List String) (value : Value)
  | between (path : List String) (low high : Value)
  | missing (path : List String) (expected : Bool)
  | null (path : List String) (expected : Bool)
  | startsWith (path : List String) (value : Value)
  | contains (path : List String) (value : Value)

abbrev Condition := Formula Test

/-! ## Operators -/

def operatorNames : List String :=
  ["equal", "not", "gt", "gte", "lt", "lte", "isIn", "isBetween", "isMissing", "isNull",
    "isMissingOrNull", "startsWith", "contains"]

/-- The lists of `isIn` on an attribute with elements. -/
def listsOf (operand : Value) : List (List Value) :=
  match operand with
  | .arr operands => (operands.map sanitizeValues).filter fun values => !isEmptyArray values
  | _ => []

/-- What an operator tests of an attribute whose own schema is given. An
attribute is in no empty list, and it contains whatever an empty list holds. -/
def operatorMeaning (schema : Option AnySchema) (path : List String) (operator : String)
    (value : Value) : Condition :=
  match operator with
  | "not" => .atom (.compare path .not value)
  | "gt" => .atom (.compare path .gt value)
  | "gte" => .atom (.compare path .gte value)
  | "lt" => .atom (.compare path .lt value)
  | "lte" => .atom (.compare path .lte value)
  | "isIn" =>
    if hasElements schema then
      .disj ((listsOf value).map fun values =>
        .conj (values.map fun value => .atom (.element path value)))
    else if isEmptyArray (sanitizeValues value) then .disj []
    else .atom (.isIn path (sanitizeValues value))
  | "isBetween" =>
    match value with
    | .arr [low, high] => .atom (.between path low high)
    | _ => .conj []
  | "isMissing" => .atom (.missing path value.truthy)
  | "isNull" => .atom (.null path value.truthy)
  | "isMissingOrNull" =>
    if value.truthy then .disj [.atom (.missing path true), .atom (.null path true)]
    else .conj [.atom (.missing path false), .atom (.null path false)]
  | "startsWith" => .atom (.startsWith path value)
  | "contains" =>
    match value with
    | .arr _ =>
      if hasElements schema then
        .conj ((sanitizeValues value).map fun value => .atom (.contains path value))
      else .conj []
    | value => .atom (.contains path value)
  | _ => .atom (.compare path .equal value)

/-! ## Fields and groups -/

/-- The conjunctions of a group, but for the empty ones. -/
def alternatives (items : List (List Condition)) : List Condition :=
  match items.filter fun conditions => !conditions.isEmpty with
  | [] => []
  | items => [.disj (items.map .conj)]

section
variable (deepEqual : AnySchema → AnySchema → Bool)

/-- The schema of a field. -/
def propertyOf (schema : Option AnySchema) (fieldName : String) : Option AnySchema :=
  schema.bind fun schema => getSchemaProperty deepEqual schema fieldName

mutual

/-- The conditions of the fields, which all have to hold. -/
def fieldsMeaning (schema : Option AnySchema) (path : List String) (fields : Fields) :
    List Condition :=
  match fields with
  | [] => []
  | (fieldName, value) :: rest =>
    fieldMeaning schema path fieldName value ++ fieldsMeaning schema path rest

def fieldMeaning (schema : Option AnySchema) (path : List String) (fieldName : String)
    (value : Value) : List Condition :=
  match value with
  | .undefined => []
  | .obj fields =>
    if fieldName = "NOT" then
      match fieldsMeaning schema path fields with
      | [] => []
      | conditions => [.neg (.conj conditions)]
    else entriesMeaning (propertyOf deepEqual schema fieldName) (path ++ [fieldName]) fields
  | .arr items =>
    if fieldName = "AND" then (itemsMeaning schema path items).flatten
    else if fieldName = "OR" then alternatives (itemsMeaning schema path items)
    else [.atom (.compare (path ++ [fieldName]) .equal (.arr items))]
  | .null => [.atom (.null (path ++ [fieldName]) true)]
  | value => [.atom (.compare (path ++ [fieldName]) .equal value)]

/-- The operators of a field, and the fields nested in it. -/
def entriesMeaning (schema : Option AnySchema) (path : List String) (fields : Fields) :
    List Condition :=
  match fields with
  | [] => []
  | (key, value) :: rest =>
    if operatorNames.contains key then
      (if value.isUndefined then [] else [operatorMeaning schema path key value]) ++
        entriesMeaning schema path rest
    else fieldMeaning schema path key value ++ entriesMeaning schema path rest

def itemsMeaning (schema : Option AnySchema) (path : List String) (items : List Value) :
    List (List Condition) :=
  match items with
  | [] => []
  | .obj fields :: rest => fieldsMeaning schema path fields :: itemsMeaning schema path rest
  | _ :: rest => itemsMeaning schema path rest

end

end

/-! ## How a test reads -/

def nameTree (name : String) : Tree := .leaf (.quoted '"' name.toList)

def wordTree (word : String) : Tree := .leaf (.word word.toList)

def symbolTree (c : Char) : Tree := .leaf (.symbol c)

/-- `"name"."name"` -/
def pathTrees (path : List String) : List Tree :=
  List.intercalate [symbolTree '.'] (path.map fun name => [nameTree name])

def Comparison.symbols : Comparison → List Char
  | .equal => ['=']
  | .not => ['!', '=']
  | .gt => ['>']
  | .gte => ['>', '=']
  | .lt => ['<']
  | .lte => ['<', '=']

/-- What the text of a test reads as, with its values written as literals. -/
def Test.trees (literals : Literals Value) : Test → List Tree
  | .compare path comparison value =>
    pathTrees path ++ (comparison.symbols.map symbolTree ++ [.leaf (literals.lexeme value)])
  | .isIn path values =>
    let items := List.intercalate [symbolTree ','] (values.map fun value =>
      [.leaf (literals.lexeme value)])
    pathTrees path ++ ([wordTree "IN", symbolTree '['] ++ (items ++ [symbolTree ']']))
  | .element path value => [.leaf (literals.lexeme value), wordTree "IN"] ++ pathTrees path
  | .between path low high =>
    pathTrees path ++ [wordTree "BETWEEN", .leaf (literals.lexeme low), wordTree "AND",
      .leaf (literals.lexeme high)]
  | .missing path expected =>
    pathTrees path ++ (if expected then [wordTree "IS", wordTree "MISSING"]
      else [wordTree "IS", wordTree "NOT", wordTree "MISSING"])
  | .null path expected =>
    pathTrees path ++ (if expected then [wordTree "IS", wordTree "null"]
      else [wordTree "IS", wordTree "NOT", wordTree "null"])
  | .startsWith path value => [wordTree "begins_with",
      .group (pathTrees path ++ [symbolTree ',', .leaf (literals.lexeme value)])]
  | .contains path value => [wordTree "contains",
      .group (pathTrees path ++ [symbolTree ',', .leaf (literals.lexeme value)])]

/-- `1 = 0` and `1 = 1` have their truth. -/
structure ReadsConstants {L : Type} [Lattice L] [BoundedOrder L] (v : List Tree → L) : Prop where
  never : v [wordTree "1", symbolTree '=', wordTree "0"] = ⊥
  always : v [wordTree "1", symbolTree '=', wordTree "1"] = ⊤

/-- The text has a marker for each value. With the values in their places, and
the precedence of SQL, it has the value of the formula whatever its tests are
worth. -/
structure ReadsAs (text : String) (values : List Value) (condition : Condition) : Prop where
  markers : count (lex .start text.toList) = values.length
  reads : ∀ literals : Literals Value,
    ∃ ts, filledTrees text.toList (values.map literals.lexeme) = some ts ∧
      ∀ {L : Type} [Lattice L] [BoundedOrder L] (neg : L → L) (v : List Tree → L),
        ReadsConstants v →
          (read ts).eval neg v = condition.eval neg fun test => v (test.trees literals)

/-- The condition that is prepared reads as the conjunction of the fields. It is
empty, and left out, when there is nothing to test. -/
def KeepsMeaning (deepEqual : AnySchema → AnySchema → Bool) (schema : ObjectSchema)
    (where_ : Fields) : Prop :=
  ∃ text values, prepareWhereFields deepEqual where_ schema = .ok (text, values) ∧
    match fieldsMeaning deepEqual (some (.object schema)) [] where_ with
    | [] => text = "" ∧ values = []
    | conditions => ReadsAs text values (.conj conditions)

/-! ## Which filters keep their meaning -/

/-- The operator has an operand it can test, and elements where it takes the
attribute to have them. Of the field, the schema that is found and its own. -/
def keepsOperator (found own : Option AnySchema) (operator : String) (value : Value) : Bool :=
  match operator, value with
  | _, .undefined => false
  | "isIn", .arr _ => hasElements found == hasElements own
  | "isIn", _ => false
  | "contains", .arr _ => hasElements found == hasElements own
  | "isBetween", .arr [_, _] => true
  | "isBetween", _ => false
  | _, _ => true

def isGroupName (name : String) : Bool := name = "NOT" || name = "AND" || name = "OR"

/-- A name that stands in double quotes as it is. -/
def isQuotable (name : String) : Bool := !name.toList.contains '"'

section
variable (deepEqual : AnySchema → AnySchema → Bool)

mutual

/-- Each field keeps its meaning, when the schemas of fields are looked up in
`root` and are in `own`. -/
def keepsFields (root own : Option AnySchema) (path : List String) (fields : Fields) : Bool :=
  match fields with
  | [] => true
  | (fieldName, value) :: rest =>
    keepsField root own path fieldName value && keepsFields root own path rest

def keepsField (root own : Option AnySchema) (path : List String) (fieldName : String)
    (value : Value) : Bool :=
  match value with
  | .undefined => true
  | .obj fields =>
    if fieldName = "NOT" then
      !(fieldsMeaning deepEqual own path fields).isEmpty && keepsFields root own path fields
    else
      let found := propertyOf deepEqual root fieldName
      let schema := propertyOf deepEqual own fieldName
      !isGroupName fieldName && isQuotable fieldName &&
        -- operators, or nested fields
        (fields.all (fun entry =>
            operatorNames.contains entry.1 && keepsOperator found schema entry.1 entry.2) ||
          fields.all (fun entry => !operatorNames.contains entry.1) &&
            keepsFields root schema (path ++ [fieldName]) fields)
  | .arr items =>
    if fieldName = "AND" ∨ fieldName = "OR" then keepsItems root own path items
    else fieldName ≠ "NOT" && isQuotable fieldName
  | _ => !isGroupName fieldName && isQuotable fieldName

def keepsItems (root own : Option AnySchema) (path : List String) (items : List Value) : Bool :=
  match items with
  | [] => true
  | .obj fields :: rest => keepsFields root own path fields && keepsItems root own path rest
  | .undefined :: rest => keepsItems root own path rest
  | _ :: _ => false

end

end

end Ez4.Dynamo

import Mathlib.Data.List.TakeWhile
import Ez4.Utils.Value

/-! # Named parameters and placeholders

`prepareStatement` (`driver/utils/prepare.ts`), which writes a placeholder for
each occurrence of a named parameter that its regular expression finds. The text
is kept in the fragments that the expression makes of it. -/
namespace Ez4.PgClient.Placeholders
open Ez4.Utils

/-! ## Occurrences -/

/-- `\w` -/
def isWord (c : Char) : Bool := c.isAlphanum || c == '_'

/-- A match of `/:(\w+)(::\w+\[\])?/`. -/
structure Occurrence where
  fieldName : List Char
  /-- The type of the array cast. -/
  arrayCast : Option (List Char)

def castChars (type : List Char) : List Char := ':' :: ':' :: type ++ ['[', ']']

def Occurrence.cast (occurrence : Occurrence) : List Char :=
  match occurrence.arrayCast with
  | some type => castChars type
  | none => []

def Occurrence.chars (occurrence : Occurrence) : List Char :=
  ':' :: occurrence.fieldName ++ occurrence.cast

/-- `::\w+\[\]` at the start of the text. -/
def matchArrayCast : List Char → Option (List Char)
  | ':' :: ':' :: rest =>
    match rest.takeWhile isWord, rest.dropWhile isWord with
    | first :: type, '[' :: ']' :: _ => some (first :: type)
    | _, _ => none
  | _ => none

/-- The expression at the start of the text. Both repetitions take all they can,
since what follows them is no word character. -/
def matchOccurrence : List Char → Option Occurrence
  | ':' :: rest =>
    match rest.takeWhile isWord with
    | [] => none
    | first :: name =>
      some { fieldName := first :: name, arrayCast := matchArrayCast (rest.dropWhile isWord) }
  | _ => none

/-- What `replaceAll` keeps as it is, and what it replaces. -/
inductive Fragment
  | char (c : Char)
  | found (occurrence : Occurrence)

def Fragment.chars : Fragment → List Char
  | .char c => [c]
  | .found occurrence => occurrence.chars

/-- The matches from left to right, with the number of characters that the last
one still takes. -/
def fragments : Nat → List Char → List Fragment
  | _, [] => []
  | taken + 1, _ :: rest => fragments taken rest
  | 0, c :: rest =>
    match matchOccurrence (c :: rest) with
    | some occurrence => .found occurrence :: fragments (occurrence.chars.length - 1) rest
    | none => .char c :: fragments 0 rest

/-! ## Bindings -/

structure FieldParameter (V : Type) where
  name : String
  type : Option String
  value : V
  elements : Option (List V)

structure PrepareStatementOptions where
  bindEachOccurrence : Bool := false
  bindArrays : Bool := false

/-- What is bound: the value of a parameter, or its elements as an array. -/
inductive Bound (V : Type)
  | value (value : V)
  | elements (elements : List V)

/-- What `fieldIndexes[key]` reads. -/
inductive Index
  | number (n : Nat)
  /-- A property that every object inherits, as text. -/
  | inherited (text : String)
  | undefined

def Index.text : Index → String
  | .number n => toString n
  | .inherited text => text
  | .undefined => "undefined"

def Index.isUndefined : Index → Bool
  | .undefined => true
  | _ => false

/-- What the objects of the parameters and of their indexes inherit. -/
structure Prototype (V : Type) where
  parameter : String → Option (FieldParameter V)
  index : String → Option String

def inheritedNames : List String :=
  ["constructor", "hasOwnProperty", "isPrototypeOf", "propertyIsEnumerable", "toLocaleString",
    "toString", "valueOf", "__proto__", "__defineGetter__", "__defineSetter__", "__lookupGetter__",
    "__lookupSetter__"]

/-- `Object.prototype`, whose properties have no type, value or elements. -/
def objectPrototype {V : Type} (undefinedValue : V) : Prototype V where
  parameter name := if inheritedNames.contains name then
      some { name, type := none, value := undefinedValue, elements := none }
    else none
  index name :=
    if name = "__proto__" then some "[object Object]"
    else if inheritedNames.contains name then
      let function := if name = "constructor" then "Object" else name
      some ("function " ++ function ++ "() \x7b [native code] \x7d")
    else none

structure Bindings (V : Type) where
  /-- The own properties of `fieldIndexes`. -/
  fieldIndexes : List (String × Nat) := []
  totalFields : Nat := 0
  preparedValues : List (Bound V) := []

/-- What replaces an occurrence. -/
structure Placeholder where
  key : String
  index : Index
  type : Option String

/-- A fragment, and what replaces it. -/
structure Piece where
  fragment : Fragment
  placeholder : Option Placeholder

def Piece.chars (piece : Piece) : List Char :=
  match piece.fragment, piece.placeholder with
  | .found occurrence, some placeholder =>
    let type := match placeholder.type with
      | some type => if type = "" then [] else ':' :: ':' :: type.toList
      | none => []
    '$' :: placeholder.index.text.toList ++ type ++ occurrence.cast
  | fragment, _ => fragment.chars

variable {V : Type} (prototype : Prototype V) (options : PrepareStatementOptions)

/-- `fieldIndexes[key]` -/
def indexOf (bindings : Bindings V) (key : String) : Index :=
  match find bindings.fieldIndexes key with
  | some n => .number n
  | none => match prototype.index key with
    | some text => .inherited text
    | none => .undefined

def bindField (key : String) (value : Bound V) (bindings : Bindings V) : Index × Bindings V :=
  let bound := if (indexOf prototype bindings key).isUndefined || options.bindEachOccurrence then
      -- no number is assigned to `__proto__`
      { fieldIndexes := if key = "__proto__" then bindings.fieldIndexes
          else assign bindings.fieldIndexes key (bindings.totalFields + 1)
        totalFields := bindings.totalFields + 1
        preparedValues := bindings.preparedValues ++ [value] }
    else bindings
  (indexOf prototype bound key, bound)

variable (parameters : List (FieldParameter V))

/-- `fieldParameters[fieldName]`, where the last parameter of a name replaces the others. -/
def parameterOf (fieldName : String) : Option (FieldParameter V) :=
  (parameters.reverse.find? fun parameter => parameter.name = fieldName).or
    (prototype.parameter fieldName)

/-- What an occurrence of a parameter binds: its key, its value and the type that is written. -/
def bindingOf (occurrence : Occurrence) (parameter : FieldParameter V) :
    String × Bound V × Option String :=
  let fieldName := String.ofList occurrence.fieldName
  match parameter.elements with
  | some elements =>
    if occurrence.arrayCast.isSome && options.bindArrays then
      (fieldName ++ "[]", .elements elements, none)
    else (fieldName, .value parameter.value, parameter.type)
  | none => (fieldName, .value parameter.value, parameter.type)

def replaceFragment (fragment : Fragment) (bindings : Bindings V) : Piece × Bindings V :=
  match fragment with
  | .char _ => ({ fragment, placeholder := none }, bindings)
  | .found occurrence =>
    match parameterOf prototype parameters (String.ofList occurrence.fieldName) with
    | none => ({ fragment, placeholder := none }, bindings)
    | some parameter =>
      let (key, value, type) := bindingOf options occurrence parameter
      let (index, bindings) := bindField prototype options key value bindings
      ({ fragment, placeholder := some { key, index, type } }, bindings)

def replaceFragments : List Fragment → Bindings V → List Piece × Bindings V
  | [], bindings => ([], bindings)
  | fragment :: rest, bindings =>
    let (piece, bindings) := replaceFragment prototype options parameters fragment bindings
    let (pieces, bindings) := replaceFragments rest bindings
    (piece :: pieces, bindings)

structure PreparedStatement (V : Type) where
  pieces : List Piece
  values : Option (List (Bound V))

def PreparedStatement.query (prepared : PreparedStatement V) : String :=
  String.ofList (prepared.pieces.flatMap Piece.chars)

def prepareStatement (query : String) : PreparedStatement V :=
  let found := fragments 0 query.toList
  if parameters.isEmpty then
    { pieces := found.map fun fragment => { fragment, placeholder := none }, values := none }
  else
    let (pieces, bindings) := replaceFragments prototype options parameters found {}
    { pieces, values := some bindings.preparedValues }

end Ez4.PgClient.Placeholders

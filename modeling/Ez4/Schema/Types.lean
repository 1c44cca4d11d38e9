import Mathlib.Algebra.GroupWithZero.Nat
import Ez4.Utils.Naming
import Ez4.Utils.ObjectEqual

/-! # Schemas

The schemas that values are validated and transformed by (`types/*.ts`), and
the numbers and texts that their definitions compare. -/
namespace Ez4.Schema
open Ez4.Utils

/-! ## Numbers and texts -/

/-- `a < b` -/
def numberLt : Number → Number → Bool
  | .finite a, .finite b => decide (a < b)
  | .finite _, .infinite negative => !negative
  | .infinite negative, .finite _ => negative
  | .infinite a, .infinite b => a && !b

/-- `Number.isSafeInteger` -/
def isSafeInteger : Number → Bool
  | .finite value => value.den == 1 && decide (value.num.natAbs ≤ 9007199254740991)
  | .infinite _ => false

/-- `text.length`, in UTF-16 code units. -/
def textLength (text : String) : Nat :=
  (text.toList.map fun c => if c.val < 0x10000 then 1 else 2).sum

/-- White space and line terminators. -/
def isSpace (c : Char) : Bool :=
  [0x9, 0xA, 0xB, 0xC, 0xD, 0x20, 0xA0, 0x1680, 0x2028, 0x2029, 0x202F, 0x205F, 0x3000,
    0xFEFF].contains c.val || (0x2000 ≤ c.val && c.val ≤ 0x200A)

/-- `text.trim()` -/
def trim (text : String) : String :=
  String.ofList ((text.toList.dropWhile isSpace).reverse.dropWhile isSpace).reverse

mutual

/-- What a value has of parts and characters. -/
def weight : Value → Nat
  | .str text => text.length + 1
  | .arr items => weightList items + 1
  | .obj fields => weightFields fields + 1
  | _ => 0

def weightList : List Value → Nat
  | [] => 0
  | item :: rest => weight item + weightList rest

def weightFields : List (String × Value) → Nat
  | [] => 0
  | (key, value) :: rest => key.length + 2 + weight value + weightFields rest

end

theorem weight_le_weightList {item : Value} {items : List Value} (h : item ∈ items) :
    weight item ≤ weightList items := by
  induction items with
  | nil => simp at h
  | cons first rest ih =>
    rw [weightList]
    rcases List.mem_cons.mp h with rfl | h
    · omega
    · have := ih h
      omega

theorem weight_item_lt {item : Value} {items : List Value} (h : item ∈ items) :
    weight item < weight (.arr items) := by
  rw [weight]
  exact Nat.lt_succ_of_le (weight_le_weightList h)

theorem weight_le_weightFields {key : String} {value : Value} {fields : Fields}
    (h : (key, value) ∈ fields) : weight value ≤ weightFields fields := by
  induction fields with
  | nil => simp at h
  | cons first rest ih =>
    obtain ⟨k, v⟩ := first
    rw [weightFields]
    rcases List.mem_cons.mp h with he | h
    · obtain ⟨-, rfl⟩ := Prod.mk.inj he
      omega
    · have := ih h
      omega

theorem weight_key_lt {key : String} {fields : Fields} (h : key ∈ keysOf fields) :
    weight (.str key) < weight (.obj fields) := by
  induction fields with
  | nil => simp [keysOf] at h
  | cons first rest ih =>
    obtain ⟨k, v⟩ := first
    rcases List.mem_cons.mp h with rfl | h
    · simp only [weight, weightFields]
      omega
    · have := ih h
      simp only [weight, weightFields] at this ⊢
      omega

/-- A property that an object has not is `undefined`. -/
theorem weight_get_lt (fields : Fields) (key : String) :
    weight (get fields key) < weight (.obj fields) := by
  rw [get_eq, weight]
  cases h : find fields key with
  | none => simp [weight]
  | some value =>
    have := weight_le_weightFields (mem_of_find h)
    simp only [Option.getD_some]
    omega

theorem weight_getD_lt (items : List Value) (index : Nat) :
    weight (items.getD index .undefined) < weight (.arr items) := by
  rw [List.getD_eq_getElem?_getD, weight]
  cases h : items[index]? with
  | none => simp [weight]
  | some value =>
    have := weight_le_weightList (List.mem_of_getElem? h)
    simp only [Option.getD_some]
    omega

/-! ## Naming styles -/

/-- `NamingStyle` -/
inductive NamingStyle
  | preserve
  | camelCase
  | pascalCase
  | snakeCase
  | kebabCase
deriving DecidableEq

def getPropertyName (property : String) : Option NamingStyle → String
  | some .camelCase => toCamelCase property
  | some .pascalCase => toPascalCase property
  | some .snakeCase => toSnakeCase property
  | some .kebabCase => toKebabCase property
  | some .preserve | none => property

/-! ## Schemas -/

/-- What a schema has besides its type. -/
structure Flags where
  optional : Bool := false
  nullable : Bool := false
  alias? : Option String := none
deriving DecidableEq

structure BooleanSchema where
  flags : Flags := {}
  types : Option (List String) := none
  default : Option Bool := none
  value : Option Bool := none
deriving DecidableEq

structure NumberSchema where
  flags : Flags := {}
  types : Option (List String) := none
  minValue : Option Number := none
  maxValue : Option Number := none
  default : Option Number := none
  value : Option Number := none
  format : Option String := none
deriving DecidableEq

structure StringSchema where
  flags : Flags := {}
  types : Option (List String) := none
  minLength : Option Number := none
  maxLength : Option Number := none
  trim : Bool := false
  lower : Bool := false
  upper : Bool := false
  pattern : Option String := none
  default : Option String := none
  value : Option String := none
  name : Option String := none
  format : Option String := none
deriving DecidableEq

/-- The value of an `EnumSchemaOption`. -/
inductive EnumValue
  | num (value : Number)
  | str (value : String)
deriving DecidableEq

def EnumValue.toValue : EnumValue → Value
  | .num n => .num n
  | .str s => .str s

structure EnumSchema where
  flags : Flags := {}
  types : Option (List String) := none
  default : Option EnumValue := none
  options : List EnumValue
deriving DecidableEq

structure ArrayDefinitions where
  types : Option (List String) := none
  minLength : Option Number := none
  maxLength : Option Number := none
  default : Option (List Value) := none
  encoded : Bool := false

structure TupleDefinitions where
  types : Option (List String) := none
  default : Option (List Value) := none

structure ObjectDefinitions where
  types : Option (List String) := none
  encoded : Bool := false
  extensible : Bool := false
  preserve : Bool := false
  default : Option Fields := none

mutual

inductive AnySchema
  | boolean (schema : BooleanSchema)
  | number (schema : NumberSchema)
  | string (schema : StringSchema)
  | enum (schema : EnumSchema)
  | object (schema : ObjectSchema)
  | reference (flags : Flags) (identity : Nat)
  | union (flags : Flags) (types : Option (List String)) (elements : List AnySchema)
  | array (flags : Flags) (definitions : ArrayDefinitions) (element : AnySchema)
  | tuple (flags : Flags) (definitions : TupleDefinitions) (elements : List AnySchema)

inductive ObjectSchema
  | mk (flags : Flags) (identity : Option Nat) (definitions : ObjectDefinitions)
    (properties : List (String × AnySchema)) (additional : Option (AnySchema × AnySchema))

end

namespace ObjectSchema

def flags : ObjectSchema → Flags
  | mk flags _ _ _ _ => flags

def identity : ObjectSchema → Option Nat
  | mk _ identity _ _ _ => identity

def definitions : ObjectSchema → ObjectDefinitions
  | mk _ _ definitions _ _ => definitions

def properties : ObjectSchema → List (String × AnySchema)
  | mk _ _ _ properties _ => properties

/-- The schemas of the other keys and of their values. -/
def additional : ObjectSchema → Option (AnySchema × AnySchema)
  | mk _ _ _ _ additional => additional

end ObjectSchema

namespace AnySchema

def flags : AnySchema → Flags
  | boolean schema => schema.flags
  | number schema => schema.flags
  | string schema => schema.flags
  | enum schema => schema.flags
  | object schema => schema.flags
  | reference flags _ => flags
  | union flags _ _ => flags
  | array flags _ _ => flags
  | tuple flags _ _ => flags

mutual

/-- How deep unions are nested directly in one another. -/
def unionDepth : AnySchema → Nat
  | union _ _ elements => unionDepthList elements + 1
  | _ => 0

def unionDepthList : List AnySchema → Nat
  | [] => 0
  | schema :: rest => max schema.unionDepth (unionDepthList rest)

end

mutual

/-- How deep unions, arrays and tuples are nested directly in one another. -/
def nestDepth : AnySchema → Nat
  | union _ _ elements | tuple _ _ elements => nestDepthList elements + 1
  | array _ _ element => element.nestDepth + 1
  | _ => 0

def nestDepthList : List AnySchema → Nat
  | [] => 0
  | schema :: rest => max schema.nestDepth (nestDepthList rest)

end

mutual

/-- How deep the properties of objects are nested. -/
def objectDepth : AnySchema → Nat
  | object (.mk _ _ _ properties _) => objectDepthProperties properties + 1
  | _ => 0

def objectDepthProperties : List (String × AnySchema) → Nat
  | [] => 0
  | (_, schema) :: rest => max schema.objectDepth (objectDepthProperties rest)

end

def objectDepthList (elements : List AnySchema) : Nat :=
  (elements.map objectDepth).foldr max 0

theorem unionDepth_le {schema : AnySchema} {elements : List AnySchema} (h : schema ∈ elements) :
    schema.unionDepth ≤ unionDepthList elements := by
  induction elements with
  | nil => simp at h
  | cons first rest ih =>
    rw [unionDepthList]
    rcases List.mem_cons.mp h with rfl | h
    · exact Nat.le_max_left _ _
    · exact Nat.le_trans (ih h) (Nat.le_max_right _ _)

theorem nestDepth_le {schema : AnySchema} {elements : List AnySchema} (h : schema ∈ elements) :
    schema.nestDepth ≤ nestDepthList elements := by
  induction elements with
  | nil => simp at h
  | cons first rest ih =>
    rw [nestDepthList]
    rcases List.mem_cons.mp h with rfl | h
    · exact Nat.le_max_left _ _
    · exact Nat.le_trans (ih h) (Nat.le_max_right _ _)

end AnySchema

end Ez4.Schema

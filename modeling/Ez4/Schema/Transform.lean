import Ez4.Schema.Validator

/-! # The transformer

`transform` (`transform/src/schema/*.ts`). A result of `undefined` is what does
not fit; the references are a state, as for the validator. -/
namespace Ez4.Schema
open Ez4.Utils

/-! ## The context and the sizes -/

/-- What the transformer uses of its surroundings, too. -/
structure TransformRuntime extends Runtime where
  toLowerCase : String → String
  toUpperCase : String → String
  /-- `base64Encode(JSON.stringify(value))` -/
  encodeBase64Json : Value → String

structure TransformContext where
  inputStyle : Option NamingStyle := none
  outputStyle : Option NamingStyle := none
  convert : Bool := true
  /-- `return` -/
  returns : Bool := true

/-- A call that reads and fills the references, or throws an identity. -/
abbrev Transformation := StateT References (Except Nat)

/-- What the parts of a value are transformed with. -/
abbrev Transform := TransformContext → Value → AnySchema → Transformation Value

mutual

/-- What an element or a property adds to a size. -/
def itemSize : Value → Nat
  | .undefined => 0
  | .arr items => 1 + arraySize items
  | .obj fields => 1 + objectSize fields
  | _ => 1

def arraySize : List Value → Nat
  | [] => 0
  | item :: rest => itemSize item + arraySize rest

def objectSize : List (String × Value) → Nat
  | [] => 0
  | (_, value) :: rest => itemSize value + objectSize rest

end

/-- What is left of a value that doesn't fit. -/
def TransformContext.fallback (context : TransformContext) (value : Value) : Value :=
  if context.returns then value else .undefined

/-- `stringToArray` -/
def stringToArray (input : String) : List String :=
  (((input.toList.splitOn ',').map String.ofList).map trim).filter (· ≠ "")

/-! ## Scalars and enums -/

section Scalars

variable (rt : TransformRuntime) (context : TransformContext) (value : Value)

/-- A literal that isn't met leaves nothing. -/
def literalOr (expected : Option Value) (result : Value) : Value :=
  match expected with
  | some expected =>
    if !expected.strictEq result && !context.returns then .undefined else result
  | none => result

def getBooleanValue : Value :=
  match value with
  | .bool b => .bool b
  | .str text =>
    if context.convert && text == "true" then .bool true
    else if context.convert && text == "false" then .bool false
    else context.fallback value
  | _ => context.fallback value

def transformBoolean (schema : BooleanSchema) : Value :=
  match value with
  | .undefined => (schema.default.map Value.bool).getD .undefined
  | _ => literalOr context (schema.value.map .bool) (getBooleanValue context value)

def getNumberValue : Value :=
  match value with
  | .num n => .num n
  | .str text =>
    match (if context.convert then rt.toNumber text else none) with
    | some (.finite n) => .num (.finite n)
    | _ => context.fallback value
  | _ => context.fallback value

def transformNumber (schema : NumberSchema) : Value :=
  match value with
  | .undefined => (schema.default.map Value.num).getD .undefined
  | _ => literalOr context (schema.value.map .num) (getNumberValue rt context value)

def applyTransformations (text : String) (schema : StringSchema) : String :=
  let trimmed := if schema.trim then trim text else text
  let lowered := if schema.lower then rt.toLowerCase trimmed else trimmed
  if schema.upper then rt.toUpperCase lowered else lowered

def getStringValue (schema : StringSchema) : Value :=
  match value with
  | .str text => .str (applyTransformations rt text schema)
  | .num n => if context.convert then .str (rt.numberText n) else context.fallback value
  | .bool b => if context.convert then .str (boolText b) else context.fallback value
  | _ => context.fallback value

def transformString (schema : StringSchema) : Value :=
  match value with
  | .undefined => (schema.default.map Value.str).getD .undefined
  | _ => literalOr context (schema.value.map .str) (getStringValue rt context value schema)

mutual

/-- `String(value)`, of an element of an array. -/
def elementText (rt : Runtime) : Value → String
  | .undefined | .null => ""
  | .bool b => boolText b
  | .num n => rt.numberText n
  | .str text => text
  | .arr items => elementTexts rt items
  | .obj _ => "[object Object]"

/-- `items.join()` -/
def elementTexts (rt : Runtime) : List Value → String
  | [] => ""
  | [item] => elementText rt item
  | item :: rest => elementText rt item ++ "," ++ elementTexts rt rest

end

/-- `Number(value)`, unless it is `NaN`. -/
def numberOf (rt : Runtime) : Value → Option Number
  | .undefined | .obj _ => none
  | .null => some (.finite 0)
  | .bool b => some (.finite (if b then 1 else 0))
  | .num n => some n
  | .str text => rt.toNumber text
  | .arr items => rt.toNumber (elementTexts rt items)

/-- Whether an option is the one of a value. -/
def isOption (rt : Runtime) (value : Value) : EnumValue → Bool
  | .str text => value.strictEq (.str text)
  | .num n => numberOf rt value == some n

def transformEnum (schema : EnumSchema) : Value :=
  match value with
  | .undefined => (schema.default.map EnumValue.toValue).getD .undefined
  | _ =>
    match schema.options.find? (isOption rt.toRuntime value) with
    | some option => option.toValue
    | none => context.fallback value

end Scalars

/-! ## Objects, references, arrays and tuples -/

/-- The results of a list of transformations, one after another. -/
def transformAll {ι : Type} (transform : ι → Transformation Value) :
    List ι → Transformation (List Value)
  | [] => pure []
  | item :: rest => do
    let result ← transform item
    let results ← transformAll transform rest
    return result :: results

section Nested

variable (rt : TransformRuntime) (child inner : Transform) (context : TransformContext)
  (value : Value)

/-- The loop over the properties, with the output and whether it is complete. -/
def transformProperties (fields : Fields) :
    List (String × AnySchema) → Fields → Bool → Transformation (Fields × Bool)
  | [], output, complete => pure (output, complete)
  | (propertyKey, schema) :: rest, output, complete => do
    let rawValue := get fields (getPropertyName propertyKey context.inputStyle)
    let newValue ← child context rawValue schema
    let outputName := schema.flags.alias?.getD (getPropertyName propertyKey context.outputStyle)
    if newValue.isUndefined then
      transformProperties fields rest output
        (complete && schema.flags.optional && rawValue.isNullish)
    else transformProperties fields rest (assign output outputName newValue) complete

/-- The name of a key that no property declares. -/
def extraName (preserve : Bool) (key : String) : String :=
  if preserve then key else getPropertyName key context.outputStyle

/-- The loop over the other keys, with the output: the keys left come with it. -/
def transformAdditional (preserve : Bool) (fields : Fields) (schema : AnySchema) :
    List String → Fields → Transformation (Fields × List String)
  | [], output => pure (output, [])
  | key :: rest, output => do
    let newValue ← child context (get fields key) schema
    if newValue.isUndefined then
      let more ← transformAdditional preserve fields schema rest output
      return (more.1, key :: more.2)
    else
      transformAdditional preserve fields schema rest
        (assign output (extraName context preserve key) newValue)

/-- The same, where there may be no schema for the other keys. -/
def transformOthers (preserve : Bool) (fields : Fields)
    (additional : Option (AnySchema × AnySchema)) (keys : List String) (output : Fields) :
    Transformation (Fields × List String) :=
  match additional with
  | some (_, schema) => transformAdditional child context preserve fields schema keys output
  | none => pure (output, keys)

/-- The keys that are left, as they are. -/
def copyExtra (preserve : Bool) (fields : Fields) (keys : List String) (output : Fields) :
    Fields :=
  keys.foldl
    (fun output key => assign output (extraName context preserve key) (get fields key)) output

/-- The context of the parts of an encoded value. -/
def TransformContext.inside (context : TransformContext) (encoded : Bool) : TransformContext :=
  if encoded then { context with convert := false } else context

/-- The object that is left of the properties and the other keys. -/
def transformFields (schema : ObjectSchema) (fields : Fields) : Transformation Value := do
  let definitions := schema.definitions
  let localContext := context.inside definitions.encoded
  let declared ← transformProperties child localContext fields schema.properties [] true
  if !declared.2 && !context.returns then
    return .undefined
  else
    let others := otherKeys context.inputStyle fields schema.properties
    let more ← transformOthers child localContext definitions.preserve fields schema.additional
      others declared.1
    let output :=
      if definitions.extensible then
        copyExtra context definitions.preserve fields more.2 more.1
      else more.1
    if definitions.encoded && value.isAnyObject then
      return .str (rt.encodeBase64Json (.obj output))
    else return .obj output

def transformObject (schema : ObjectSchema) : Transformation Value :=
  match value with
  | .undefined => pure ((schema.definitions.default.map Value.obj).getD .undefined)
  | _ =>
    match decoded rt.toRuntime value schema.definitions.encoded with
    | .obj fields => do
      setReference schema
      transformFields rt child context value schema fields
    | _ => pure (context.fallback value)

def transformReference (identity : Nat) : Transformation Value :=
  match value with
  | .undefined => pure .undefined
  | _ => do
    let references ← get
    match references identity with
    | none => throw identity
    | some schema => transformObject rt child context value schema

/-- The end of `transformArray`, for an array that may have been `given` as one. -/
def transformItems (each : Value → Transformation Value) (definitions : ArrayDefinitions)
    (given : Bool) (items : List Value) : Transformation Value := do
  let output ← transformAll each items
  if definitions.encoded && context.convert && given then
    return .str (rt.encodeBase64Json (.arr output))
  else return .arr output

def isArray : Value → Bool
  | .arr _ => true
  | _ => false

def transformArray (definitions : ArrayDefinitions) (element : AnySchema) :
    Transformation Value :=
  match value with
  | .undefined => pure ((definitions.default.map Value.arr).getD .undefined)
  | _ =>
    let localContext := context.inside definitions.encoded
    match decoded rt.toRuntime value definitions.encoded with
    | .str text =>
      if context.convert then
        transformItems rt context (fun piece => inner localContext piece element) definitions true
          ((stringToArray text).map .str)
      else pure (context.fallback value)
    | .arr items =>
      transformItems rt context (fun item => child localContext item element) definitions
        (isArray value) items
    | _ => pure (context.fallback value)

/-- The elements that a tuple declares. -/
def transformElements (each : Value → AnySchema → Transformation Value) (items : List Value)
    (elements : List AnySchema) : Transformation Value := do
  let output ← transformAll
    (fun element => each (items.getD element.2 .undefined) element.1) elements.zipIdx
  return .arr output

def transformTuple (definitions : TupleDefinitions) (elements : List AnySchema) :
    Transformation Value :=
  match value with
  | .undefined => pure ((definitions.default.map Value.arr).getD .undefined)
  | .str text =>
    if context.convert then
      transformElements (inner context) ((stringToArray text).map .str) elements
    else pure (context.fallback value)
  | .arr items => transformElements (child context) items elements
  | _ => pure (context.fallback value)

end Nested

/-! ## Unions and any schema -/

/-- The size that the results of a union are compared by. -/
def resultSize : Value → Nat
  | .obj fields => objectSize fields
  | .arr items => arraySize items
  | _ => 1

/-- The loop over the branches: the first result of the greatest size so far. -/
def transformBranches (transform : AnySchema → Transformation Value) :
    List AnySchema → Value → Option Nat → Transformation Value
  | [], lastValue, _ => pure lastValue
  | element :: rest, lastValue, lastSize => do
    let result ← transform element
    if result.isUndefined then transformBranches transform rest lastValue lastSize
    else if lastSize.all (· < resultSize result) then
      transformBranches transform rest result (some (resultSize result))
    else transformBranches transform rest lastValue lastSize

def transformUnion (branch : Transform) (context : TransformContext) (value : Value)
    (elements : List AnySchema) : Transformation Value :=
  match value with
  | .undefined => pure .undefined
  | _ => do
    let lastValue ←
      transformBranches (branch { context with returns := false } value) elements .undefined none
    return if lastValue.isUndefined then context.fallback value else lastValue

/-- `transformAny`, with the transformations of the parts of a value given. The fuel
is for the unions, and for the texts that arrays and tuples are read from. -/
def transformWith (rt : TransformRuntime) (child : Transform) : Nat → Transform
  | 0, _, _, _ => pure .undefined
  | fuel + 1, context, value, schema =>
    if value.strictEq .null && schema.flags.nullable then pure .null
    else
      match schema with
      | .boolean schema => pure (transformBoolean context value schema)
      | .number schema => pure (transformNumber rt context value schema)
      | .string schema => pure (transformString rt context value schema)
      | .enum schema => pure (transformEnum rt context value schema)
      | .object schema => transformObject rt child context value schema
      | .reference _ identity => transformReference rt child context value identity
      | .union _ _ elements =>
        transformUnion (transformWith rt child fuel) context value elements
      | .array _ definitions element =>
        transformArray rt child (transformWith rt child fuel) context value definitions element
      | .tuple _ definitions elements =>
        transformTuple child (transformWith rt child fuel) context value definitions elements

/-- `transformAny`, with the calls it can need for values of a smaller weight. -/
def transformAny (rt : TransformRuntime) : Nat → Transform
  | 0 => fun _ _ _ => pure .undefined
  | fuel + 1 => fun context value schema =>
    transformWith rt (transformAny rt fuel) (schema.nestDepth + 1) context value schema

/-- `transform(value, schema, context)`, with a new context. -/
def transform (rt : TransformRuntime) (value : Value) (schema : AnySchema)
    (context : TransformContext) : Except Nat Value :=
  (transformAny rt (weight value + 1) context value schema).run' fun _ => none

end Ez4.Schema

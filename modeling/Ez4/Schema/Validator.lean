import Ez4.Schema.Types

/-! # The validator

`validate` (`validator/src/schema/*.ts`). The references map that the calls
share is a state; a value's weight bounds the nested calls. -/
namespace Ez4.Schema
open Ez4.Utils

/-! ## Errors and the context -/

/-- An error, by its constructor. -/
structure ValidationError where
  name : String
  message : String
  propertyName : Option String
  inputValue : Value

structure ReferenceNotFoundError where
  reference : Nat
  propertyName : Option String

/-- A format of texts. What it accepts is not up to the property. -/
structure StringFormatHandler where
  validate : String → StringSchema → Option String → List ValidationError
  verdict : ∀ text schema property, validate text schema property = [] ↔
    validate text schema none = []

/-- What the code uses of its surroundings. -/
structure Runtime where
  /-- `Number(text)`, unless it is `NaN`. -/
  toNumber : String → Option Number
  /-- `number.toString()` -/
  numberText : Number → String
  /-- `JSON.parse` of a base64 text, or `undefined` when it throws. -/
  decodeBase64Json : String → Value
  /-- What is decoded is no larger than its text. -/
  decode_le : ∀ text, weight (decodeBase64Json text) ≤ weight (.str text)
  /-- `allCustomFormats` -/
  customFormats : String → Option StringFormatHandler

/-- The errors that a custom validation throws, if it does. -/
abbrev ValidationCustomHandler :=
  Value → AnySchema → Option String → String → Option (List ValidationError)

structure ValidationContext where
  onCustomValidation : Option ValidationCustomHandler := none
  pathStyle : Option NamingStyle := none
  inputStyle : Option NamingStyle := none
  property : Option String := none
  cast : Bool := false
  /-- Infinite when there is none. -/
  depth : Option Nat := none

abbrev References := Nat → Option ObjectSchema

/-- A call that reads and fills the references. -/
abbrev Validation := StateT References (Except ReferenceNotFoundError)

/-- A property that is given and not empty. -/
def named (property : Option String) : Option String := property.filter (· ≠ "")

def unexpectedType (name typeName : String) (property : Option String) (input : Value) :
    ValidationError where
  name := name
  message := match named property with
    | some path => "Type " ++ typeName ++ " for [" ++ path ++ "] is expected."
    | none => "Type " ++ typeName ++ " is expected."
  propertyName := property
  inputValue := input

def unexpectedValue (name formatted : String) (property : Option String) (input : Value) :
    ValidationError where
  name := name
  message := match named property with
    | some path => "Value " ++ formatted ++ " for [" ++ path ++ "] is expected."
    | none => "Value " ++ formatted ++ " is expected."
  propertyName := property
  inputValue := input

def unexpectedProperties (names : List String) (property : Option String) (input : Value) :
    ValidationError where
  name := "UnexpectedPropertiesError"
  message := match names with
    | [key] => "Property [" ++ key ++ "] is not expected."
    | _ =>
      if names.length < 15 then "Properties [" ++ ", ".intercalate names ++ "] are not expected."
      else "Remove all unexpected properties."
  propertyName := property
  inputValue := input

def boolText (b : Bool) : String := if b then "true" else "false"

/-- An option in the message of `UnexpectedEnumValueError`. -/
def optionText (rt : Runtime) : Value → String
  | .num n => rt.numberText n
  | .bool b => "'" ++ boolText b ++ "'"
  | .str s => "'" ++ s ++ "'"
  | _ => ""

def unexpectedEnumValue (rt : Runtime) (options : List Value) (property : Option String)
    (input : Value) : ValidationError :=
  unexpectedValue "UnexpectedEnumValueError" (", ".intercalate (options.map (optionText rt)))
    property input

def isNullishAllowed (value : Value) (flags : Flags) : Bool :=
  match value with
  | .null => flags.nullable
  | .undefined => flags.optional
  | _ => false

/-- `isDefaultAllowed`, which every type has for its own default. -/
def isDefaultAllowed {α : Type} (value : Value) (default : Option α) : Bool :=
  value.isUndefined && default.isSome

def useCustomValidation (value : Value) (schema : AnySchema) (types : List String)
    (context : ValidationContext) : List ValidationError :=
  match context.onCustomValidation with
  | none => []
  | some handler =>
    (types.findSome? fun type => handler value schema context.property type).getD []

/-- The end of a check: the custom validation, if there are types for it. -/
def customErrors (value : Value) (schema : AnySchema) (types : Option (List String))
    (context : ValidationContext) : List ValidationError :=
  match types with
  | some types => useCustomValidation value schema types context
  | none => []

/-- The error of a definition that the input breaks, or what comes after. -/
def constrain {α : Type} (definition : Option α) (breaks : α → Bool)
    (error : α → ValidationError) (rest : List ValidationError) : List ValidationError :=
  match definition.filter breaks with
  | some expected => [error expected]
  | none => rest

/-! ## Scalars and enums -/

section Scalars

variable (rt : Runtime) (context : ValidationContext) (value : Value)

/-- The boolean that is checked. -/
def booleanInput : Option Bool :=
  match value with
  | .bool b => some b
  | .str text =>
    if context.cast && text == "true" then some true
    else if context.cast && text == "false" then some false
    else none
  | _ => none

def validateBoolean (schema : BooleanSchema) : List ValidationError :=
  if isNullishAllowed value schema.flags || isDefaultAllowed value schema.default then []
  else
    match booleanInput context value with
    | none => [unexpectedType "ExpectedBooleanTypeError" "boolean" context.property value]
    | some input =>
      constrain schema.value (input ≠ ·)
        (fun expected =>
          unexpectedValue "UnexpectedBooleanError" (boolText expected) context.property value)
        (customErrors (.bool input) (.boolean schema) schema.types context)

/-- The number that is checked: none is `NaN` or no number. -/
def numberInput : Option Number :=
  match value with
  | .num n => some n
  | .str text => if context.cast then rt.toNumber text else none
  | _ => none

def validateNumber (schema : NumberSchema) : List ValidationError :=
  if isNullishAllowed value schema.flags || isDefaultAllowed value schema.default then []
  else
    match numberInput rt context value with
    | none => [unexpectedType "ExpectedNumberTypeError" "number" context.property value]
    | some input =>
      if schema.format == some "integer" && !isSafeInteger input then
        [unexpectedType "ExpectedIntegerTypeError" "integer" context.property value]
      else
        -- The input of the first goes to another argument of the error.
        constrain schema.value (input ≠ ·)
          (fun expected => unexpectedValue "UnexpectedNumberError" (rt.numberText expected)
            context.property .undefined) <|
        constrain schema.minValue (numberLt input ·)
          (fun least => unexpectedValue "UnexpectedMinRangeError"
            ("with min " ++ rt.numberText least) context.property value) <|
        constrain schema.maxValue (numberLt · input)
          (fun most => unexpectedValue "UnexpectedMaxRangeError"
            ("with max " ++ rt.numberText most) context.property value) <|
        customErrors (.num input) (.number schema) schema.types context

/-- The text that is checked. -/
def textInput (schema : StringSchema) : Option String :=
  match value with
  | .num n => if context.cast then some (rt.numberText n) else none
  | .bool b => if context.cast then some (boolText b) else none
  | .str text => some (if schema.trim then trim text else text)
  | _ => none

def validateStringFormat (text : String) (schema : StringSchema) (property : Option String) :
    List ValidationError :=
  match (named schema.format).bind rt.customFormats with
  | some onCustomFormat => onCustomFormat.validate text schema property
  | none => []

def validateString (schema : StringSchema) : List ValidationError :=
  if isNullishAllowed value schema.flags || isDefaultAllowed value schema.default then []
  else
    match textInput rt context value schema with
    | none => [unexpectedType "ExpectedStringTypeError" "string" context.property value]
    | some input =>
      let length := Number.finite (textLength input)
      constrain (named schema.value) (input ≠ ·)
        (fun expected => unexpectedValue "UnexpectedStringError" ("'" ++ expected ++ "'")
          context.property value) <|
      constrain schema.minLength (numberLt length ·)
        (fun least => unexpectedValue "UnexpectedMinLengthError"
          ("with min length (" ++ rt.numberText least ++ ")") context.property value) <|
      constrain schema.maxLength (numberLt · length)
        (fun most => unexpectedValue "UnexpectedMaxLengthError"
          ("with max length (" ++ rt.numberText most ++ ")") context.property value) <|
      let errors := validateStringFormat rt input schema context.property
      if errors.isEmpty then customErrors (.str input) (.string schema) schema.types context
      else errors

def validateEnum (schema : EnumSchema) : List ValidationError :=
  if isNullishAllowed value schema.flags || isDefaultAllowed value schema.default then []
  else if schema.options.any fun option => value.strictEq option.toValue then
    customErrors value (.enum schema) schema.types context
  else [unexpectedEnumValue rt (schema.options.map EnumValue.toValue) context.property value]

end Scalars

/-! ## Discriminators of a union -/

structure Discriminator where
  path : List String
  literals : List Value

def isPlainObjectSchema : AnySchema → Bool
  | .object schema => !schema.flags.optional && !schema.flags.nullable
  | _ => false

/-- The scalar that a schema requires. -/
def getLiteral (schema : AnySchema) : Option Value :=
  if schema.flags.optional || schema.flags.nullable then none
  else
    match schema with
    | .enum schema =>
      match schema.options with
      | [option] => some option.toValue
      | _ => none
    | .string schema => schema.value.map .str
    | .number schema => schema.value.map .num
    | .boolean schema => schema.value.map .bool
    | _ => none

/-- `object.properties[key]` -/
def propertySchema (key : String) : AnySchema → Option AnySchema
  | .object schema => find schema.properties key
  | _ => none

/-- `new Set(literals).size > 1` -/
def hasDistinct : List Value → Bool
  | [] => false
  | first :: rest => rest.any fun literal => !first.strictEq literal

/-- The first loop of `findDiscriminator`. -/
def findLiteral (elements : List AnySchema) (path : List String) (keys : List String) :
    Option Discriminator :=
  keys.findSome? fun key =>
    match elements.mapM fun element => (propertySchema key element).bind getLiteral with
    | some literals => if hasDistinct literals then some ⟨path ++ [key], literals⟩ else none
    | none => none

/-- The keys that all the branches have. -/
def sharedKeys : List AnySchema → List String
  | [] => []
  | first :: rest =>
    let keys := match first with
      | .object schema => keysOf schema.properties
      | _ => []
    keys.filter fun key => (first :: rest).all fun element => (propertySchema key element).isSome

/-- `findDiscriminator(elements, path)`, for objects nested less than so deep. -/
def findDiscriminatorIn : Nat → List AnySchema → List String → Option Discriminator
  | 0, _, _ => none
  | depth + 1, elements, path =>
    if elements.length < 2 || !elements.all isPlainObjectSchema then none
    else
      (findLiteral elements path (sharedKeys elements)).or
        ((sharedKeys elements).findSome? fun key =>
          (elements.mapM (propertySchema key)).bind fun schemas =>
            findDiscriminatorIn depth schemas (path ++ [key]))

def findDiscriminator (elements : List AnySchema) : Option Discriminator :=
  findDiscriminatorIn (AnySchema.objectDepthList elements + 1) elements []

/-- The value at a path, unless something on the way is no object. -/
def readPath (inputStyle : Option NamingStyle) : Value → List String → Option Value
  | value, [] => some value
  | .obj fields, key :: rest => readPath inputStyle (get fields (getPropertyName key inputStyle)) rest
  | _, _ :: _ => none

/-- `current.filter((_element, index) => literals[index] === input.value)` -/
def matching (current : List AnySchema) (literals : List Value) (input : Value) :
    List AnySchema :=
  ((current.zip literals).filter fun branch => branch.2.strictEq input).map Prod.fst

/-- `[...new Set(literals)]` -/
def distinctLiterals (literals : List Value) : List Value :=
  literals.foldl (fun seen literal =>
    if seen.any (·.strictEq literal) then seen else seen ++ [literal]) []

/-- The path of a discriminator, for its error. -/
def discriminatorPath (context : ValidationContext) (path : List String) : String :=
  let names := path.map fun key => getPropertyName key (context.pathStyle.or context.inputStyle)
  ".".intercalate ((context.property.toList ++ names).filter (· ≠ ""))

/-- Each round leaves fewer branches, so their number bounds the rounds. -/
def narrowByDiscriminators (rt : Runtime) (context : ValidationContext) (value : Value) :
    Nat → List AnySchema → Except ValidationError (List AnySchema)
  | 0, current => .ok current
  | rounds + 1, current =>
    match findDiscriminator current with
    | none => .ok current
    | some discriminator =>
      match readPath context.inputStyle value discriminator.path with
      | none => .ok current
      | some input =>
        match matching current discriminator.literals input with
        | [] => .error (unexpectedEnumValue rt (distinctLiterals discriminator.literals)
            (some (discriminatorPath context discriminator.path)) input)
        | branches => narrowByDiscriminators rt context value rounds branches

/-! ## Objects, references, arrays and tuples -/

/-- The errors of a list of checks, one after another. -/
def checkAll {ι : Type} (check : ι → Validation (List ValidationError)) :
    List ι → Validation (List ValidationError)
  | [] => pure []
  | item :: rest => do
    let errors ← check item
    let more ← checkAll check rest
    return errors ++ more

section Nested

/-- What the checks of the parts of a value are done with. -/
abbrev Check := ValidationContext → Value → AnySchema → Validation (List ValidationError)

variable (rt : Runtime) (child : Check) (context : ValidationContext) (value : Value)

/-- `depth > 0` -/
def ValidationContext.descends (context : ValidationContext) : Bool :=
  match context.depth with
  | none => true
  | some depth => 0 < depth

def ValidationContext.ifDescends (context : ValidationContext)
    (check : Validation (List ValidationError)) : Validation (List ValidationError) :=
  if context.descends then check else pure []

def getPropertyPath (childProperty : String) (parentProperty : Option String) : String :=
  match named parentProperty with
  | some parent => parent ++ "." ++ childProperty
  | none => childProperty

/-- The context of a property. -/
def ValidationContext.at (context : ValidationContext) (propertyName : String) :
    ValidationContext :=
  { context with
    property := some (getPropertyPath propertyName context.property)
    depth := context.depth.map (· - 1)
    pathStyle := context.pathStyle.or context.inputStyle }

/-- The context of an element of an array or a tuple. -/
def ValidationContext.atIndex (context : ValidationContext) (index : Nat) : ValidationContext :=
  { context with
    property := some (context.property.getD "undefined" ++ "." ++ toString index)
    depth := context.depth.map (· - 1) }

/-- `references[schema.identity] = schema` -/
def setReference {ε : Type} (schema : ObjectSchema) : StateT References (Except ε) Unit :=
  modify fun references =>
    match schema.identity with
    | some identity =>
      if identity = 0 then references
      else fun i => if i = identity then some schema else references i
    | none => references

def decoded (encoded : Bool) : Value :=
  match value with
  | .str text => if encoded then rt.decodeBase64Json text else value
  | _ => value

def validateProperties (fields : Fields) (properties : List (String × AnySchema)) :
    Validation (List ValidationError) :=
  checkAll (fun property => context.ifDescends
    (child (context.at (getPropertyName property.1 (context.pathStyle.or context.inputStyle)))
      (get fields (getPropertyName property.1 context.inputStyle)) property.2)) properties

/-- The loop over the other keys: the errors of their values, and the keys left. -/
def validateAdditional (preserve : Bool) (fields : Fields) (nameSchema valueSchema : AnySchema) :
    List String → Validation (List ValidationError × List String)
  | [] => pure ([], [])
  | key :: rest => do
    let nameErrors ← child { cast := true, depth := some 1 } (.str key) nameSchema
    let name :=
      if preserve then key else getPropertyName key (context.pathStyle.or context.inputStyle)
    let valueErrors ← context.ifDescends (child (context.at name) (get fields key) valueSchema)
    let more ← validateAdditional preserve fields nameSchema valueSchema rest
    return (valueErrors ++ more.1, if nameErrors.isEmpty then more.2 else key :: more.2)

/-- The same, where there may be no schema for the other keys. -/
def validateOthers (preserve : Bool) (fields : Fields)
    (additional : Option (AnySchema × AnySchema)) (keys : List String) :
    Validation (List ValidationError × List String) :=
  match additional with
  | some (nameSchema, valueSchema) =>
    validateAdditional child context preserve fields nameSchema valueSchema keys
  | none => pure ([], keys)

/-- The keys of an object that no property declares. -/
def otherKeys (inputStyle : Option NamingStyle) (fields : Fields)
    (properties : List (String × AnySchema)) : List String :=
  (keysOf fields).filter fun key =>
    !(properties.map fun property => getPropertyName property.1 inputStyle).contains key

def validateObject (schema : ObjectSchema) : Validation (List ValidationError) := do
  let definitions := schema.definitions
  if isNullishAllowed value schema.flags || isDefaultAllowed value definitions.default then
    return []
  setReference schema
  let input := decoded rt value definitions.encoded
  match input with
  | .obj fields =>
    let errors ← validateProperties child context fields schema.properties
    let others := otherKeys context.inputStyle fields schema.properties
    let more ← validateOthers child context definitions.preserve fields schema.additional others
    let extra :=
      if definitions.extensible || more.2.isEmpty then []
      else
        let names := more.2.map fun key =>
          if definitions.preserve then key else getPropertyPath key context.property
        [unexpectedProperties names context.property input]
    let allErrors := errors ++ more.1 ++ extra
    if allErrors.isEmpty then
      return customErrors input (.object schema) definitions.types context
    else return allErrors
  | _ => return [unexpectedType "ExpectedObjectTypeError" "object" context.property input]

def validateReference (flags : Flags) (identity : Nat) : Validation (List ValidationError) := do
  if isNullishAllowed value flags then
    return []
  let references ← get
  match references identity with
  | none => throw ⟨identity, context.property⟩
  | some schema => validateObject rt child context value schema

def validateArray (flags : Flags) (definitions : ArrayDefinitions) (element : AnySchema) :
    Validation (List ValidationError) := do
  if isNullishAllowed value flags || isDefaultAllowed value definitions.default then
    return []
  let input := decoded rt value definitions.encoded
  match input with
  | .arr items =>
    let length := Number.finite items.length
    let tooFew := constrain definitions.minLength (numberLt length ·)
      (fun least => unexpectedValue "UnexpectedMinItemsError"
        ("with min " ++ rt.numberText least ++ " item(s)") context.property input) []
    let tooMany := constrain definitions.maxLength (numberLt · length)
      (fun most => unexpectedValue "UnexpectedMaxItemsError"
        ("with max " ++ rt.numberText most ++ " item(s)") context.property input) []
    let errors ← context.ifDescends
      (checkAll (fun item => child (context.atIndex item.2) item.1 element) items.zipIdx)
    let allErrors := tooFew ++ tooMany ++ errors
    if allErrors.isEmpty then
      return customErrors input (.array flags definitions element) definitions.types context
    else return allErrors
  | _ => return [unexpectedType "ExpectedArrayTypeError" "array" context.property input]

def validateTuple (flags : Flags) (definitions : TupleDefinitions) (elements : List AnySchema) :
    Validation (List ValidationError) := do
  if isNullishAllowed value flags || isDefaultAllowed value definitions.default then
    return []
  match value with
  | .arr items =>
    let allErrors ← context.ifDescends
      (checkAll (fun element =>
        child (context.atIndex element.2) (items.getD element.2 .undefined) element.1)
        elements.zipIdx)
    if allErrors.isEmpty then
      return customErrors value (.tuple flags definitions elements) definitions.types context
    else return allErrors
  | _ => return [unexpectedType "ExpectedTupleTypeError" "tuple" context.property value]

end Nested

/-! ## Unions and any schema -/

def isSameError (target source : ValidationError) : Bool :=
  target.name == source.name && target.message == source.message

/-- The loop over the branches, with the fewest errors so far. -/
def validateBranches (check : AnySchema → Validation (List ValidationError))
    (onMatch : List ValidationError) :
    List AnySchema → List ValidationError → Option Nat → Validation (List ValidationError)
  | [], lastErrors, _ => pure lastErrors
  | element :: rest, lastErrors, lastSize => do
    let errors ← check element
    if errors.isEmpty then
      return onMatch
    else if lastSize == some errors.length then
      let fresh := errors.filter fun error => !lastErrors.any fun last => isSameError last error
      validateBranches check onMatch rest (lastErrors ++ fresh) lastSize
    else if lastSize.all (errors.length < ·) then
      validateBranches check onMatch rest errors (some errors.length)
    else validateBranches check onMatch rest lastErrors lastSize

/-- `validateAny`, with the checks of the parts of a value given. The fuel is for
the unions nested in one another. -/
def validateWith (rt : Runtime) (child : Check) : Nat → Check
  | 0, _, _, _ => pure []
  | fuel + 1, context, value, schema =>
    match schema with
    | .boolean schema => pure (validateBoolean context value schema)
    | .number schema => pure (validateNumber rt context value schema)
    | .string schema => pure (validateString rt context value schema)
    | .enum schema => pure (validateEnum rt context value schema)
    | .object schema => validateObject rt child context value schema
    | .reference flags identity => validateReference rt child context value flags identity
    | .array flags definitions element =>
      validateArray rt child context value flags definitions element
    | .tuple flags definitions elements =>
      validateTuple child context value flags definitions elements
    | .union flags types elements =>
      if isNullishAllowed value flags then pure []
      else
        match narrowByDiscriminators rt context value elements.length elements with
        | .error error => pure [error]
        | .ok narrowed =>
          validateBranches (validateWith rt child fuel context value)
            (customErrors value (.union flags types elements) types context) narrowed [] none

/-- `validateAny`, with the calls it can need for values of a smaller weight. -/
def validateAny (rt : Runtime) : Nat → Check
  | 0 => fun _ _ _ => pure []
  | fuel + 1 => fun context value schema =>
    validateWith rt (validateAny rt fuel) (schema.unionDepth + 1) context value schema

/-- `validate(value, schema, context)`, with a new context. -/
def validate (rt : Runtime) (value : Value) (schema : AnySchema) (context : ValidationContext) :
    Except ReferenceNotFoundError (List ValidationError) :=
  (validateAny rt (weight value + 1) context value schema).run' fun _ => none

end Ez4.Schema

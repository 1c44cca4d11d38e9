import Ez4.Schema.Validator
import Mathlib.Logic.Relation

/-! # Values that match a schema

What a schema means, by plain recursion: a union matches what one of its
elements matches, a reference what the object of its identity matches. -/
namespace Ez4.Schema
open Ez4.Utils

/-- A default other than none takes the place of `undefined`. -/
def AnySchema.hasDefault : AnySchema → Bool
  | .boolean schema => schema.default.isSome
  | .number schema => schema.default.isSome
  | .string schema => schema.default.isSome
  | .enum schema => schema.default.isSome
  | .object schema => schema.definitions.default.isSome
  | .array _ definitions _ => definitions.default.isSome
  | .tuple _ definitions _ => definitions.default.isSome
  | .reference _ _ | .union _ _ _ => false

structure NumberSchema.Accepts (schema : NumberSchema) (n : Number) : Prop where
  integer : schema.format = some "integer" → isSafeInteger n = true
  value : ∀ expected, schema.value = some expected → n = expected
  minValue : ∀ least, schema.minValue = some least → numberLt n least = false
  maxValue : ∀ most, schema.maxValue = some most → numberLt most n = false

structure StringSchema.Accepts (rt : Runtime) (schema : StringSchema) (text : String) : Prop where
  value : ∀ expected, schema.value = some expected → text = expected
  minLength : ∀ least, schema.minLength = some least →
    numberLt (.finite (textLength text)) least = false
  maxLength : ∀ most, schema.maxLength = some most →
    numberLt most (.finite (textLength text)) = false
  format : ∀ handler, (named schema.format).bind rt.customFormats = some handler →
    handler.validate text schema none = []

structure ArrayDefinitions.Accepts (definitions : ArrayDefinitions) (items : List Value) :
    Prop where
  minLength : ∀ least, definitions.minLength = some least →
    numberLt (.finite items.length) least = false
  maxLength : ∀ most, definitions.maxLength = some most →
    numberLt most (.finite items.length) = false

/-- A value matches a schema, with the objects of the identities. -/
inductive Matches (rt : Runtime) (objects : References) :
    Option NamingStyle → Bool → Value → AnySchema → Prop
  | nullish {style : Option NamingStyle} {cast : Bool} {value : Value} {schema : AnySchema}
    (h : isNullishAllowed value schema.flags = true) : Matches rt objects style cast value schema
  | default {style : Option NamingStyle} {cast : Bool} {schema : AnySchema}
    (h : schema.hasDefault = true) : Matches rt objects style cast .undefined schema
  | boolean {style : Option NamingStyle} {cast : Bool} {value : Value} {schema : BooleanSchema}
    {b : Bool} (hinput : booleanInput { cast } value = some b)
    (hvalue : ∀ expected, schema.value = some expected → b = expected) :
    Matches rt objects style cast value (.boolean schema)
  | number {style : Option NamingStyle} {cast : Bool} {value : Value} {schema : NumberSchema}
    {n : Number} (hinput : numberInput rt { cast } value = some n) (haccepts : schema.Accepts n) :
    Matches rt objects style cast value (.number schema)
  | string {style : Option NamingStyle} {cast : Bool} {value : Value} {schema : StringSchema}
    {text : String} (hinput : textInput rt { cast } value schema = some text)
    (haccepts : schema.Accepts rt text) : Matches rt objects style cast value (.string schema)
  | enum {style : Option NamingStyle} {cast : Bool} {schema : EnumSchema} {option : EnumValue}
    (hmem : option ∈ schema.options) :
    Matches rt objects style cast option.toValue (.enum schema)
  | object {style : Option NamingStyle} {cast : Bool} {value : Value} {schema : ObjectSchema}
    {fields : Fields} (hinput : decoded rt value schema.definitions.encoded = .obj fields)
    (hproperties : ∀ property ∈ schema.properties,
      Matches rt objects style cast (get fields (getPropertyName property.1 style)) property.2)
    (hvalues : ∀ additional, schema.additional = some additional →
      ∀ key ∈ otherKeys style fields schema.properties,
        Matches rt objects style cast (get fields key) additional.2)
    (hnames : ∀ additional, schema.additional = some additional →
      schema.definitions.extensible = false →
      ∀ key ∈ otherKeys style fields schema.properties,
        Matches rt objects none true (.str key) additional.1)
    (hextra : schema.additional = none → schema.definitions.extensible = false →
      otherKeys style fields schema.properties = []) :
    Matches rt objects style cast value (.object schema)
  | reference {style : Option NamingStyle} {cast : Bool} {value : Value} {flags : Flags}
    {identity : Nat} {schema : ObjectSchema} (hobject : objects identity = some schema)
    (h : Matches rt objects style cast value (.object schema)) :
    Matches rt objects style cast value (.reference flags identity)
  | union {style : Option NamingStyle} {cast : Bool} {value : Value} {flags : Flags}
    {types : Option (List String)} {elements : List AnySchema} {element : AnySchema}
    (hmem : element ∈ elements) (h : Matches rt objects style cast value element) :
    Matches rt objects style cast value (.union flags types elements)
  | array {style : Option NamingStyle} {cast : Bool} {value : Value} {flags : Flags}
    {definitions : ArrayDefinitions} {element : AnySchema} {items : List Value}
    (hinput : decoded rt value definitions.encoded = .arr items)
    (haccepts : definitions.Accepts items)
    (h : ∀ item ∈ items, Matches rt objects style cast item element) :
    Matches rt objects style cast value (.array flags definitions element)
  | tuple {style : Option NamingStyle} {cast : Bool} {flags : Flags}
    {definitions : TupleDefinitions} {elements : List AnySchema} {items : List Value}
    (h : ∀ element ∈ elements.zipIdx,
      Matches rt objects style cast (items.getD element.2 .undefined) element.1) :
    Matches rt objects style cast (.arr items) (.tuple flags definitions elements)

/-! ## A schema at a time -/

section Iff

variable {rt : Runtime} {objects : References} {style : Option NamingStyle} {cast : Bool}
  {value : Value}

/-- What an object has to be besides an object. -/
structure ObjectMatches (rt : Runtime) (objects : References) (style : Option NamingStyle)
    (cast : Bool) (schema : ObjectSchema) (fields : Fields) : Prop where
  properties : ∀ property ∈ schema.properties,
    Matches rt objects style cast (get fields (getPropertyName property.1 style)) property.2
  values : ∀ additional, schema.additional = some additional →
    ∀ key ∈ otherKeys style fields schema.properties,
      Matches rt objects style cast (get fields key) additional.2
  names : ∀ additional, schema.additional = some additional →
    schema.definitions.extensible = false →
    ∀ key ∈ otherKeys style fields schema.properties,
      Matches rt objects none true (.str key) additional.1
  extra : schema.additional = none → schema.definitions.extensible = false →
    otherKeys style fields schema.properties = []

/-- `undefined` or `null`, as the flags and the default allow. -/
def Absent (value : Value) (schema : AnySchema) : Prop :=
  isNullishAllowed value schema.flags = true ∨ value = .undefined ∧ schema.hasDefault = true

theorem Matches.absent {schema : AnySchema} (h : Absent value schema) :
    Matches rt objects style cast value schema := by
  rcases h with h | ⟨rfl, h⟩
  · exact .nullish h
  · exact .default h

theorem matches_object_iff {schema : ObjectSchema} :
    Matches rt objects style cast value (.object schema) ↔ Absent value (.object schema) ∨
      ∃ fields, decoded rt value schema.definitions.encoded = .obj fields ∧
        ObjectMatches rt objects style cast schema fields := by
  constructor
  · intro h
    cases h with
    | nullish h => exact .inl (.inl h)
    | default h => exact .inl (.inr ⟨rfl, h⟩)
    | object hinput hproperties hvalues hnames hextra =>
      exact .inr ⟨_, hinput, hproperties, hvalues, hnames, hextra⟩
  · rintro (h | ⟨fields, hinput, h⟩)
    · exact .absent h
    · exact .object hinput h.properties h.values h.names h.extra

theorem matches_reference_iff {flags : Flags} {identity : Nat} :
    Matches rt objects style cast value (.reference flags identity) ↔
      isNullishAllowed value flags = true ∨ ∃ schema, objects identity = some schema ∧
        Matches rt objects style cast value (.object schema) := by
  constructor
  · intro h
    cases h with
    | nullish h => exact .inl h
    | default h => cases h
    | reference hobject h => exact .inr ⟨_, hobject, h⟩
  · rintro (h | ⟨schema, hobject, h⟩)
    · exact .nullish h
    · exact .reference hobject h

theorem matches_union_iff {flags : Flags} {types : Option (List String)}
    {elements : List AnySchema} :
    Matches rt objects style cast value (.union flags types elements) ↔
      isNullishAllowed value flags = true ∨
        ∃ element ∈ elements, Matches rt objects style cast value element := by
  constructor
  · intro h
    cases h with
    | nullish h => exact .inl h
    | default h => cases h
    | union hmem h => exact .inr ⟨_, hmem, h⟩
  · rintro (h | ⟨element, hmem, h⟩)
    · exact .nullish h
    · exact .union hmem h

theorem matches_array_iff {flags : Flags} {definitions : ArrayDefinitions}
    {element : AnySchema} :
    Matches rt objects style cast value (.array flags definitions element) ↔
      Absent value (.array flags definitions element) ∨
        ∃ items, decoded rt value definitions.encoded = .arr items ∧ definitions.Accepts items ∧
          ∀ item ∈ items, Matches rt objects style cast item element := by
  constructor
  · intro h
    cases h with
    | nullish h => exact .inl (.inl h)
    | default h => exact .inl (.inr ⟨rfl, h⟩)
    | array hinput haccepts h => exact .inr ⟨_, hinput, haccepts, h⟩
  · rintro (h | ⟨items, hinput, haccepts, h⟩)
    · exact .absent h
    · exact .array hinput haccepts h

theorem matches_tuple_iff {flags : Flags} {definitions : TupleDefinitions}
    {elements : List AnySchema} :
    Matches rt objects style cast value (.tuple flags definitions elements) ↔
      Absent value (.tuple flags definitions elements) ∨
        ∃ items, value = .arr items ∧ ∀ element ∈ elements.zipIdx,
          Matches rt objects style cast (items.getD element.2 .undefined) element.1 := by
  constructor
  · intro h
    cases h with
    | nullish h => exact .inl (.inl h)
    | default h => exact .inl (.inr ⟨rfl, h⟩)
    | tuple h => exact .inr ⟨_, rfl, h⟩
  · rintro (h | ⟨items, rfl, h⟩)
    · exact .absent h
    · exact .tuple h

theorem matches_boolean_iff {schema : BooleanSchema} :
    Matches rt objects style cast value (.boolean schema) ↔ Absent value (.boolean schema) ∨
      ∃ b, booleanInput { cast } value = some b ∧
        ∀ expected, schema.value = some expected → b = expected := by
  constructor
  · intro h
    cases h with
    | nullish h => exact .inl (.inl h)
    | default h => exact .inl (.inr ⟨rfl, h⟩)
    | boolean hinput hvalue => exact .inr ⟨_, hinput, hvalue⟩
  · rintro (h | ⟨b, hinput, hvalue⟩)
    · exact .absent h
    · exact .boolean hinput hvalue

theorem matches_number_iff {schema : NumberSchema} :
    Matches rt objects style cast value (.number schema) ↔ Absent value (.number schema) ∨
      ∃ n, numberInput rt { cast } value = some n ∧ schema.Accepts n := by
  constructor
  · intro h
    cases h with
    | nullish h => exact .inl (.inl h)
    | default h => exact .inl (.inr ⟨rfl, h⟩)
    | number hinput haccepts => exact .inr ⟨_, hinput, haccepts⟩
  · rintro (h | ⟨n, hinput, haccepts⟩)
    · exact .absent h
    · exact .number hinput haccepts

theorem matches_string_iff {schema : StringSchema} :
    Matches rt objects style cast value (.string schema) ↔ Absent value (.string schema) ∨
      ∃ text, textInput rt { cast } value schema = some text ∧ schema.Accepts rt text := by
  constructor
  · intro h
    cases h with
    | nullish h => exact .inl (.inl h)
    | default h => exact .inl (.inr ⟨rfl, h⟩)
    | string hinput haccepts => exact .inr ⟨_, hinput, haccepts⟩
  · rintro (h | ⟨text, hinput, haccepts⟩)
    · exact .absent h
    · exact .string hinput haccepts

theorem matches_enum_iff {schema : EnumSchema} :
    Matches rt objects style cast value (.enum schema) ↔ Absent value (.enum schema) ∨
      ∃ option ∈ schema.options, value = option.toValue := by
  constructor
  · intro h
    cases h with
    | nullish h => exact .inl (.inl h)
    | default h => exact .inl (.inr ⟨rfl, h⟩)
    | enum hmem => exact .inr ⟨_, hmem, rfl⟩
  · rintro (h | ⟨option, hmem, rfl⟩)
    · exact .absent h
    · exact .enum hmem

end Iff

/-! ## What a value meets in a schema -/

/-- A value where it meets a schema. -/
structure Position where
  style : Option NamingStyle
  value : Value
  schema : AnySchema

/-- The positions that a position leads to. -/
inductive Part (rt : Runtime) (objects : References) : Position → Position → Prop
  | branch {style : Option NamingStyle} {value : Value} {flags : Flags}
    {types : Option (List String)} {elements : List AnySchema} {element : AnySchema}
    (hmem : element ∈ elements) :
    Part rt objects ⟨style, value, .union flags types elements⟩ ⟨style, value, element⟩
  | named {style : Option NamingStyle} {value : Value} {flags : Flags} {identity : Nat}
    {schema : ObjectSchema} (hobject : objects identity = some schema) :
    Part rt objects ⟨style, value, .reference flags identity⟩ ⟨style, value, .object schema⟩
  | property {style : Option NamingStyle} {value : Value} {schema : ObjectSchema}
    {fields : Fields} (hinput : decoded rt value schema.definitions.encoded = .obj fields)
    {property : String × AnySchema} (hmem : property ∈ schema.properties) :
    Part rt objects ⟨style, value, .object schema⟩
      ⟨style, get fields (getPropertyName property.1 style), property.2⟩
  | name {style : Option NamingStyle} {value : Value} {schema : ObjectSchema}
    {fields : Fields} (hinput : decoded rt value schema.definitions.encoded = .obj fields)
    {additional : AnySchema × AnySchema} (hadditional : schema.additional = some additional)
    {key : String} (hkey : key ∈ otherKeys style fields schema.properties) :
    Part rt objects ⟨style, value, .object schema⟩ ⟨none, .str key, additional.1⟩
  | value {style : Option NamingStyle} {value : Value} {schema : ObjectSchema}
    {fields : Fields} (hinput : decoded rt value schema.definitions.encoded = .obj fields)
    {additional : AnySchema × AnySchema} (hadditional : schema.additional = some additional)
    {key : String} (hkey : key ∈ otherKeys style fields schema.properties) :
    Part rt objects ⟨style, value, .object schema⟩ ⟨style, get fields key, additional.2⟩
  | item {style : Option NamingStyle} {value : Value} {flags : Flags}
    {definitions : ArrayDefinitions} {element : AnySchema} {items : List Value}
    (hinput : decoded rt value definitions.encoded = .arr items) {item : Value}
    (hmem : item ∈ items) :
    Part rt objects ⟨style, value, .array flags definitions element⟩ ⟨style, item, element⟩
  | element {style : Option NamingStyle} {items : List Value} {flags : Flags}
    {definitions : TupleDefinitions} {elements : List AnySchema} {element : AnySchema × Nat}
    (hmem : element ∈ elements.zipIdx) :
    Part rt objects ⟨style, .arr items, .tuple flags definitions elements⟩
      ⟨style, items.getD element.2 .undefined, element.1⟩

/-- What holds wherever a value meets a part of its schema. -/
def Everywhere (rt : Runtime) (objects : References) (P : Position → Prop) (p : Position) : Prop :=
  ∀ q, Relation.ReflTransGen (Part rt objects) p q → P q

section Everywhere

variable {rt : Runtime} {objects : References} {P : Position → Prop} {p q : Position}

theorem Everywhere.here (h : Everywhere rt objects P p) : P p := h p .refl

theorem Everywhere.part (h : Everywhere rt objects P p) (hpart : Part rt objects p q) :
    Everywhere rt objects P q := fun r hr => h r (.head hpart hr)

theorem Everywhere.of_parts (here : P p)
    (hparts : ∀ q, Part rt objects p q → Everywhere rt objects P q) :
    Everywhere rt objects P p := by
  intro r hr
  cases Relation.ReflTransGen.cases_head hr with
  | inl heq => exact heq ▸ here
  | inr h =>
    obtain ⟨q, hpart, hr⟩ := h
    exact hparts q hpart r hr

end Everywhere

/-! ## Identities -/

mutual

/-- The object schemas inside a schema. -/
def AnySchema.objects : AnySchema → List ObjectSchema
  | .object (.mk flags identity definitions properties additional) =>
    .mk flags identity definitions properties additional ::
      (objectsOfProperties properties ++ objectsOfAdditional additional)
  | .union _ _ elements | .tuple _ _ elements => objectsOfList elements
  | .array _ _ element => element.objects
  | .boolean _ | .number _ | .string _ | .enum _ | .reference _ _ => []

def objectsOfList : List AnySchema → List ObjectSchema
  | [] => []
  | schema :: rest => schema.objects ++ objectsOfList rest

def objectsOfProperties : List (String × AnySchema) → List ObjectSchema
  | [] => []
  | (_, schema) :: rest => schema.objects ++ objectsOfProperties rest

def objectsOfAdditional : Option (AnySchema × AnySchema) → List ObjectSchema
  | none => []
  | some (name, value) => name.objects ++ value.objects

end

/-- The object of an identity. -/
def AnySchema.objectOf (schema : AnySchema) : References := fun identity =>
  schema.objects.find? fun object => object.identity = some identity

/-- Every reference is inside the object that it names, an identity names one
object and nothing is encoded. -/
inductive Scoped (objects : References) : List Nat → AnySchema → Prop
  | boolean {known : List Nat} {schema : BooleanSchema} : Scoped objects known (.boolean schema)
  | number {known : List Nat} {schema : NumberSchema} : Scoped objects known (.number schema)
  | string {known : List Nat} {schema : StringSchema} : Scoped objects known (.string schema)
  | enum {known : List Nat} {schema : EnumSchema} : Scoped objects known (.enum schema)
  | reference {known : List Nat} {flags : Flags} {identity : Nat} (h : identity ∈ known) :
    Scoped objects known (.reference flags identity)
  | object {known : List Nat} {schema : ObjectSchema}
    (hplain : schema.definitions.encoded = false)
    (hidentity : ∀ identity, schema.identity = some identity →
      identity ≠ 0 ∧ objects identity = some schema)
    (hproperties : ∀ property ∈ schema.properties,
      Scoped objects (schema.identity.toList ++ known) property.2)
    (hnames : ∀ additional, schema.additional = some additional →
      Scoped objects (schema.identity.toList ++ known) additional.1)
    (hvalues : ∀ additional, schema.additional = some additional →
      Scoped objects (schema.identity.toList ++ known) additional.2) :
    Scoped objects known (.object schema)
  | union {known : List Nat} {flags : Flags} {types : Option (List String)}
    {elements : List AnySchema} (h : ∀ element ∈ elements, Scoped objects known element) :
    Scoped objects known (.union flags types elements)
  | array {known : List Nat} {flags : Flags} {definitions : ArrayDefinitions}
    {element : AnySchema} (hplain : definitions.encoded = false)
    (h : Scoped objects known element) : Scoped objects known (.array flags definitions element)
  | tuple {known : List Nat} {flags : Flags} {definitions : TupleDefinitions}
    {elements : List AnySchema} (h : ∀ element ∈ elements, Scoped objects known element) :
    Scoped objects known (.tuple flags definitions elements)

theorem Scoped.mono {objects : References} {known : List Nat} {schema : AnySchema}
    (h : Scoped objects known schema) :
    ∀ {more : List Nat}, known ⊆ more → Scoped objects more schema := by
  induction h with
  | boolean | number | string | enum => intro _ _; constructor
  | reference hmem => exact fun hsub => .reference (hsub hmem)
  | object hplain hidentity _ _ _ ihproperties ihnames ihvalues =>
    intro more hsub
    have hinner : ∀ identities : List Nat, identities ++ _ ⊆ identities ++ more :=
      fun _ i hi => List.mem_append.mpr ((List.mem_append.mp hi).imp_right (@hsub i))
    exact .object hplain hidentity (fun property hmem => ihproperties property hmem (hinner _))
      (fun additional ha => ihnames additional ha (hinner _))
      fun additional ha => ihvalues additional ha (hinner _)
  | union _ ih => exact fun hsub => .union fun element hmem => ih element hmem hsub
  | array hplain _ ih => exact fun hsub => .array hplain (ih hsub)
  | tuple _ ih => exact fun hsub => .tuple fun element hmem => ih element hmem hsub

end Ez4.Schema

import Ez4.Schema.Matches

/-! # Deeply equal schemas

The object that a schema is, and what `deepEqual` of two of them comes to: the
one accepts what the other accepts. The keys of the properties may be in another
order. -/
namespace Ez4.Schema
open Ez4.Utils

/-! ## The object of a schema -/

/-- A property that may be absent. -/
def given {α : Type} (value : α → Value) : Option α → Value
  | some a => value a
  | none => .undefined

def typesValue (types : Option (List String)) : Value := given (fun l => .arr (l.map .str)) types

/-- What every schema has. -/
def schemaBase (type : String) (flags : Flags) (definitions : Fields) : Fields :=
  [("type", .str type), ("optional", .bool flags.optional), ("nullable", .bool flags.nullable),
    ("alias", given .str flags.alias?), ("definitions", .obj definitions)]

def BooleanSchema.toFields (schema : BooleanSchema) : Fields :=
  schemaBase "boolean" schema.flags
    [("types", typesValue schema.types), ("default", given .bool schema.default),
      ("value", given .bool schema.value)]

def NumberSchema.toFields (schema : NumberSchema) : Fields :=
  schemaBase "number" schema.flags
    [("types", typesValue schema.types), ("minValue", given .num schema.minValue),
      ("maxValue", given .num schema.maxValue), ("default", given .num schema.default),
      ("value", given .num schema.value)] ++ [("format", given .str schema.format)]

def StringSchema.toFields (schema : StringSchema) : Fields :=
  schemaBase "string" schema.flags
    [("types", typesValue schema.types), ("minLength", given .num schema.minLength),
      ("maxLength", given .num schema.maxLength), ("trim", .bool schema.trim),
      ("lower", .bool schema.lower), ("upper", .bool schema.upper),
      ("pattern", given .str schema.pattern), ("default", given .str schema.default),
      ("value", given .str schema.value), ("name", given .str schema.name)] ++
    [("format", given .str schema.format)]

def EnumSchema.toFields (schema : EnumSchema) : Fields :=
  schemaBase "enum" schema.flags
    [("types", typesValue schema.types), ("default", given EnumValue.toValue schema.default)] ++
    [("options", .arr (schema.options.map fun option => .obj [("value", option.toValue)]))]

def ArrayDefinitions.toFields (definitions : ArrayDefinitions) : Fields :=
  [("types", typesValue definitions.types), ("minLength", given .num definitions.minLength),
    ("maxLength", given .num definitions.maxLength), ("default", given .arr definitions.default),
    ("encoded", .bool definitions.encoded)]

def TupleDefinitions.toFields (definitions : TupleDefinitions) : Fields :=
  [("types", typesValue definitions.types), ("default", given .arr definitions.default)]

def ObjectDefinitions.toFields (definitions : ObjectDefinitions) : Fields :=
  [("types", typesValue definitions.types), ("encoded", .bool definitions.encoded),
    ("extensible", .bool definitions.extensible), ("preserve", .bool definitions.preserve),
    ("default", given .obj definitions.default)]

def identityValue (identity : Nat) : Value := .num (.finite identity)

mutual

def AnySchema.toFields : AnySchema → Fields
  | .boolean schema => schema.toFields
  | .number schema => schema.toFields
  | .string schema => schema.toFields
  | .enum schema => schema.toFields
  | .object schema => schema.toFields
  | .reference flags identity =>
    schemaBase "reference" flags [] ++ [("identity", identityValue identity)]
  | .union flags types elements =>
    schemaBase "union" flags [("types", typesValue types)] ++
      [("elements", .arr (schemaItems elements))]
  | .array flags definitions element =>
    schemaBase "array" flags definitions.toFields ++ [("element", .obj element.toFields)]
  | .tuple flags definitions elements =>
    schemaBase "tuple" flags definitions.toFields ++ [("elements", .arr (schemaItems elements))]

def ObjectSchema.toFields : ObjectSchema → Fields
  | .mk flags identity definitions properties additional =>
    schemaBase "object" flags definitions.toFields ++
      [("identity", given identityValue identity), ("properties", .obj (schemaProperties properties)),
        ("additional", schemaAdditional additional)]

def schemaItems : List AnySchema → List Value
  | [] => []
  | schema :: rest => .obj schema.toFields :: schemaItems rest

def schemaProperties : List (String × AnySchema) → List (String × Value)
  | [] => []
  | (key, schema) :: rest => (key, .obj schema.toFields) :: schemaProperties rest

def schemaAdditional : Option (AnySchema × AnySchema) → Value
  | none => .undefined
  | some (property, value) =>
    .obj [("property", .obj property.toFields), ("value", .obj value.toFields)]

end

theorem schemaItems_eq (elements : List AnySchema) :
    schemaItems elements = elements.map fun schema => .obj schema.toFields := by
  induction elements with
  | nil => rfl
  | cons schema rest ih => rw [schemaItems, ih, List.map_cons]

theorem find_schemaProperties (properties : List (String × AnySchema)) (key : String) :
    find (schemaProperties properties) key =
      (find properties key).map fun schema => .obj schema.toFields := by
  induction properties with
  | nil => rfl
  | cons property rest ih =>
    rw [schemaProperties, find_cons, find_cons]
    split
    · rfl
    · exact ih

/-! ## Equal values -/

/-- Two values that `deepEqual` takes for equal where they stand in others. -/
def DeepEqual (a b : Value) : Prop := equalValues deepEqualArray (deepEqualObject {}) a b = true

theorem deepEqual_obj (a b : Fields) : DeepEqual (.obj a) (.obj b) ↔
    ∀ key, DeepEqual (get a key) (get b key) := by
  rw [DeepEqual, equalValues, deepEqualObject_eq, List.all_eq_true]
  refine ⟨fun h key => ?_, fun h key _ => ?_⟩
  · by_cases hk : key ∈ allKeys a b
    · exact h key hk
    · rw [mem_allKeys, not_or] at hk
      rw [get_eq, get_eq, find_eq_none.mpr hk.1, find_eq_none.mpr hk.2]
      rfl
  · exact h key

theorem deepEqual_arr (a b : List Value) : DeepEqual (.arr a) (.arr b) ↔
    ∀ index, DeepEqual (a.getD index .undefined) (b.getD index .undefined) := by
  have hunfold : deepEqualArray a b = (List.range (max a.length b.length)).all fun index =>
      equalValues deepEqualArray (deepEqualObject {}) (a.getD index .undefined)
        (b.getD index .undefined) := by
    rw [deepEqualArray, equalArray]
    congr 1
    funext index
    have hk := height_getD_le a index
    refine equalValues_congr _ (fun items s hi => ?_) fun fields s hf => ?_
    · exact equalArray_eq (by omega)
    · exact equalObject_eq (by omega)
  rw [DeepEqual, equalValues, hunfold, List.all_eq_true]
  refine ⟨fun h index => ?_, fun h index _ => h index⟩
  by_cases hi : index < max a.length b.length
  · exact h index (List.mem_range.mpr hi)
  · rw [List.getD_eq_getElem?_getD, List.getD_eq_getElem?_getD,
      List.getElem?_eq_none (by omega), List.getElem?_eq_none (by omega)]
    rfl

namespace DeepEqual

theorem get {a b : Fields} (h : DeepEqual (.obj a) (.obj b)) (key : String) :
    DeepEqual (get a key) (get b key) :=
  (deepEqual_obj a b).mp h key

theorem undefined_left {v : Value} (h : DeepEqual .undefined v) : v = .undefined := by
  cases v <;> first | rfl | cases h

theorem undefined_right {v : Value} (h : DeepEqual v .undefined) : v = .undefined := by
  cases v <;> first | rfl | cases h

theorem str {a b : String} (h : DeepEqual (.str a) (.str b)) : a = b := by
  simpa [DeepEqual, equalValues, Value.strictEq] using h

theorem num {a b : Number} (h : DeepEqual (.num a) (.num b)) : a = b := by
  simpa [DeepEqual, equalValues, Value.strictEq] using h

theorem bool {a b : Bool} (h : DeepEqual (.bool a) (.bool b)) : a = b := by
  simpa [DeepEqual, equalValues, Value.strictEq] using h

variable {α : Type} {f : α → Value} {R : α → α → Prop}

/-- Properties that may be absent. -/
theorem given (hne : ∀ a, f a ≠ .undefined) (hf : ∀ {a b}, DeepEqual (f a) (f b) → a = b)
    {a b : Option α} (h : DeepEqual (given f a) (given f b)) : a = b := by
  cases a with
  | none =>
    cases b with
    | none => rfl
    | some b => exact absurd h.undefined_left (hne b)
  | some a =>
    cases b with
    | none => exact absurd h.undefined_right (hne a)
    | some b => rw [hf h]

theorem isSome (hne : ∀ a, f a ≠ .undefined) {a b : Option α}
    (h : DeepEqual (Schema.given f a) (Schema.given f b)) : a.isSome = b.isSome := by
  cases a with
  | none =>
    cases b with
    | none => rfl
    | some b => exact absurd h.undefined_left (hne b)
  | some a =>
    cases b with
    | none => exact absurd h.undefined_right (hne a)
    | some b => rfl

/-- The items of two arrays, one by one. -/
theorem items (hne : ∀ a, f a ≠ .undefined) (hf : ∀ {a b}, DeepEqual (f a) (f b) → R a b)
    {l m : List α} (h : DeepEqual (.arr (l.map f)) (.arr (m.map f))) : List.Forall₂ R l m := by
  rw [deepEqual_arr] at h
  induction l generalizing m with
  | nil =>
    cases m with
    | nil => exact .nil
    | cons b m => exact absurd (h 0).undefined_left (hne b)
  | cons a l ih =>
    cases m with
    | nil => exact absurd (h 0).undefined_right (hne a)
    | cons b m => exact .cons (hf (h 0)) (ih fun index => h (index + 1))

theorem eq_of_items (hne : ∀ a, f a ≠ .undefined) (hf : ∀ {a b}, DeepEqual (f a) (f b) → a = b)
    {l m : List α} (h : DeepEqual (.arr (l.map f)) (.arr (m.map f))) : l = m :=
  List.forall₂_eq_eq_eq ▸ h.items hne hf

theorem givenStr {a b : Option String} (h : DeepEqual (Schema.given .str a) (Schema.given .str b)) :
    a = b := h.given (f := .str) (fun _ h => by cases h) str

theorem givenNum {a b : Option Number} (h : DeepEqual (Schema.given .num a) (Schema.given .num b)) :
    a = b := h.given (f := .num) (fun _ h => by cases h) num

theorem givenBool {a b : Option Bool} (h : DeepEqual (Schema.given .bool a) (Schema.given .bool b)) :
    a = b := h.given (f := .bool) (fun _ h => by cases h) bool

theorem types {a b : Option (List String)} (h : DeepEqual (typesValue a) (typesValue b)) : a = b :=
  h.given (f := fun l : List String => .arr (l.map .str)) (fun _ h => by cases h) fun h =>
    h.eq_of_items (f := .str) (fun _ h => by cases h) str

theorem enumValue {a b : EnumValue} (h : DeepEqual a.toValue b.toValue) : a = b := by
  cases a with
  | num a =>
    cases b with
    | num b => rw [num h]
    | str b => cases h
  | str a =>
    cases b with
    | num b => cases h
    | str b => rw [str h]

end DeepEqual

/-! ## Equal schemas -/

/-- The type of a schema, by its name. -/
def AnySchema.typeName : AnySchema → String
  | .boolean _ => "boolean"
  | .number _ => "number"
  | .string _ => "string"
  | .enum _ => "enum"
  | .object _ => "object"
  | .reference _ _ => "reference"
  | .union _ _ _ => "union"
  | .array _ _ _ => "array"
  | .tuple _ _ _ => "tuple"

theorem get_cons (property : String × Value) (rest : Fields) (key : String) :
    get (property :: rest) key = if property.1 = key then property.2 else get rest key := by
  rw [get_eq, find_cons]
  split <;> rfl

section Base

variable (type : String) (flags : Flags) (definitions rest : Fields)

theorem get_type : get (schemaBase type flags definitions ++ rest) "type" = .str type := by
  simp [schemaBase, get_cons]

theorem get_flags : get (schemaBase type flags definitions ++ rest) "optional" = .bool flags.optional ∧
    get (schemaBase type flags definitions ++ rest) "nullable" = .bool flags.nullable ∧
    get (schemaBase type flags definitions ++ rest) "alias" = given .str flags.alias? := by
  simp [schemaBase, get_cons]

end Base

/-- A schema as an object, cut after what every schema has. -/
theorem AnySchema.toFields_base (schema : AnySchema) : ∃ definitions rest,
    schema.toFields = schemaBase schema.typeName schema.flags definitions ++ rest := by
  cases schema with
  | boolean schema => exact ⟨_, [], (List.append_nil _).symm⟩
  | object schema =>
    cases schema
    exact ⟨_, _, rfl⟩
  | _ => exact ⟨_, _, rfl⟩

namespace DeepEqual

variable {p q : AnySchema}

theorem typeName (h : DeepEqual (.obj p.toFields) (.obj q.toFields)) : p.typeName = q.typeName := by
  obtain ⟨_, _, hp⟩ := p.toFields_base
  obtain ⟨_, _, hq⟩ := q.toFields_base
  have htype := h.get "type"
  rw [hp, hq, get_type, get_type] at htype
  exact htype.str

theorem flags (h : DeepEqual (.obj p.toFields) (.obj q.toFields)) : p.flags = q.flags := by
  obtain ⟨dp, rp, hp⟩ := p.toFields_base
  obtain ⟨dq, rq, hq⟩ := q.toFields_base
  have hpf := get_flags p.typeName p.flags dp rp
  have hqf := get_flags q.typeName q.flags dq rq
  have ho := h.get "optional"
  have hn := h.get "nullable"
  have ha := h.get "alias"
  rw [hp, hq, hpf.1, hqf.1] at ho
  rw [hp, hq, hpf.2.1, hqf.2.1] at hn
  rw [hp, hq, hpf.2.2, hqf.2.2] at ha
  generalize p.flags = f at ho hn ha
  generalize q.flags = g at ho hn ha
  cases f
  cases g
  simp only [Flags.mk.injEq]
  exact ⟨ho.bool, hn.bool, ha.givenStr⟩

theorem boolean {a b : BooleanSchema} (h : DeepEqual (.obj a.toFields) (.obj b.toFields)) :
    a = b := by
  have hflags : a.flags = b.flags := flags (p := .boolean a) (q := .boolean b) h
  have hd := h.get "definitions"
  have htypes := (get hd "types").types
  have hdefault := (get hd "default").givenBool
  have hvalue := (get hd "value").givenBool
  cases a
  cases b
  simp only [BooleanSchema.mk.injEq]
  exact ⟨hflags, htypes, hdefault, hvalue⟩

theorem number {a b : NumberSchema} (h : DeepEqual (.obj a.toFields) (.obj b.toFields)) :
    a = b := by
  have hflags : a.flags = b.flags := flags (p := .number a) (q := .number b) h
  have hformat := (get h "format").givenStr
  have hd := h.get "definitions"
  have htypes := (get hd "types").types
  have hmin := (get hd "minValue").givenNum
  have hmax := (get hd "maxValue").givenNum
  have hdefault := (get hd "default").givenNum
  have hvalue := (get hd "value").givenNum
  cases a
  cases b
  simp only [NumberSchema.mk.injEq]
  exact ⟨hflags, htypes, hmin, hmax, hdefault, hvalue, hformat⟩

theorem string {a b : StringSchema} (h : DeepEqual (.obj a.toFields) (.obj b.toFields)) :
    a = b := by
  have hflags : a.flags = b.flags := flags (p := .string a) (q := .string b) h
  have hformat := (get h "format").givenStr
  have hd := h.get "definitions"
  have htypes := (get hd "types").types
  have hmin := (get hd "minLength").givenNum
  have hmax := (get hd "maxLength").givenNum
  have htrim := (get hd "trim").bool
  have hlower := (get hd "lower").bool
  have hupper := (get hd "upper").bool
  have hpattern := (get hd "pattern").givenStr
  have hdefault := (get hd "default").givenStr
  have hvalue := (get hd "value").givenStr
  have hname := (get hd "name").givenStr
  cases a
  cases b
  simp only [StringSchema.mk.injEq]
  exact ⟨hflags, htypes, hmin, hmax, htrim, hlower, hupper, hpattern, hdefault, hvalue, hname,
    hformat⟩

theorem enum {a b : EnumSchema} (h : DeepEqual (.obj a.toFields) (.obj b.toFields)) : a = b := by
  have hflags : a.flags = b.flags := flags (p := .enum a) (q := .enum b) h
  have hd := h.get "definitions"
  have htypes := (get hd "types").types
  have hdefault : a.default = b.default := by
    refine (get hd "default").given (f := EnumValue.toValue) (fun value => ?_) enumValue
    cases value <;> nofun
  have hoptions : a.options = b.options :=
    (get h "options").eq_of_items (f := fun option : EnumValue => .obj [("value", option.toValue)])
      (fun _ h => by cases h) fun hoption => (get hoption "value").enumValue
  cases a
  cases b
  simp only [EnumSchema.mk.injEq]
  exact ⟨hflags, htypes, hdefault, hoptions⟩

end DeepEqual

/-- What a schema is by its type, beside an equal one. -/
inductive SameSchema : AnySchema → AnySchema → Prop
  | refl (schema : AnySchema) : SameSchema schema schema
  | object {a b : ObjectSchema} (hflags : a.flags = b.flags)
    (hencoded : a.definitions.encoded = b.definitions.encoded)
    (hextensible : a.definitions.extensible = b.definitions.extensible)
    (hdefault : a.definitions.default.isSome = b.definitions.default.isSome)
    (hproperties : ∀ key, DeepEqual (given (.obj ·) ((find a.properties key).map AnySchema.toFields))
      (given (.obj ·) ((find b.properties key).map AnySchema.toFields)))
    (hadditional : DeepEqual (schemaAdditional a.additional) (schemaAdditional b.additional)) :
    SameSchema (.object a) (.object b)
  | union {flags : Flags} {types : Option (List String)} {l m : List AnySchema}
    (h : List.Forall₂ (fun a b => DeepEqual (.obj a.toFields) (.obj b.toFields)) l m) :
    SameSchema (.union flags types l) (.union flags types m)
  | array {flags : Flags} {d e : ArrayDefinitions} {a b : AnySchema}
    (hencoded : d.encoded = e.encoded) (hmin : d.minLength = e.minLength)
    (hmax : d.maxLength = e.maxLength) (hdefault : d.default.isSome = e.default.isSome)
    (h : DeepEqual (.obj a.toFields) (.obj b.toFields)) :
    SameSchema (.array flags d a) (.array flags e b)
  | tuple {flags : Flags} {d e : TupleDefinitions} {l m : List AnySchema}
    (hdefault : d.default.isSome = e.default.isSome)
    (h : List.Forall₂ (fun a b => DeepEqual (.obj a.toFields) (.obj b.toFields)) l m) :
    SameSchema (.tuple flags d l) (.tuple flags e m)

theorem deepEqual_items {l m : List AnySchema}
    (h : DeepEqual (.arr (schemaItems l)) (.arr (schemaItems m))) :
    List.Forall₂ (fun a b : AnySchema => DeepEqual (.obj a.toFields) (.obj b.toFields)) l m := by
  rw [schemaItems_eq, schemaItems_eq] at h
  exact h.items (f := fun schema : AnySchema => .obj schema.toFields) (fun _ h => by cases h) id

theorem deepEqual_properties {l m : List (String × AnySchema)}
    (h : DeepEqual (.obj (schemaProperties l)) (.obj (schemaProperties m))) (key : String) :
    DeepEqual (given (.obj ·) ((find l key).map AnySchema.toFields))
      (given (.obj ·) ((find m key).map AnySchema.toFields)) := by
  have hkey := h.get key
  rw [get_eq, get_eq, find_schemaProperties, find_schemaProperties] at hkey
  cases hl : find l key <;> cases hm : find m key <;> rw [hl, hm] at hkey <;> exact hkey

theorem sameSchema_of_deepEqual {p q : AnySchema}
    (h : DeepEqual (.obj p.toFields) (.obj q.toFields)) : SameSchema p q := by
  have htype := h.typeName
  have hflags := h.flags
  cases q with
  | boolean b =>
    cases p with
    | boolean a => exact DeepEqual.boolean (a := a) (b := b) h ▸ .refl _
    | _ => simp [AnySchema.typeName] at htype
  | number b =>
    cases p with
    | number a => exact DeepEqual.number (a := a) (b := b) h ▸ .refl _
    | _ => simp [AnySchema.typeName] at htype
  | string b =>
    cases p with
    | string a => exact DeepEqual.string (a := a) (b := b) h ▸ .refl _
    | _ => simp [AnySchema.typeName] at htype
  | enum b =>
    cases p with
    | enum a => exact DeepEqual.enum (a := a) (b := b) h ▸ .refl _
    | _ => simp [AnySchema.typeName] at htype
  | reference g j =>
    cases p with
    | reference f i =>
      have hidentity := (DeepEqual.get h "identity").num
      obtain rfl : f = g := hflags
      obtain rfl : i = j := by simpa using hidentity
      exact .refl _
    | _ => simp [AnySchema.typeName] at htype
  | union g types m =>
    cases p with
    | union f others l =>
      obtain rfl : f = g := hflags
      obtain rfl : others = types := (DeepEqual.get (h.get "definitions") "types").types
      exact .union (deepEqual_items (DeepEqual.get h "elements"))
    | _ => simp [AnySchema.typeName] at htype
  | array g e b =>
    cases p with
    | array f d a =>
      obtain rfl : f = g := hflags
      have hd := h.get "definitions"
      exact .array (DeepEqual.get hd "encoded").bool (DeepEqual.get hd "minLength").givenNum
        (DeepEqual.get hd "maxLength").givenNum
        ((DeepEqual.get hd "default").isSome (f := .arr) fun _ => nofun) (DeepEqual.get h "element")
    | _ => simp [AnySchema.typeName] at htype
  | tuple g e m =>
    cases p with
    | tuple f d l =>
      obtain rfl : f = g := hflags
      have hd := h.get "definitions"
      exact .tuple ((DeepEqual.get hd "default").isSome (f := .arr) fun _ => nofun)
        (deepEqual_items (DeepEqual.get h "elements"))
    | _ => simp [AnySchema.typeName] at htype
  | object b =>
    cases p with
    | object a =>
      obtain ⟨f, i, d, l, x⟩ := a
      obtain ⟨g, j, e, m, y⟩ := b
      have hd := h.get "definitions"
      exact .object hflags (DeepEqual.get hd "encoded").bool (DeepEqual.get hd "extensible").bool
        ((DeepEqual.get hd "default").isSome (f := .obj) fun _ => nofun)
        (deepEqual_properties (DeepEqual.get h "properties")) (DeepEqual.get h "additional")
    | _ => simp [AnySchema.typeName] at htype

/-! ## What equal schemas accept -/

mutual

/-- An object has each key once. -/
def AnySchema.DistinctKeys : AnySchema → Prop
  | .object schema => schema.DistinctKeys
  | .union _ _ elements | .tuple _ _ elements => AllDistinct elements
  | .array _ _ element => element.DistinctKeys
  | _ => True

def ObjectSchema.DistinctKeys : ObjectSchema → Prop
  | .mk _ _ _ properties additional =>
    (keysOf properties).Nodup ∧ PropertiesDistinct properties ∧ AdditionalDistinct additional

def AllDistinct : List AnySchema → Prop
  | [] => True
  | schema :: rest => schema.DistinctKeys ∧ AllDistinct rest

def PropertiesDistinct : List (String × AnySchema) → Prop
  | [] => True
  | (_, schema) :: rest => schema.DistinctKeys ∧ PropertiesDistinct rest

def AdditionalDistinct : Option (AnySchema × AnySchema) → Prop
  | none => True
  | some (property, value) => property.DistinctKeys ∧ value.DistinctKeys

end

theorem allDistinct_iff {elements : List AnySchema} :
    AllDistinct elements ↔ ∀ schema ∈ elements, schema.DistinctKeys := by
  induction elements with
  | nil => simp [AllDistinct]
  | cons schema rest ih => rw [AllDistinct, ih, List.forall_mem_cons]

theorem PropertiesDistinct.of_mem {properties : List (String × AnySchema)} {key : String}
    {schema : AnySchema} (h : PropertiesDistinct properties) (hm : (key, schema) ∈ properties) :
    schema.DistinctKeys := by
  induction properties with
  | nil => cases hm
  | cons property rest ih =>
    obtain ⟨k, s⟩ := property
    rw [PropertiesDistinct] at h
    rcases List.mem_cons.mp hm with heq | hm
    · cases heq
      exact h.1
    · exact ih h.2 hm

theorem forall₂_getElem? {α β : Type} {R : α → β → Prop} {l : List α} {m : List β}
    (h : List.Forall₂ R l m) {index : Nat} {a : α} (hl : l[index]? = some a) :
    ∃ b, m[index]? = some b ∧ R a b := by
  induction h generalizing index with
  | nil => simp at hl
  | cons hab _ ih =>
    cases index with
    | zero =>
      obtain rfl := Option.some.inj hl
      exact ⟨_, rfl, hab⟩
    | succ index => exact ih hl

/-- The property of an equal schema. -/
theorem deepEqual_property {a b : Option AnySchema} {schema : AnySchema}
    (h : DeepEqual (given (.obj ·) (a.map AnySchema.toFields))
      (given (.obj ·) (b.map AnySchema.toFields))) (ha : a = some schema) :
    ∃ other, b = some other ∧ DeepEqual (.obj schema.toFields) (.obj other.toFields) := by
  subst ha
  cases b with
  | none => exact absurd h.undefined_right nofun
  | some other => exact ⟨other, rfl, h⟩

/-- The schemas of the other keys of an equal schema. -/
theorem deepEqual_additional {a b : Option (AnySchema × AnySchema)} {pair : AnySchema × AnySchema}
    (h : DeepEqual (schemaAdditional a) (schemaAdditional b)) (ha : a = some pair) :
    ∃ other, b = some other ∧ DeepEqual (.obj pair.1.toFields) (.obj other.1.toFields) ∧
      DeepEqual (.obj pair.2.toFields) (.obj other.2.toFields) := by
  subst ha
  cases b with
  | none => exact absurd h.undefined_right nofun
  | some other => exact ⟨other, rfl, h.get "property", h.get "value"⟩

theorem keysOf_of_deepEqual {l m : List (String × AnySchema)}
    (h : ∀ key, DeepEqual (given (.obj ·) ((find l key).map AnySchema.toFields))
      (given (.obj ·) ((find m key).map AnySchema.toFields))) (key : String) :
    key ∈ keysOf l ↔ key ∈ keysOf m := by
  have hkey := h key
  rw [mem_keysOf_iff, mem_keysOf_iff]
  generalize find l key = a at hkey
  generalize find m key = b at hkey
  cases a with
  | none =>
    cases b with
    | none => exact Iff.rfl
    | some b => exact absurd hkey.undefined_left nofun
  | some a =>
    cases b with
    | none => exact absurd hkey.undefined_right nofun
    | some b => simp

theorem otherKeys_congr {l m : List (String × AnySchema)} (h : ∀ key, key ∈ keysOf l ↔ key ∈ keysOf m)
    (style : Option NamingStyle) (fields : Fields) :
    otherKeys style fields l = otherKeys style fields m := by
  refine List.filter_congr fun key _ => ?_
  have hmem : key ∈ l.map (fun property => getPropertyName property.1 style) ↔
      key ∈ m.map fun property => getPropertyName property.1 style := by
    have hnames : ∀ properties : List (String × AnySchema),
        key ∈ properties.map (fun property => getPropertyName property.1 style) ↔
          ∃ name ∈ keysOf properties, getPropertyName name style = key := by
      intro properties
      simp [keysOf]
    rw [hnames, hnames]
    simp only [h]
  congr 1
  rw [Bool.eq_iff_iff, List.contains_iff_mem, List.contains_iff_mem]
  exact hmem

section Accepts

variable {rt : Runtime} {objects : References} {style : Option NamingStyle} {cast : Bool}
  {value : Value}

theorem hasDefault_of_same {p q : AnySchema} (h : SameSchema p q) : p.hasDefault = q.hasDefault := by
  cases h with
  | refl => rfl
  | object _ _ _ hdefault _ _ => exact hdefault
  | union _ => rfl
  | array _ _ _ hdefault _ => exact hdefault
  | tuple hdefault _ => exact hdefault

/-- **A schema accepts what an equal one accepts.** -/
theorem Matches.of_deepEqual {q : AnySchema} (hm : Matches rt objects style cast value q) :
    ∀ p : AnySchema, p.DistinctKeys → DeepEqual (.obj p.toFields) (.obj q.toFields) →
      Matches rt objects style cast value p := by
  induction hm with
  | nullish h =>
    intro p _ heq
    exact .nullish (heq.flags ▸ h)
  | default h =>
    intro p _ heq
    exact .default (hasDefault_of_same (sameSchema_of_deepEqual heq) ▸ h)
  | boolean hinput hvalue =>
    intro p _ heq
    cases sameSchema_of_deepEqual heq
    exact .boolean hinput hvalue
  | number hinput haccepts =>
    intro p _ heq
    cases sameSchema_of_deepEqual heq
    exact .number hinput haccepts
  | string hinput haccepts =>
    intro p _ heq
    cases sameSchema_of_deepEqual heq
    exact .string hinput haccepts
  | enum hmem =>
    intro p _ heq
    cases sameSchema_of_deepEqual heq
    exact .enum hmem
  | reference hobject h _ =>
    intro p _ heq
    cases sameSchema_of_deepEqual heq
    exact .reference hobject h
  | union hmem h ih =>
    intro p hp heq
    cases sameSchema_of_deepEqual heq with
    | refl => exact .union hmem h
    | union hall =>
      obtain ⟨index, hindex⟩ := List.getElem?_of_mem hmem
      obtain ⟨a, ha, hab⟩ := forall₂_getElem? hall.flip hindex
      have hmem := List.mem_of_getElem? ha
      exact .union hmem (ih a (allDistinct_iff.mp hp a hmem) hab)
  | array hinput haccepts h ih =>
    intro p hp heq
    cases sameSchema_of_deepEqual heq with
    | refl => exact .array hinput haccepts h
    | array hencoded hmin hmax _ hab =>
      refine .array (hencoded ▸ hinput) ⟨fun least hl => ?_, fun most hl => ?_⟩ fun item hitem =>
        ih item hitem _ hp hab
      · exact haccepts.minLength least (hmin ▸ hl)
      · exact haccepts.maxLength most (hmax ▸ hl)
  | tuple h ih =>
    intro p hp heq
    cases sameSchema_of_deepEqual heq with
    | refl => exact .tuple h
    | tuple _ hall =>
      refine .tuple fun element hmem => ?_
      have hindex := List.mem_zipIdx_iff_getElem?.mp hmem
      obtain ⟨b, hb, hab⟩ := forall₂_getElem? hall hindex
      exact ih (b, element.2) (List.mem_zipIdx_iff_getElem?.mpr hb) element.1
        (allDistinct_iff.mp hp _ (List.mem_of_getElem? hindex)) hab
  | @object style cast value schema fields hinput hproperties hvalues hnames hextra ihproperties ihvalues
      ihnames =>
    intro p hp heq
    cases sameSchema_of_deepEqual heq with
    | refl => exact .object hinput hproperties hvalues hnames hextra
    | @object a _ hflags hencoded hextensible _ hprops hadditional =>
      obtain ⟨flags, identity, definitions, properties, additional⟩ := a
      obtain ⟨hnodup, hdistinct, hmore⟩ := hp
      have hkeys := otherKeys_congr (keysOf_of_deepEqual hprops) style fields
      refine .object (hencoded ▸ hinput) (fun property hmem => ?_) (fun pair hpair key hkey => ?_)
        (fun pair hpair hext key hkey => ?_) fun hnone hext => ?_
      · obtain ⟨other, hother, hsame⟩ :=
          deepEqual_property (hprops property.1) (find_of_mem hnodup hmem)
        exact ihproperties (property.1, other) (mem_of_find hother) property.2
          (hdistinct.of_mem hmem) hsame
      · obtain ⟨other, hother, -, hsame⟩ := deepEqual_additional hadditional hpair
        cases hpair
        exact ihvalues other hother key (hkeys ▸ hkey) pair.2 hmore.2 hsame
      · obtain ⟨other, hother, hsame, -⟩ := deepEqual_additional hadditional hpair
        cases hpair
        exact ihnames other hother (hextensible ▸ hext) key (hkeys ▸ hkey) pair.1 hmore.1 hsame
      · refine hkeys.trans (hextra ?_ (hextensible ▸ hext))
        cases hother : schema.additional with
        | none => rfl
        | some other =>
          cases hnone
          rw [hother] at hadditional
          exact absurd hadditional.undefined_left nofun

end Accepts

end Ez4.Schema

import Ez4.Schema.Sizes
import Ez4.Schema.Validates

/-! # What the transformer leaves as it is

Without conversion, a value that matches is transformed to one deep equal to
it, where nothing of it is coerced or renamed on the way. -/
namespace Ez4.Schema
open Ez4.Utils Ez4.Library

/-! ## Where the transformer keeps a value -/

/-- No default, no alias and no normalization. -/
structure Plain (schema : AnySchema) : Prop where
  noDefault : schema.hasDefault = false
  noAlias : schema.flags.alias? = none
  verbatim : ∀ string : StringSchema, schema = .string string →
    string.trim = false ∧ string.lower = false ∧ string.upper = false

/-- What keeps the transformer from changing a value where it meets a schema. -/
structure Untouched (rt : TransformRuntime) (objects : References) (p : Position) : Prop where
  plain : Plain p.schema
  /-- No other value counts for a numeric option. -/
  numeric : ∀ schema : EnumSchema, p.schema = .enum schema → ∀ n, EnumValue.num n ∈ schema.options →
    numberOf rt.toRuntime p.value = some n → p.value = .num n
  /-- The keys that no property declares have the naming style. -/
  names : ∀ (schema : ObjectSchema) (fields : Fields), p.schema = .object schema →
    p.value = .obj fields → (schema.additional.isSome || schema.definitions.extensible) = true →
    schema.definitions.preserve = false → ∀ key ∈ otherKeys p.style fields schema.properties,
      getPropertyName key p.style = key
  /-- A reference allows itself what is nullish. -/
  reference : ∀ flags identity, p.schema = .reference flags identity → p.value.isNullish = true →
    Matches rt.toRuntime objects p.style false p.value p.schema →
      isNullishAllowed p.value flags = true
  /-- A union allows itself what is missing. -/
  union : ∀ flags types elements, p.schema = .union flags types elements → p.value = .undefined →
    Matches rt.toRuntime objects p.style false p.value p.schema → flags.optional = true
  /-- A tuple has no more elements than declared. -/
  tuple : ∀ flags definitions elements items, p.schema = .tuple flags definitions elements →
    p.value = .arr items → Matches rt.toRuntime objects p.style false p.value p.schema →
      items.length ≤ elements.length

/-- The same style in and out, and no conversion. -/
structure TransformContext.Keeps (context : TransformContext) : Prop where
  style : context.outputStyle = context.inputStyle
  convert : context.convert = false

/-- What is within a value, and the same when the value matches. -/
structure Result (m : Prop) (value result : Value) : Prop where
  within : Within result value
  proper : Proper result
  same : m → Same result value

/-- A transformation that keeps what matches, for the values below a weight. -/
def Transforms (rt : TransformRuntime) (objects : References) (bound : Nat)
    (transform : Transform) : Prop :=
  ∀ (known : List Nat) (context : TransformContext) (value : Value) (schema : AnySchema),
    weight value < bound → context.Keeps → Proper value → Closed objects known →
    Scoped objects known schema →
    Everywhere rt.toRuntime objects (Untouched rt objects) ⟨context.inputStyle, value, schema⟩ →
    Returns (Registered objects known) (Registered objects known) (transform context value schema)
      (Result (Matches rt.toRuntime objects context.inputStyle false value schema) value)

/-! ## Scalars -/

section Scalars

variable {rt : TransformRuntime} {objects : References} {context : TransformContext}
  {style : Option NamingStyle} {value result : Value} {m m' : Prop}

theorem Result.refl (h : Proper value) : Result m value value :=
  ⟨.refl value, h, fun _ => .refl value⟩

theorem Result.of_eq (h : Proper value) (heq : result = value ∨ result = .undefined)
    (hm : m → result = value) : Result m value result := by
  rcases heq with rfl | rfl
  · exact .refl h
  · exact ⟨.undefined value, .undefined, fun hmatches => hm hmatches ▸ .refl _⟩

theorem Result.imp (h : Result m value result) (hm : m' → m) : Result m' value result :=
  ⟨h.within, h.proper, fun hm' => h.same (hm hm')⟩

theorem fallback_eq (context : TransformContext) (value : Value) :
    context.fallback value = value ∨ context.fallback value = .undefined := by
  cases h : context.returns <;> simp [TransformContext.fallback, h]

theorem fallback_undefined (context : TransformContext) :
    context.fallback .undefined = .undefined := by
  cases h : context.returns <;> simp [TransformContext.fallback, h]

theorem Result.fallback (h : Proper value) (hnot : ¬ m) :
    Result m value (context.fallback value) :=
  .of_eq h (fallback_eq context value) fun hm => absurd hm hnot

theorem literalOr_eq (context : TransformContext) (expected : Option Value)
    (h : result = value ∨ result = .undefined) :
    literalOr context expected result = value ∨ literalOr context expected result = .undefined := by
  cases expected with
  | none => exact h
  | some expected =>
    simp only [literalOr]
    by_cases hc : (!expected.strictEq result && !context.returns) = true
    · exact .inr (if_pos hc)
    · rw [if_neg hc]
      exact h

theorem literalOr_of_strictEq {expected : Option Value}
    (h : ∀ literal, expected = some literal → literal.strictEq result = true) :
    literalOr context expected result = result := by
  cases expected with
  | none => rfl
  | some literal => simp [literalOr, h literal rfl]

theorem literalOr_result {expected : Option Value} (h : Proper value)
    (heq : result = value ∨ result = .undefined)
    (hm : m → result = value ∧ ∀ literal, expected = some literal → literal.strictEq value = true) :
    Result m value (literalOr context expected result) := by
  refine .of_eq h (literalOr_eq context expected heq) fun hmatches => ?_
  obtain ⟨rfl, hliteral⟩ := hm hmatches
  exact literalOr_of_strictEq hliteral

/-- A value that is there and not `null` in a nullable schema isn't absent. -/
theorem not_absent {schema : AnySchema} (hnull : value = .null → schema.flags.nullable = false)
    (hvalue : value ≠ .undefined) : ¬ Absent value schema := by
  rintro (h | ⟨rfl, -⟩)
  · cases value with
    | null => simp [isNullishAllowed, hnull rfl] at h
    | undefined => exact hvalue rfl
    | _ => simp [isNullishAllowed] at h
  · exact hvalue rfl

theorem transformBoolean_result (hproper : Proper value) (hconvert : context.convert = false)
    {schema : BooleanSchema} (hplain : Plain (.boolean schema))
    (hnull : value = .null → schema.flags.nullable = false) :
    Result (Matches rt.toRuntime objects style false value (.boolean schema)) value
      (transformBoolean context value schema) := by
  have hresult : value ≠ .undefined →
      Result (Matches rt.toRuntime objects style false value (.boolean schema)) value
        (literalOr context (schema.value.map .bool) (getBooleanValue context value)) := by
    intro hvalue
    refine literalOr_result hproper ?_ fun hm => ?_
    · cases value <;> simp [getBooleanValue, hconvert, fallback_eq, fallback_undefined]
    · obtain ⟨b, hinput, hb⟩ := (matches_boolean_iff.mp hm).resolve_left (not_absent hnull hvalue)
      obtain rfl : value = .bool b := by
        cases value <;> simp [booleanInput] at hinput ⊢
        exact hinput
      refine ⟨rfl, fun literal hliteral => ?_⟩
      obtain ⟨expected, hexpected, rfl⟩ := Option.map_eq_some_iff.mp hliteral
      simp [Value.strictEq, hb expected hexpected]
  cases value with
  | undefined =>
    have hdefault : schema.default = none := by simpa [AnySchema.hasDefault] using hplain.noDefault
    simp only [transformBoolean, hdefault]
    exact .refl hproper
  | _ => exact hresult (by simp)

theorem transformNumber_result (hproper : Proper value) (hconvert : context.convert = false)
    {schema : NumberSchema} (hplain : Plain (.number schema))
    (hnull : value = .null → schema.flags.nullable = false) :
    Result (Matches rt.toRuntime objects style false value (.number schema)) value
      (transformNumber rt context value schema) := by
  have hresult : value ≠ .undefined →
      Result (Matches rt.toRuntime objects style false value (.number schema)) value
        (literalOr context (schema.value.map .num) (getNumberValue rt context value)) := by
    intro hvalue
    refine literalOr_result hproper ?_ fun hm => ?_
    · cases value <;> simp [getNumberValue, hconvert, fallback_eq, fallback_undefined]
    · obtain ⟨n, hinput, hn⟩ := (matches_number_iff.mp hm).resolve_left (not_absent hnull hvalue)
      obtain rfl : value = .num n := by
        cases value <;> simp [numberInput] at hinput ⊢
        exact hinput
      refine ⟨rfl, fun literal hliteral => ?_⟩
      obtain ⟨expected, hexpected, rfl⟩ := Option.map_eq_some_iff.mp hliteral
      simp [Value.strictEq, hn.value expected hexpected]
  cases value with
  | undefined =>
    have hdefault : schema.default = none := by simpa [AnySchema.hasDefault] using hplain.noDefault
    simp only [transformNumber, hdefault]
    exact .refl hproper
  | _ => exact hresult (by simp)

theorem applyTransformations_plain {schema : StringSchema} (hplain : Plain (.string schema))
    (text : String) : applyTransformations rt text schema = text := by
  obtain ⟨htrim, hlower, hupper⟩ := hplain.verbatim schema rfl
  simp [applyTransformations, htrim, hlower, hupper]

theorem transformString_result (hproper : Proper value) (hconvert : context.convert = false)
    {schema : StringSchema} (hplain : Plain (.string schema))
    (hnull : value = .null → schema.flags.nullable = false) :
    Result (Matches rt.toRuntime objects style false value (.string schema)) value
      (transformString rt context value schema) := by
  have hresult : value ≠ .undefined →
      Result (Matches rt.toRuntime objects style false value (.string schema)) value
        (literalOr context (schema.value.map .str) (getStringValue rt context value schema)) := by
    intro hvalue
    refine literalOr_result hproper ?_ fun hm => ?_
    · cases value <;>
        simp [getStringValue, hconvert, fallback_eq, fallback_undefined, applyTransformations_plain hplain]
    · obtain ⟨text, hinput, ht⟩ :=
        (matches_string_iff.mp hm).resolve_left (not_absent hnull hvalue)
      obtain rfl : value = .str text := by
        cases value <;> simp [textInput, (hplain.verbatim schema rfl).1] at hinput ⊢
        exact hinput
      refine ⟨congrArg Value.str (applyTransformations_plain hplain text), fun literal hliteral => ?_⟩
      obtain ⟨expected, hexpected, rfl⟩ := Option.map_eq_some_iff.mp hliteral
      simp [Value.strictEq, ht.value expected hexpected]
  cases value with
  | undefined =>
    have hdefault : schema.default = none := by simpa [AnySchema.hasDefault] using hplain.noDefault
    simp only [transformString, hdefault]
    exact .refl hproper
  | _ => exact hresult (by simp)

/-- The options are looked up by their own values. -/
theorem transformEnum_result (hproper : Proper value) {schema : EnumSchema}
    (hplain : Plain (.enum schema)) (hnull : value = .null → schema.flags.nullable = false)
    (hnumeric : ∀ n, EnumValue.num n ∈ schema.options → numberOf rt.toRuntime value = some n →
      value = .num n) :
    Result (Matches rt.toRuntime objects style false value (.enum schema)) value
      (transformEnum rt context value schema) := by
  have hfound : ∀ option, schema.options.find? (isOption rt.toRuntime value) = some option →
      Result (Matches rt.toRuntime objects style false value (.enum schema)) value option.toValue := by
    intro option hfind
    have hoption := List.find?_some hfind
    have hsame : option.toValue = value := by
      cases option with
      | str text => exact (@strictEq_toValue value (.str text) |>.mp hoption).symm
      | num n =>
        have hnumber : numberOf rt.toRuntime value = some n := by simpa [isOption] using hoption
        exact (hnumeric n (List.mem_of_find?_eq_some hfind) hnumber).symm
    rw [hsame]
    exact .refl hproper
  have hmissing : value ≠ .undefined → schema.options.find? (isOption rt.toRuntime value) = none →
      Result (Matches rt.toRuntime objects style false value (.enum schema)) value
        (context.fallback value) := by
    intro hvalue hfind
    refine .fallback hproper fun hm => ?_
    obtain ⟨option, hmem, rfl⟩ := (matches_enum_iff.mp hm).resolve_left (not_absent hnull hvalue)
    have hnot := List.find?_eq_none.mp hfind option hmem
    cases option <;> simp [isOption, EnumValue.toValue, Value.strictEq, numberOf] at hnot
  cases value with
  | undefined =>
    have hdefault : schema.default = none := by simpa [AnySchema.hasDefault] using hplain.noDefault
    simp only [transformEnum, hdefault]
    exact .refl hproper
  | _ =>
    simp only [transformEnum]
    split
    · exact hfound _ ‹_›
    · exact hmissing (by simp) ‹_›

end Scalars

/-! ## Loops -/

section Loops

variable {I : References → Prop} {ι : Type}

theorem transformAll_returns {transform : ι → Transformation Value} {R : ι → Value → Prop}
    {items : List ι} (h : ∀ item ∈ items, Returns I I (transform item) (R item)) :
    Returns I I (transformAll transform items) (List.Forall₂ R items) := by
  induction items with
  | nil => exact .pure .nil
  | cons item rest ih =>
    refine .bind (h item List.mem_cons_self) fun result hresult => ?_
    refine .bind (ih fun other hmem => h other (List.mem_cons_of_mem _ hmem)) fun results hresults => ?_
    exact .pure (.cons hresult hresults)

/-- The results at an index, or nothing on both sides. -/
theorem forall₂_getD {R : ι → Value → Prop} {items : List ι} {results : List Value}
    (h : List.Forall₂ R items results) (index : Nat) :
    (items[index]? = none ∧ results.getD index .undefined = .undefined) ∨
      ∃ item, items[index]? = some item ∧ R item (results.getD index .undefined) := by
  induction h generalizing index with
  | nil => exact .inl ⟨rfl, rfl⟩
  | cons hresult _ ih =>
    cases index with
    | zero => exact .inr ⟨_, rfl, hresult⟩
    | succ index => exact ih index

theorem forall₂_proper {R : ι → Value → Prop} {items : List ι} {results : List Value}
    (h : List.Forall₂ R items results) (hR : ∀ item result, R item result → Proper result) :
    Proper (.arr results) := by
  refine .arr fun result hmem => ?_
  induction h with
  | nil => simp at hmem
  | cons hresult _ ih =>
    rcases List.mem_cons.mp hmem with rfl | hmem
    · exact hR _ _ hresult
    · exact ih hmem

/-! ### The output of an object -/

/-- An output within an object, with the keys that have been dealt with. -/
structure Output (m : Prop) (fields : Fields) (done : String → Prop) (output : Fields) : Prop where
  within : ∀ key, Within (get output key) (get fields key)
  proper : Proper (.obj output)
  same : m → ∀ key, done key → Same (get output key) (get fields key)

variable {m : Prop} {fields output : Fields} {done : String → Prop} {key : String} {value : Value}

theorem Output.empty : Output m fields (fun _ => False) [] where
  within _ := .undefined _
  proper := .obj List.nodup_nil fun _ h => absurd h List.not_mem_nil
  same _ _ h := h.elim

theorem Output.mono {done' : String → Prop} (h : Output m fields done output)
    (hdone : ∀ key, done' key → done key) : Output m fields done' output :=
  ⟨h.within, h.proper, fun hm key hkey => h.same hm key (hdone key hkey)⟩

theorem Output.assign (h : Output m fields done output) (hvalue : Result m (get fields key) value) :
    Output m fields (fun other => done other ∨ other = key) (assign output key value) where
  within other := by
    rw [get_assign]
    by_cases heq : key = other
    · rw [if_pos heq]
      exact heq ▸ hvalue.within
    · rw [if_neg heq]
      exact h.within other
  proper := h.proper.assign hvalue.proper
  same hm other hother := by
    rw [get_assign]
    by_cases heq : key = other
    · rw [if_pos heq]
      exact heq ▸ hvalue.same hm
    · rw [if_neg heq]
      exact h.same hm other (hother.resolve_right (Ne.symm heq))

/-- A property that is missing is missing in the output. -/
theorem Output.skip (h : Output m fields done output)
    (hvalue : Result m (get fields key) .undefined) :
    Output m fields (fun other => done other ∨ other = key) output where
  within := h.within
  proper := h.proper
  same hm other hother := by
    rcases hother with hother | rfl
    · exact h.same hm other hother
    · have hmissing : get fields other = .undefined := same_undefined (hvalue.same hm)
      have hwithin := h.within other
      rw [hmissing] at hwithin ⊢
      rw [within_undefined hwithin]
      exact .refl _

theorem isUndefined_iff {value : Value} : value.isUndefined = true ↔ value = .undefined := by
  cases value <;> simp [Value.isUndefined]

/-- An output whose object has all its keys dealt with. -/
theorem Output.result (h : Output m fields done output)
    (hall : m → ∀ key ∈ keysOf fields, done key) : Result m (.obj fields) (.obj output) where
  within := .obj h.within
  proper := h.proper
  same hm := by
    refine .obj fun key => ?_
    by_cases hkey : key ∈ keysOf fields
    · exact h.same hm key (hall hm key hkey)
    · have hwithin := h.within key
      rw [get_of_not_mem hkey] at hwithin ⊢
      rw [within_undefined hwithin]
      exact .refl _

/-- A key is one of a property or one of the others. -/
theorem declared_or_other {properties : List (String × AnySchema)} {style : Option NamingStyle}
    (h : key ∈ keysOf fields) : (∃ property ∈ properties, getPropertyName property.1 style = key) ∨
      key ∈ otherKeys style fields properties := by
  by_cases hdeclared : ∃ property ∈ properties, getPropertyName property.1 style = key
  · exact .inl hdeclared
  · refine .inr (List.mem_filter.mpr ⟨h, ?_⟩)
    simpa using hdeclared

variable {child : Transform} {context : TransformContext}

/-- `complete` stays, where what is missing is optional. -/
theorem transformProperties_returns {properties : List (String × AnySchema)} {complete : Bool}
    (hstyle : context.outputStyle = context.inputStyle)
    (hchild : ∀ property ∈ properties, property.2.flags.alias? = none ∧
      (m → get fields (getPropertyName property.1 context.inputStyle) = .undefined →
        property.2.flags.optional = true) ∧
      Returns I I (child context (get fields (getPropertyName property.1 context.inputStyle))
        property.2) (Result m (get fields (getPropertyName property.1 context.inputStyle))))
    (houtput : Output m fields done output) (hcomplete : m → complete = true) :
    Returns I I (transformProperties child context fields properties output complete) fun result =>
      Output m fields (fun key => done key ∨ ∃ property ∈ properties,
        getPropertyName property.1 context.inputStyle = key) result.1 ∧ (m → result.2 = true) := by
  induction properties generalizing done output complete with
  | nil => exact .pure ⟨houtput.mono fun key h => by simpa using h, hcomplete⟩
  | cons property rest ih =>
    obtain ⟨halias, hoptional, hreturns⟩ := hchild property List.mem_cons_self
    have hrest := fun other hmem => hchild other (List.mem_cons_of_mem property hmem)
    refine .bind hreturns fun newValue hresult => ?_
    dsimp only
    have hname : property.2.flags.alias?.getD (getPropertyName property.1 context.outputStyle) =
        getPropertyName property.1 context.inputStyle := by rw [halias, hstyle]; rfl
    have hdone : ∀ key, (done key ∨ ∃ other ∈ property :: rest,
        getPropertyName other.1 context.inputStyle = key) →
        (done key ∨ key = getPropertyName property.1 context.inputStyle) ∨
          ∃ other ∈ rest, getPropertyName other.1 context.inputStyle = key := by
      intro key hkey
      simp only [List.mem_cons, exists_eq_or_imp] at hkey
      rcases hkey with h | rfl | h
      · exact .inl (.inl h)
      · exact .inl (.inr rfl)
      · exact .inr h
    by_cases hundefined : newValue.isUndefined = true
    · rw [if_pos hundefined]
      obtain rfl := isUndefined_iff.mp hundefined
      refine (ih hrest (houtput.skip hresult) fun hm => ?_).weaken
        fun result h => ⟨h.1.mono hdone, h.2⟩
      have hmissing := same_undefined (hresult.same hm)
      rw [hcomplete hm, hoptional hm hmissing, hmissing]
      rfl
    · rw [if_neg hundefined, hname]
      exact (ih hrest (houtput.assign hresult) hcomplete).weaken
        fun result h => ⟨h.1.mono hdone, h.2⟩

theorem transformAdditional_returns {preserve : Bool} {schema : AnySchema} {keys : List String}
    (hchild : ∀ key ∈ keys, extraName context preserve key = key ∧
      Returns I I (child context (get fields key) schema) (Result m (get fields key)))
    (houtput : Output m fields done output) :
    Returns I I (transformAdditional child context preserve fields schema keys output) fun result =>
      Output m fields (fun key => done key ∨ key ∈ keys) result.1 ∧ result.2 ⊆ keys := by
  induction keys generalizing done output with
  | nil => exact .pure ⟨houtput.mono fun key h => by simpa using h, List.Subset.refl _⟩
  | cons key rest ih =>
    obtain ⟨hname, hreturns⟩ := hchild key List.mem_cons_self
    have hrest := fun other hmem => hchild other (List.mem_cons_of_mem key hmem)
    refine .bind hreturns fun newValue hresult => ?_
    have hdone : ∀ other, (done other ∨ other ∈ key :: rest) →
        (done other ∨ other = key) ∨ other ∈ rest := by
      intro other hother
      rw [List.mem_cons] at hother
      exact or_assoc.mpr hother
    by_cases hundefined : newValue.isUndefined = true
    · rw [if_pos hundefined]
      obtain rfl := isUndefined_iff.mp hundefined
      refine .bind (ih hrest (houtput.skip hresult)) fun more hmore => .pure ?_
      exact ⟨hmore.1.mono hdone, List.cons_subset_cons key hmore.2⟩
    · rw [if_neg hundefined, hname]
      exact (ih hrest (houtput.assign hresult)).weaken
        fun result h => ⟨h.1.mono hdone, List.subset_cons_of_subset key h.2⟩

/-- What is copied is the same. -/
theorem copyExtra_output {preserve : Bool} {keys : List String} (hproper : Proper (.obj fields))
    (hnames : ∀ key ∈ keys, extraName context preserve key = key)
    (houtput : Output m fields done output) :
    Output m fields (fun key => done key ∨ key ∈ keys)
      (copyExtra context preserve fields keys output) := by
  induction keys generalizing done output with
  | nil => exact houtput.mono fun key h => by simpa using h
  | cons key rest ih =>
    rw [copyExtra, List.foldl_cons, hnames key List.mem_cons_self]
    refine (ih (fun other hmem => hnames other (List.mem_cons_of_mem _ hmem))
      (houtput.assign (.refl (hproper.get key)))).mono fun other hother => ?_
    rw [List.mem_cons] at hother
    exact or_assoc.mpr hother

end Loops

/-! ## Objects, references, arrays and tuples -/

section Nested

variable {rt : TransformRuntime} {objects : References} {known : List Nat}
  {context : TransformContext} {style : Option NamingStyle} {value : Value}
  {child inner : Transform}

/-- What may be missing is optional. -/
theorem optional_of_matches {schema : AnySchema}
    (huntouched : Untouched rt objects ⟨style, .undefined, schema⟩)
    (h : Matches rt.toRuntime objects style false .undefined schema) :
    schema.flags.optional = true := by
  have habsent : Absent .undefined schema → schema.flags.optional = true := by
    rintro (hnullish | ⟨-, hdefault⟩)
    · exact hnullish
    · rw [huntouched.plain.noDefault] at hdefault
      cases hdefault
  cases schema with
  | boolean schema =>
    exact habsent ((matches_boolean_iff.mp h).resolve_right fun ⟨_, hinput, _⟩ => nomatch hinput)
  | number schema =>
    exact habsent ((matches_number_iff.mp h).resolve_right fun ⟨_, hinput, _⟩ => nomatch hinput)
  | string schema =>
    exact habsent ((matches_string_iff.mp h).resolve_right fun ⟨_, hinput, _⟩ => nomatch hinput)
  | enum schema =>
    refine habsent ((matches_enum_iff.mp h).resolve_right fun ⟨option, _, hoption⟩ => ?_)
    cases option <;> cases hoption
  | object schema =>
    exact habsent ((matches_object_iff.mp h).resolve_right fun ⟨_, hinput, _⟩ => nomatch hinput)
  | reference flags identity => exact huntouched.reference flags identity rfl rfl h
  | union flags types elements => exact huntouched.union flags types elements rfl rfl h
  | array flags definitions element =>
    exact habsent ((matches_array_iff.mp h).resolve_right fun ⟨_, hinput, _⟩ => nomatch hinput)
  | tuple flags definitions elements =>
    exact habsent ((matches_tuple_iff.mp h).resolve_right fun ⟨_, hinput, _⟩ => nomatch hinput)

/-- A key that no property declares keeps its name. -/
theorem extraName_eq {schema : ObjectSchema} {fields : Fields} {key : String}
    (huntouched : Untouched rt objects ⟨context.inputStyle, .obj fields, .object schema⟩)
    (hkeeps : context.Keeps)
    (hextra : (schema.additional.isSome || schema.definitions.extensible) = true)
    (hkey : key ∈ otherKeys context.inputStyle fields schema.properties) :
    extraName context schema.definitions.preserve key = key := by
  rw [extraName, hkeeps.style]
  cases hpreserve : schema.definitions.preserve with
  | true => rfl
  | false => exact huntouched.names schema fields rfl rfl hextra hpreserve key hkey

theorem Result.undefined {m : Prop} (hnot : ¬ m) : Result m value .undefined :=
  ⟨.undefined value, .undefined, fun hm => absurd hm hnot⟩

theorem decoded_false (value : Value) (schema : ObjectSchema)
    (h : schema.definitions.encoded = false) :
    decoded rt.toRuntime value schema.definitions.encoded = value := by
  rw [h, decoded_plain]

variable (hchild : Transforms rt objects (weight value) child) (hkeeps : context.Keeps)
  (hproper : Proper value) (hclosed : Closed objects known)

include hchild hkeeps hproper hclosed

/-- The other keys, where there may be no schema for them. -/
theorem transformOthers_returns {m : Prop} {done : String → Prop} {schema : ObjectSchema}
    {fields output : Fields} (hvalue : value = .obj fields)
    (hencoded : schema.definitions.encoded = false)
    (hvalues : ∀ additional, schema.additional = some additional →
      Scoped objects known additional.2)
    (huntouched : Everywhere rt.toRuntime objects (Untouched rt objects)
      ⟨context.inputStyle, value, .object schema⟩)
    (hm : m → ObjectMatches rt.toRuntime objects context.inputStyle false schema fields)
    (houtput : Output m fields done output) :
    Returns (Registered objects known) (Registered objects known)
      (transformOthers child context schema.definitions.preserve fields schema.additional
        (otherKeys context.inputStyle fields schema.properties) output) fun more =>
      Output m fields (fun key => done key ∨ schema.additional.isSome = true ∧
        key ∈ otherKeys context.inputStyle fields schema.properties) more.1 ∧
      more.2 ⊆ otherKeys context.inputStyle fields schema.properties ∧
      (schema.additional = none →
        more.2 = otherKeys context.inputStyle fields schema.properties) := by
  subst hvalue
  cases hadditional : schema.additional with
  | none =>
    exact .pure ⟨houtput.mono fun key h => by simpa using h, List.Subset.refl _, fun _ => rfl⟩
  | some additional =>
    refine (transformAdditional_returns (fun key hkey => ⟨?_, ?_⟩) houtput).weaken
      fun more hmore => ⟨hmore.1.mono fun key h => h.imp_right And.right, hmore.2, fun h => nomatch h⟩
    · exact extraName_eq huntouched.here hkeeps (by rw [hadditional]; rfl) hkey
    · have hinput := @decoded_false rt (.obj fields) schema hencoded
      refine (hchild known context _ additional.2 (weight_get_lt fields key) hkeeps
        (hproper.get key) hclosed (hvalues additional hadditional)
        (huntouched.part (.value hinput hadditional hkey))).weaken fun result hresult => ?_
      exact hresult.imp fun hmatches => (hm hmatches).values additional hadditional key hkey

theorem transformFields_returns {schema : ObjectSchema} {fields : Fields}
    (hvalue : value = .obj fields) (hencoded : schema.definitions.encoded = false)
    (hproperties : ∀ property ∈ schema.properties, Scoped objects known property.2)
    (hvalues : ∀ additional, schema.additional = some additional →
      Scoped objects known additional.2)
    (huntouched : Everywhere rt.toRuntime objects (Untouched rt objects)
      ⟨context.inputStyle, value, .object schema⟩) :
    Returns (Registered objects known) (Registered objects known)
      (transformFields rt child context value schema fields)
      (Result (Matches rt.toRuntime objects context.inputStyle false value (.object schema))
        value) := by
  subst hvalue
  have hinput := @decoded_false rt (.obj fields) schema hencoded
  have hmatches : Matches rt.toRuntime objects context.inputStyle false (.obj fields)
      (.object schema) → ObjectMatches rt.toRuntime objects context.inputStyle false schema
        fields := by
    intro hm
    rcases matches_object_iff.mp hm with habsent | ⟨_, heq, hobject⟩
    · simp [Absent, isNullishAllowed] at habsent
    · rw [hinput] at heq
      cases heq
      exact hobject
  have hinside : context.inside schema.definitions.encoded = context := by rw [hencoded]; rfl
  unfold transformFields
  dsimp only
  rw [hinside]
  refine .bind (transformProperties_returns (m := Matches rt.toRuntime objects context.inputStyle
    false (.obj fields) (.object schema)) hkeeps.style (fun property hmem => ?_) .empty
    fun _ => rfl) fun declared hdeclared => ?_
  · have hpart := huntouched.part (.property hinput hmem)
    refine ⟨hpart.here.plain.noAlias, fun hm hmissing => ?_, ?_⟩
    · have hproperty := (hmatches hm).properties property hmem
      have hhere := hpart.here
      rw [hmissing] at hproperty hhere
      exact optional_of_matches hhere hproperty
    · refine (hchild known context _ property.2 (weight_get_lt fields _) hkeeps (hproper.get _)
        hclosed (hproperties property hmem) hpart).weaken fun result hresult => ?_
      exact hresult.imp fun hm => (hmatches hm).properties property hmem
  by_cases hincomplete : (!declared.2 && !context.returns) = true
  · rw [if_pos hincomplete]
    refine .pure (.undefined fun hm => ?_)
    simp [hdeclared.2 hm] at hincomplete
  · rw [if_neg hincomplete]
    refine .bind (transformOthers_returns hchild hkeeps hproper hclosed rfl hencoded hvalues
      huntouched hmatches hdeclared.1) fun more hmore => ?_
    obtain ⟨houtput, hsubset, hleft⟩ := hmore
    rw [hencoded]
    by_cases hextensible : schema.definitions.extensible = true
    · rw [if_pos hextensible]
      refine .pure ((copyExtra_output hproper (fun key hkey => ?_) houtput).result
        fun _ key hkey => ?_)
      · exact extraName_eq huntouched.here hkeeps (by simp [hextensible]) (hsubset hkey)
      · rcases declared_or_other hkey with hdeclared | hother
        · exact .inl (.inl (.inr hdeclared))
        · cases hadditional : schema.additional with
          | none => exact .inr (hleft hadditional ▸ hother)
          | some additional => exact .inl (.inr ⟨rfl, hother⟩)
    · rw [if_neg hextensible]
      refine .pure (houtput.result fun hm key hkey => ?_)
      rcases declared_or_other hkey with hdeclared | hother
      · exact .inl (.inr hdeclared)
      · cases hadditional : schema.additional with
        | none =>
          have hnil := (hmatches hm).extra hadditional (by simpa using hextensible)
          rw [hnil] at hother
          exact absurd hother List.not_mem_nil
        | some additional => exact .inr ⟨rfl, hother⟩

theorem transformObject_returns {schema : ObjectSchema}
    (hnull : value = .null → schema.flags.nullable = false)
    (hscoped : Scoped objects known (.object schema))
    (huntouched : Everywhere rt.toRuntime objects (Untouched rt objects)
      ⟨context.inputStyle, value, .object schema⟩) :
    Returns (Registered objects known) (Registered objects known)
      (transformObject rt child context value schema)
      (Result (Matches rt.toRuntime objects context.inputStyle false value (.object schema))
        value) := by
  have hclosed' := hclosed.object hscoped
  cases hscoped with
  | object hencoded hidentity hproperties hnames hvalues =>
    have hinput := @decoded_false rt value schema hencoded
    have hdefault : schema.definitions.default = none := by
      simpa [AnySchema.hasDefault] using huntouched.here.plain.noDefault
    unfold transformObject
    rw [hinput]
    cases value with
    | undefined =>
      rw [hdefault]
      exact .pure (.refl hproper)
    | obj fields =>
      refine .bind (setReference_returns hidentity) fun _ _ =>
        .weaken_state (J := Registered objects (schema.identity.toList ++ known)) ?_
          fun _ => Registered.tail
      exact transformFields_returns hchild hkeeps hproper hclosed' rfl hencoded hproperties hvalues
        huntouched
    | _ =>
      refine .pure (.fallback hproper fun hm => ?_)
      obtain ⟨fields, hfields, -⟩ :=
        (matches_object_iff.mp hm).resolve_left (not_absent hnull (by simp))
      rw [hinput] at hfields
      cases hfields

theorem transformReference_returns {flags : Flags} {identity : Nat}
    (hnull : value = .null → flags.nullable = false)
    (hscoped : Scoped objects known (.reference flags identity))
    (huntouched : Everywhere rt.toRuntime objects (Untouched rt objects)
      ⟨context.inputStyle, value, .reference flags identity⟩) :
    Returns (Registered objects known) (Registered objects known)
      (transformReference rt child context value identity)
      (Result (Matches rt.toRuntime objects context.inputStyle false value
        (.reference flags identity)) value) := by
  cases hscoped with
  | reference hmem =>
    obtain ⟨schema, hobject, hscoped⟩ := hclosed identity hmem
    have hpart := huntouched.part (.named hobject)
    have hfound : ∀ references, Registered objects known references →
        references identity = some schema := by
      intro references hreferences
      obtain ⟨found, hfound⟩ := hreferences.known identity hmem
      rw [hfound, ← hreferences.sound identity found hfound, hobject]
    have hreturns : value ≠ .undefined → value ≠ .null →
        Returns (Registered objects known) (Registered objects known)
          (transformObject rt child context value schema)
          (Result (Matches rt.toRuntime objects context.inputStyle false value
            (.reference flags identity)) value) := by
      intro hdefined hnotNull
      refine (transformObject_returns hchild hkeeps hproper hclosed (fun h => absurd h hnotNull)
        hscoped hpart).weaken fun result hresult => hresult.imp fun hm => ?_
      have hallowed : ¬ isNullishAllowed value flags = true := by
        cases value <;> simp [isNullishAllowed] at hdefined hnotNull ⊢
      obtain ⟨found, hfound, hmatches⟩ := (matches_reference_iff.mp hm).resolve_left hallowed
      rw [hobject] at hfound
      cases hfound
      exact hmatches
    cases value with
    | undefined => exact .pure (.refl hproper)
    | null =>
      refine .get_bind fun references hreferences => ?_
      rw [hfound references hreferences]
      refine Returns.pure (.fallback hproper fun hm => ?_)
      have := huntouched.here.reference flags identity rfl rfl hm
      simp [isNullishAllowed, hnull rfl] at this
    | _ =>
      refine .get_bind fun references hreferences => ?_
      rw [hfound references hreferences]
      exact hreturns (by simp) (by simp)

theorem transformArray_returns {flags : Flags} {definitions : ArrayDefinitions}
    {element : AnySchema} (hnull : value = .null → flags.nullable = false)
    (hscoped : Scoped objects known (.array flags definitions element))
    (huntouched : Everywhere rt.toRuntime objects (Untouched rt objects)
      ⟨context.inputStyle, value, .array flags definitions element⟩) :
    Returns (Registered objects known) (Registered objects known)
      (transformArray rt child inner context value definitions element)
      (Result (Matches rt.toRuntime objects context.inputStyle false value
        (.array flags definitions element)) value) := by
  cases hscoped with
  | array hencoded hscoped =>
    have hdefault : definitions.default = none := by
      simpa [AnySchema.hasDefault] using huntouched.here.plain.noDefault
    have hnot : ∀ {other : Value}, other = value → other ≠ .undefined →
        (∀ items, other ≠ .arr items) → ¬ Matches rt.toRuntime objects context.inputStyle false value
          (.array flags definitions element) := by
      rintro _ rfl hdefined hitems hm
      obtain ⟨items, heq, -⟩ := (matches_array_iff.mp hm).resolve_left (not_absent hnull hdefined)
      rw [hencoded, decoded_plain] at heq
      exact hitems items heq
    unfold transformArray
    rw [hencoded, decoded_plain]
    cases value with
    | undefined =>
      rw [hdefault]
      exact .pure (.refl hproper)
    | arr items =>
      have hinput : decoded rt.toRuntime (.arr items) definitions.encoded = .arr items := rfl
      refine .bind (transformAll_returns (R := fun item => Result
        (Matches rt.toRuntime objects context.inputStyle false item element) item)
        fun item hmem => ?_) fun output houtput => ?_
      · cases hproper with
        | arr hproper =>
          exact hchild known context item element (weight_item_lt hmem) hkeeps (hproper item hmem)
            hclosed hscoped (huntouched.part (.item hinput hmem))
      · rw [hencoded]
        refine .pure ⟨.arr fun index => ?_, forall₂_proper houtput fun _ _ h => h.proper,
          fun hm => .arr fun index => ?_⟩
        · rw [List.getD_eq_getElem?_getD (l := items)]
          rcases forall₂_getD houtput index with ⟨-, hresult⟩ | ⟨item, hitem, hresult⟩
          · rw [hresult]
            exact .undefined _
          · rw [hitem]
            exact hresult.within
        · rw [List.getD_eq_getElem?_getD (l := items)]
          rcases forall₂_getD houtput index with ⟨hitem, hresult⟩ | ⟨item, hitem, hresult⟩
          · rw [hresult, hitem]
            exact .refl _
          · rw [hitem]
            obtain ⟨_, heq, -, hitems⟩ :=
              (matches_array_iff.mp hm).resolve_left (not_absent hnull (by simp))
            rw [hinput] at heq
            cases heq
            exact hresult.same (hitems item (List.mem_of_getElem? hitem))
    | str text =>
      dsimp only
      rw [if_neg (by simp [hkeeps.convert])]
      exact .pure (.fallback hproper (hnot rfl (by simp) (by simp)))
    | _ => exact .pure (.fallback hproper (hnot rfl (by simp) (by simp)))

/-- What comes after the declared elements is dropped. -/
theorem transformTuple_returns {flags : Flags} {definitions : TupleDefinitions}
    {elements : List AnySchema} (hnull : value = .null → flags.nullable = false)
    (hscoped : Scoped objects known (.tuple flags definitions elements))
    (huntouched : Everywhere rt.toRuntime objects (Untouched rt objects)
      ⟨context.inputStyle, value, .tuple flags definitions elements⟩) :
    Returns (Registered objects known) (Registered objects known)
      (transformTuple child inner context value definitions elements)
      (Result (Matches rt.toRuntime objects context.inputStyle false value
        (.tuple flags definitions elements)) value) := by
  cases hscoped with
  | tuple hscoped =>
    have hdefault : definitions.default = none := by
      simpa [AnySchema.hasDefault] using huntouched.here.plain.noDefault
    have hnot : ∀ {other : Value}, other = value → other ≠ .undefined →
        (∀ items, other ≠ .arr items) → ¬ Matches rt.toRuntime objects context.inputStyle false value
          (.tuple flags definitions elements) := by
      rintro _ rfl hdefined hitems hm
      obtain ⟨items, heq, -⟩ := (matches_tuple_iff.mp hm).resolve_left (not_absent hnull hdefined)
      exact hitems items heq
    unfold transformTuple
    cases value with
    | undefined =>
      rw [hdefault]
      exact .pure (.refl hproper)
    | arr items =>
      refine .bind (transformAll_returns (R := fun declared : AnySchema × Nat => Result
        (Matches rt.toRuntime objects context.inputStyle false (items.getD declared.2 .undefined)
          declared.1) (items.getD declared.2 .undefined)) fun declared hmem => ?_)
        fun output houtput => ?_
      · exact hchild known context _ declared.1 (weight_getD_lt items declared.2) hkeeps
          (hproper.getD declared.2) hclosed (hscoped declared.1 (List.fst_mem_of_mem_zipIdx hmem))
          (huntouched.part (.element hmem))
      · have hindex : ∀ {index : Nat} {declared : AnySchema × Nat},
            elements.zipIdx[index]? = some declared → declared.2 = index := by
          intro index declared h
          rw [List.getElem?_zipIdx] at h
          obtain ⟨element, -, rfl⟩ := Option.map_eq_some_iff.mp h
          simp
        refine .pure ⟨.arr fun index => ?_, forall₂_proper houtput fun _ _ h => h.proper,
          fun hm => .arr fun index => ?_⟩
        · rcases forall₂_getD houtput index with ⟨-, hresult⟩ | ⟨declared, hdeclared, hresult⟩
          · rw [hresult]
            exact .undefined _
          · rw [hindex hdeclared] at hresult
            exact hresult.within
        · obtain ⟨_, heq, hitems⟩ :=
            (matches_tuple_iff.mp hm).resolve_left (not_absent hnull (by simp))
          cases heq
          rcases forall₂_getD houtput index with ⟨hnone, hresult⟩ | ⟨declared, hdeclared, hresult⟩
          · have hlength := huntouched.here.tuple flags definitions elements items rfl rfl hm
            have hafter : elements.length ≤ index := by simpa using hnone
            have hitem : items.getD index .undefined = .undefined := by
              rw [List.getD_eq_getElem?_getD, List.getElem?_eq_none (by omega)]
              rfl
            rw [hresult, hitem]
            exact .refl _
          · have hsame := hresult.same (hitems declared (List.mem_of_getElem? hdeclared))
            rw [hindex hdeclared] at hsame
            exact hsame
    | str text =>
      dsimp only
      rw [if_neg (by simp [hkeeps.convert])]
      exact .pure (.fallback hproper (hnot rfl (by simp) (by simp)))
    | _ => exact .pure (.fallback hproper (hnot rfl (by simp) (by simp)))

end Nested

/-! ## Unions -/

/-- The best result so far, with its size. -/
structure Best (good : Prop) (value lastValue : Value) (lastSize : Option Nat) : Prop where
  result : Result good value lastValue
  size : lastSize = if lastValue.isUndefined then none else some (resultSize lastValue)

section Union

variable {rt : Runtime} {objects : References} {style : Option NamingStyle}
  {good p : Prop} {value lastValue result : Value} {lastSize : Option Nat}

theorem Best.none_iff (h : Best good value lastValue lastSize) :
    lastSize = none ↔ lastValue = .undefined := by
  rw [h.size, ← isUndefined_iff]
  cases lastValue.isUndefined <;> simp

theorem Best.size_eq (h : Best good value lastValue lastSize) (hne : lastValue ≠ .undefined) :
    lastSize = some (resultSize lastValue) := by
  rw [h.size, if_neg fun hundefined => hne (isUndefined_iff.mp hundefined)]

theorem Best.skip (hvalue : value ≠ .undefined) (h : Best good value lastValue lastSize)
    (hresult : Result p value .undefined) :
    Best (good ∨ p) value lastValue lastSize := by
  refine ⟨h.result.imp fun hgood => hgood.resolve_right fun hp => ?_, h.size⟩
  exact hvalue (same_undefined (hresult.same hp))

/-- A result of a greater size is the value, if one of them is. -/
theorem Best.replace (hproper : Proper value) (hvalue : value ≠ .undefined)
    (h : Best good value lastValue lastSize) (hresult : Result p value result)
    (hne : result ≠ .undefined) (hgreater : lastSize.all (· < resultSize result) = true) :
    Best (good ∨ p) value result (some (resultSize result)) := by
  refine ⟨⟨hresult.within, hresult.proper, fun hgood => ?_⟩, ?_⟩
  · rcases hgood with hgood | hp
    · have hsame := h.result.same hgood
      have hlast : lastValue ≠ .undefined := fun heq => hvalue (same_undefined (heq ▸ hsame))
      rw [h.size_eq hlast] at hgreater
      have hlt : resultSize lastValue < resultSize result := by simpa using hgreater
      have hle := hresult.within.itemSize_le hresult.proper hproper
      rw [← hsame.itemSize_eq h.result.proper hproper, hresult.within.resultSize_eq hne,
        h.result.within.resultSize_eq hlast] at hle
      omega
    · exact hresult.same hp
  · rw [if_neg fun hundefined => hne (isUndefined_iff.mp hundefined)]

/-- A result that is no greater isn't the value, unless the best one is too. -/
theorem Best.keep (hproper : Proper value) (h : Best good value lastValue lastSize)
    (hresult : Result p value result) (hne : result ≠ .undefined) (hle : lastSize.all (· < resultSize result) = false) :
    Best (good ∨ p) value lastValue lastSize := by
  refine ⟨⟨h.result.within, h.result.proper, fun hgood => ?_⟩, h.size⟩
  rcases hgood with hgood | hp
  · exact h.result.same hgood
  · have hlast : lastValue ≠ .undefined := by
      intro heq
      rw [h.none_iff.mpr heq] at hle
      cases hle
    rw [h.size_eq hlast] at hle
    have hge : resultSize result ≤ resultSize lastValue := by simpa using hle
    refine h.result.within.same h.result.proper hproper ?_
    rw [← (hresult.same hp).itemSize_eq hresult.proper hproper,
      hresult.within.resultSize_eq hne, h.result.within.resultSize_eq hlast]
    omega

theorem transformBranches_returns (hproper : Proper value) (hvalue : value ≠ .undefined)
    {I : References → Prop}
    {transform : AnySchema → Transformation Value} {P : AnySchema → Prop}
    {branches : List AnySchema}
    (hbranches : ∀ branch ∈ branches, Returns I I (transform branch) (Result (P branch) value))
    (h : Best good value lastValue lastSize) :
    Returns I I (transformBranches transform branches lastValue lastSize)
      (Result (good ∨ ∃ branch ∈ branches, P branch) value) := by
  induction branches generalizing good lastValue lastSize with
  | nil => exact .pure (h.result.imp fun hgood => by simpa using hgood)
  | cons branch rest ih =>
    have hrest := fun other hmem => hbranches other (List.mem_cons_of_mem branch hmem)
    have hgood : good ∨ (∃ other ∈ branch :: rest, P other) →
        (good ∨ P branch) ∨ ∃ other ∈ rest, P other := by
      simp only [List.mem_cons, exists_eq_or_imp]
      exact or_assoc.mpr
    refine .bind (hbranches branch List.mem_cons_self) fun result hresult => ?_
    by_cases hundefined : result.isUndefined = true
    · rw [if_pos hundefined]
      obtain rfl := isUndefined_iff.mp hundefined
      exact (ih hrest (h.skip hvalue hresult)).weaken fun _ hr => hr.imp hgood
    · rw [if_neg hundefined]
      have hne : result ≠ .undefined := fun heq => hundefined (isUndefined_iff.mpr heq)
      by_cases hgreater : lastSize.all (· < resultSize result) = true
      · rw [if_pos hgreater]
        exact (ih hrest (h.replace hproper hvalue hresult hne hgreater)).weaken
          fun _ hr => hr.imp hgood
      · rw [if_neg hgreater]
        exact (ih hrest (h.keep hproper hresult hne (by simpa using hgreater))).weaken
          fun _ hr => hr.imp hgood

theorem transformUnion_returns {context : TransformContext} {branch : Transform}
    {flags : Flags} {types : Option (List String)} {elements : List AnySchema}
    {I : References → Prop} (hproper : Proper value) (hnull : value = .null → flags.nullable = false)
    (hbranches : ∀ element ∈ elements,
      Returns I I (branch { context with returns := false } value element)
        (Result (Matches rt objects context.inputStyle false value element) value)) :
    Returns I I (transformUnion branch context value elements)
      (Result (Matches rt objects context.inputStyle false value (.union flags types elements))
        value) := by
  by_cases hvalue : value = .undefined
  · subst hvalue
    exact .pure (.refl hproper)
  · have hbest : Best False value .undefined none := ⟨.undefined not_false, rfl⟩
    have hmatches : Matches rt objects context.inputStyle false value
        (.union flags types elements) →
        False ∨ ∃ element ∈ elements, Matches rt objects context.inputStyle false value element := by
      intro hm
      refine .inr ((matches_union_iff.mp hm).resolve_left fun hallowed => ?_)
      exact @not_absent value (.union flags types elements) hnull hvalue (.inl hallowed)
    have heq : transformUnion branch context value elements = (do
        let lastValue ← transformBranches (branch { context with returns := false } value) elements
          .undefined none
        return if lastValue.isUndefined then context.fallback value else lastValue) := by
      cases value <;> first | rfl | exact absurd rfl hvalue
    rw [heq]
    refine .bind (transformBranches_returns hproper hvalue hbranches hbest)
      fun lastValue hlast => .pure ?_
    by_cases hundefined : lastValue.isUndefined = true
    · rw [if_pos hundefined]
      obtain rfl := isUndefined_iff.mp hundefined
      exact .fallback hproper fun hm => hvalue (same_undefined (hlast.same (hmatches hm)))
    · rw [if_neg hundefined]
      exact hlast.imp hmatches

end Union

/-! ## The whole transformation -/

theorem transformWith_returns {rt : TransformRuntime} {objects : References} {known : List Nat}
    {context : TransformContext} {value : Value} {child : Transform}
    (hchild : Transforms rt objects (weight value) child) (hkeeps : context.Keeps)
    (hproper : Proper value) (hclosed : Closed objects known) {fuel : Nat} {schema : AnySchema}
    (hfuel : schema.nestDepth < fuel) (hscoped : Scoped objects known schema)
    (huntouched : Everywhere rt.toRuntime objects (Untouched rt objects)
      ⟨context.inputStyle, value, schema⟩) :
    Returns (Registered objects known) (Registered objects known)
      (transformWith rt child fuel context value schema)
      (Result (Matches rt.toRuntime objects context.inputStyle false value schema) value) := by
  induction fuel generalizing context schema with
  | zero => omega
  | succ fuel ih =>
    rw [transformWith.eq_def]
    dsimp only
    by_cases hnullable : (value.strictEq .null && schema.flags.nullable) = true
    · rw [if_pos hnullable]
      have hvalue : value = .null := by
        cases value <;> simp [Value.strictEq] at hnullable ⊢
      subst hvalue
      exact .pure (.refl hproper)
    · rw [if_neg hnullable]
      have hnull : value = .null → schema.flags.nullable = false := by
        rintro rfl
        simpa [Value.strictEq] using hnullable
      have hplain := huntouched.here.plain
      cases schema with
      | boolean schema => exact .pure (transformBoolean_result hproper hkeeps.convert hplain hnull)
      | number schema => exact .pure (transformNumber_result hproper hkeeps.convert hplain hnull)
      | string schema => exact .pure (transformString_result hproper hkeeps.convert hplain hnull)
      | enum schema =>
        exact .pure (transformEnum_result hproper hplain hnull
          (huntouched.here.numeric schema rfl))
      | object schema =>
        exact transformObject_returns hchild hkeeps hproper hclosed hnull hscoped huntouched
      | reference flags identity =>
        exact transformReference_returns hchild hkeeps hproper hclosed hnull hscoped huntouched
      | array flags definitions element =>
        exact transformArray_returns hchild hkeeps hproper hclosed hnull hscoped huntouched
      | tuple flags definitions elements =>
        exact transformTuple_returns hchild hkeeps hproper hclosed hnull hscoped huntouched
      | union flags types elements =>
        cases hscoped with
        | union hscoped =>
          refine transformUnion_returns hproper hnull fun branch hmem => ?_
          have hdepth := AnySchema.nestDepth_le hmem
          rw [AnySchema.nestDepth] at hfuel
          have hkeeps' : ({ context with returns := false } : TransformContext).Keeps :=
            ⟨hkeeps.style, hkeeps.convert⟩
          exact ih hkeeps' (by omega) (hscoped branch hmem) (huntouched.part (.branch hmem))

theorem transformAny_transforms (rt : TransformRuntime) (objects : References) (fuel : Nat) :
    Transforms rt objects fuel (transformAny rt fuel) := by
  induction fuel with
  | zero => intro known context value schema hlt; omega
  | succ fuel ih =>
    intro known context value schema hlt hkeeps hproper hclosed hscoped huntouched
    have hchild : Transforms rt objects (weight value) (transformAny rt fuel) :=
      fun known context other schema hother => ih known context other schema (by omega)
    exact transformWith_returns hchild hkeeps hproper hclosed (Nat.lt_succ_self _) hscoped huntouched

theorem transform_result {rt : TransformRuntime} {value : Value} {schema : AnySchema}
    {context : TransformContext} (hkeeps : context.Keeps) (hproper : Proper value)
    (hscoped : Scoped schema.objectOf [] schema)
    (huntouched : Everywhere rt.toRuntime schema.objectOf (Untouched rt schema.objectOf)
      ⟨context.inputStyle, value, schema⟩) :
    ∃ result, transform rt value schema context = .ok result ∧
      Result (Matches rt.toRuntime schema.objectOf context.inputStyle false value schema) value
        result := by
  obtain ⟨result, references, hrun, -, hresult⟩ :=
    transformAny_transforms rt schema.objectOf (weight value + 1) [] context value schema
      (Nat.lt_succ_self _) hkeeps hproper (fun _ h => absurd h List.not_mem_nil) hscoped huntouched
      (fun _ => none) ⟨fun _ _ h => (nomatch h), fun _ h => absurd h List.not_mem_nil⟩
  refine ⟨result, ?_, hresult⟩
  rw [transform, StateT.run'_eq, hrun]
  rfl

namespace Sample

def transformRuntime : TransformRuntime where
  toRuntime := runtime
  toLowerCase text := text
  toUpperCase text := text
  encodeBase64Json _ := ""

/-- An object with some properties, that may have others. -/
def record (extensible : Bool) (properties : List (String × AnySchema)) : AnySchema :=
  .object (.mk {} none { extensible } properties none)

/-- Two objects that overlap. -/
def pets : AnySchema :=
  .union {} none [record false [("name", .string {})],
    record false [("name", .string {}), ("tame", .boolean {})]]

def pet : Value := .obj [("name", .str "Rex"), ("tame", .bool true)]

theorem scoped_record {objects : References} (extensible : Bool)
    {properties : List (String × AnySchema)}
    (h : ∀ property ∈ properties, Scoped objects [] property.2) :
    Scoped objects [] (record extensible properties) :=
  .object rfl (fun _ h => (nomatch h)) h (fun _ h => (nomatch h)) fun _ h => (nomatch h)

theorem everywhere_record {objects : References} {P : Position → Prop} {fields : Fields}
    {properties : List (String × AnySchema)}
    (here : P ⟨none, .obj fields, record false properties⟩)
    (h : ∀ property ∈ properties,
      Everywhere runtime objects P ⟨none, get fields property.1, property.2⟩) :
    Everywhere runtime objects P ⟨none, .obj fields, record false properties⟩ := by
  refine .of_parts here fun q hpart => ?_
  cases hpart with
  | property hinput hmem =>
    cases hinput
    exact h _ hmem
  | name _ hadditional | value _ hadditional => cases hadditional

theorem everywhere_pets {objects : References} {P : Position → Prop}
    (hpets : P ⟨none, pet, pets⟩)
    (hname : P ⟨none, pet, record false [("name", .string {})]⟩)
    (hpet : P ⟨none, pet, record false [("name", .string {}), ("tame", .boolean {})]⟩)
    (hstring : P ⟨none, .str "Rex", .string {}⟩) (hboolean : P ⟨none, .bool true, .boolean {}⟩) :
    Everywhere runtime objects P ⟨none, pet, pets⟩ := by
  have hscalar : ∀ {q}, q = ⟨none, .str "Rex", .string {}⟩ ∨ q = ⟨none, .bool true, .boolean {}⟩ →
      Everywhere runtime objects P q := by
    rintro q (rfl | rfl)
    · exact .of_parts hstring fun q h => (nomatch h)
    · exact .of_parts hboolean fun q h => (nomatch h)
  refine .of_parts hpets fun q hpart => ?_
  cases hpart with
  | branch hmem =>
    rcases List.mem_pair.mp hmem with rfl | rfl
    · refine everywhere_record hname fun property hproperty => ?_
      cases List.mem_singleton.mp hproperty
      exact hscalar (.inl rfl)
    · refine everywhere_record hpet fun property hproperty => ?_
      rcases List.mem_pair.mp hproperty with rfl | rfl
      · exact hscalar (.inl rfl)
      · exact hscalar (.inr rfl)

theorem untouched_record {objects : References} {fields : Fields}
    {properties : List (String × AnySchema)} : Untouched transformRuntime objects
      ⟨none, .obj fields, record false properties⟩ where
  plain := ⟨rfl, rfl, fun _ h => (nomatch h)⟩
  numeric _ h := (nomatch h)
  names _ _ h _ hextra := by
    cases h
    cases hextra
  reference _ _ h := (nomatch h)
  union _ _ _ h := (nomatch h)
  tuple _ _ _ _ h := (nomatch h)

theorem untouched_string {objects : References} {value : Value} :
    Untouched transformRuntime objects ⟨none, value, .string {}⟩ where
  plain := ⟨rfl, rfl, fun _ h => AnySchema.string.inj h ▸ ⟨rfl, rfl, rfl⟩⟩
  numeric _ h := (nomatch h)
  names _ _ h := (nomatch h)
  reference _ _ h := (nomatch h)
  union _ _ _ h := (nomatch h)
  tuple _ _ _ _ h := (nomatch h)

theorem untouched_boolean {objects : References} {value : Value} :
    Untouched transformRuntime objects ⟨none, value, .boolean {}⟩ where
  plain := ⟨rfl, rfl, fun _ h => (nomatch h)⟩
  numeric _ h := (nomatch h)
  names _ _ h := (nomatch h)
  reference _ _ h := (nomatch h)
  union _ _ _ h := (nomatch h)
  tuple _ _ _ _ h := (nomatch h)

theorem untouched_pets {objects : References} :
    Untouched transformRuntime objects ⟨none, pet, pets⟩ where
  plain := ⟨rfl, rfl, fun _ h => (nomatch h)⟩
  numeric _ h := (nomatch h)
  names _ _ h := (nomatch h)
  reference _ _ h := (nomatch h)
  union _ _ _ _ h := (nomatch h)
  tuple _ _ _ _ h := (nomatch h)

theorem fair_pets {objects : References} :
    Everywhere runtime objects (Fair False) ⟨none, pet, pets⟩ := by
  have hrecord : ∀ {fields : Fields} {properties : List (String × AnySchema)},
      Fair False ⟨none, .obj fields, record false properties⟩ :=
    ⟨fun _ _ _ h => (nomatch h), fun _ h => (nomatch h)⟩
  refine everywhere_pets ⟨?_, fun _ h => (nomatch h)⟩ hrecord hrecord
    ⟨fun _ _ _ h => (nomatch h), ?_⟩ ⟨fun _ _ _ h => (nomatch h), fun _ h => (nomatch h)⟩
  · intro flags types elements h _
    cases h
    exact ⟨List.cons_ne_nil _ _, False.elim⟩
  · intro string h hempty
    cases h
    cases hempty

end Sample

end Ez4.Schema

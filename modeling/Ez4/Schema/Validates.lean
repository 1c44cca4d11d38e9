import Ez4.Schema.Narrowing
import Ez4.Library.Returns

/-! # What the validator accepts

Validation returns no error for the values that match, where no union drops a
branch for a value that its literal takes. -/
namespace Ez4.Schema
open Ez4.Utils Ez4.Library

/-! ## Deciding -/

/-- What is true when the code says so. With `C`, the code says so when it is true. -/
structure Decides (C e m : Prop) : Prop where
  sound : e → m
  complete : C → m → e

namespace Decides

variable {C e e' m m' : Prop}

theorem of_iff (h : e ↔ m) : Decides C e m := ⟨h.mp, fun _ => h.mpr⟩

theorem trans {n : Prop} (h : Decides C e m) (h' : Decides C m n) : Decides C e n :=
  ⟨fun he => h'.sound (h.sound he), fun hC hn => h.complete hC (h'.complete hC hn)⟩

theorem congr (h : Decides C e m) (he : e' ↔ e) (hm : m ↔ m') : Decides C e' m' :=
  ⟨fun h' => hm.mp (h.sound (he.mp h')), fun hC h' => he.mpr (h.complete hC (hm.mpr h'))⟩

/-- A branch that isn't the one leaves the choice to the rest. -/
theorem later {α : Type} {P : α → Prop} {a : α} {rest : List α}
    (h : Decides C e (∃ b ∈ rest, P b)) (hnot : C → ¬ P a) : Decides C e (∃ b ∈ a :: rest, P b) := by
  refine ⟨fun he => ?_, fun hC hm => h.complete hC ?_⟩
  · obtain ⟨b, hmem, hb⟩ := h.sound he
    exact ⟨b, List.mem_cons_of_mem _ hmem, hb⟩
  · obtain ⟨b, hmem, hb⟩ := hm
    rcases List.mem_cons.mp hmem with rfl | hmem
    · exact absurd hb (hnot hC)
    · exact ⟨b, hmem, hb⟩

theorem given (h : Decides C e m) (p : Prop) : Decides C (p → e) (p → m) :=
  ⟨fun he hp => h.sound (he hp), fun hC hm hp => h.complete hC (hm hp)⟩

theorem and (h : Decides C e m) (h' : Decides C e' m') : Decides C (e ∧ e') (m ∧ m') :=
  ⟨And.imp h.sound h'.sound, fun hC => And.imp (h.complete hC) (h'.complete hC)⟩

end Decides

/-! ## Where the validator does what a schema means -/

/-- A union has a branch and, with `C`, its narrowing drops none that takes the
value. A literal that is empty meets no other text. -/
structure Fair (C : Prop) (p : Position) : Prop where
  union : ∀ flags types elements, p.schema = .union flags types elements →
    isNullishAllowed p.value flags = false →
    elements ≠ [] ∧ (C → Unmistaken p.style p.value elements.length elements)
  literal : ∀ schema : StringSchema, p.schema = .string schema → schema.value = some "" →
    ∀ text, p.value = .str text → (if schema.trim then trim text else text) = ""

/-- The custom validation accepts everything. -/
def ValidationContext.Accepting (context : ValidationContext) : Prop :=
  ∀ handler, context.onCustomValidation = some handler →
    ∀ value schema property type, handler value schema property type = none

/-- Nothing is cast and the depth is unlimited, or the value is a name. -/
structure Fits (C : Prop) (context : ValidationContext) (value : Value) : Prop where
  accepting : C → context.Accepting
  plain : (context.cast = false ∧ context.depth = none) ∨ ∃ text, value = .str text

/-- The references are objects of their identities, the known ones among them. -/
structure Registered (objects : References) (known : List Nat) (references : References) :
    Prop where
  sound : ∀ identity schema, references identity = some schema → objects identity = some schema
  known : ∀ identity ∈ known, ∃ schema, references identity = some schema

/-- The known objects have no references to others. -/
def Closed (objects : References) (known : List Nat) : Prop :=
  ∀ identity ∈ known, ∃ schema, objects identity = some schema ∧
    Scoped objects known (.object schema)

/-- A check that decides what matches, for the values below a weight. -/
def Checks (C : Prop) (rt : Runtime) (objects : References) (bound : Nat) (check : Check) : Prop :=
  ∀ (known : List Nat) (context : ValidationContext) (value : Value) (schema : AnySchema),
    weight value < bound → Fits C context value → Closed objects known →
    Scoped objects known schema →
    Everywhere rt objects (Fair C) ⟨context.inputStyle, value, schema⟩ →
    Returns (Registered objects known) (Registered objects known) (check context value schema)
      fun errors => Decides C (errors = [])
        (Matches rt objects context.inputStyle context.cast value schema)

/-! ## Scalars -/

section Scalars

variable {C : Prop} {rt : Runtime} {objects : References} {context : ValidationContext}
  {style : Option NamingStyle} {value : Value} {m m' : Prop}

theorem customErrors_eq_nil (h : context.Accepting) (schema : AnySchema)
    (types : Option (List String)) : customErrors value schema types context = [] := by
  cases types with
  | none => rfl
  | some types =>
    cases hhandler : context.onCustomValidation with
    | none => simp [customErrors, useCustomValidation, hhandler]
    | some handler =>
      have hnone : (types.findSome? fun type => handler value schema context.property type) = none :=
        List.findSome?_eq_none_iff.mpr fun type _ => h handler hhandler value schema _ type
      simp [customErrors, useCustomValidation, hhandler, hnone]

theorem decides_customErrors (h : C → context.Accepting) (schema : AnySchema)
    (types : Option (List String)) :
    Decides C (customErrors value schema types context = []) True :=
  ⟨fun _ => trivial, fun hC _ => customErrors_eq_nil (h hC) schema types⟩

theorem absent_iff {schema : AnySchema} : Absent value schema ↔
    (isNullishAllowed value schema.flags || value.isUndefined && schema.hasDefault) = true := by
  cases value <;> simp [Absent, Value.isUndefined]

/-- The first check, which every type starts with. -/
theorem Decides.absent {α : Type} (schema : AnySchema) {default : Option α}
    {errors : List ValidationError} (hdefault : schema.hasDefault = default.isSome)
    (hm : m ↔ Absent value schema ∨ m') (h : Decides C (errors = []) m') :
    Decides C ((if (isNullishAllowed value schema.flags || isDefaultAllowed value default) = true
      then [] else errors) = []) m := by
  rw [absent_iff, hdefault] at hm
  by_cases hc : (isNullishAllowed value schema.flags || isDefaultAllowed value default) = true
  · rw [if_pos hc]
    exact ⟨fun _ => hm.mpr (.inl hc), fun _ _ => rfl⟩
  · rw [if_neg hc]
    exact h.congr Iff.rfl ⟨fun hm' => hm.mpr (.inr hm'), fun h => (hm.mp h).resolve_left hc⟩

theorem Decides.wrongType {errors : List ValidationError} (hne : errors ≠ []) (hm : ¬ m) :
    Decides C (errors = []) m :=
  ⟨fun h => absurd h hne, fun _ h => absurd h hm⟩

theorem constrain_eq_nil {α : Type} {definition : Option α} {breaks : α → Bool}
    {error : α → ValidationError} {rest : List ValidationError} :
    constrain definition breaks error rest = [] ↔
      (∀ expected, definition = some expected → breaks expected = false) ∧ rest = [] := by
  unfold constrain
  cases definition with
  | none => simp
  | some expected => by_cases h : breaks expected = true <;> simp [Option.filter, h]

theorem Decides.constrain {α : Type} (definition : Option α) (breaks : α → Bool)
    (error : α → ValidationError) {rest : List ValidationError} (h : Decides C (rest = []) m) :
    Decides C (constrain definition breaks error rest = [])
      ((∀ expected, definition = some expected → breaks expected = false) ∧ m) :=
  ((of_iff Iff.rfl).and h).congr constrain_eq_nil Iff.rfl

theorem decides_boolean (h : C → context.Accepting) {schema : BooleanSchema} :
    Decides C (validateBoolean context value schema = [])
      (Matches rt objects style context.cast value (.boolean schema)) := by
  refine .absent (.boolean schema) rfl matches_boolean_iff ?_
  show Decides C _ (∃ b, booleanInput context value = some b ∧ _)
  cases hinput : booleanInput context value with
  | none => exact .wrongType (List.cons_ne_nil _ _) (by simp)
  | some input =>
    refine ((decides_customErrors h _ _).constrain _ _ _).congr Iff.rfl ?_
    simp

theorem decides_number (h : C → context.Accepting) {schema : NumberSchema} :
    Decides C (validateNumber rt context value schema = [])
      (Matches rt objects style context.cast value (.number schema)) := by
  refine .absent (.number schema) rfl matches_number_iff ?_
  show Decides C _ (∃ n, numberInput rt context value = some n ∧ _)
  cases hinput : numberInput rt context value with
  | none => exact .wrongType (List.cons_ne_nil _ _) (by simp)
  | some input =>
    simp only [Option.some.injEq, exists_eq_left']
    by_cases hinteger : (schema.format == some "integer" && !isSafeInteger input) = true
    · rw [if_pos hinteger]
      simp only [Bool.and_eq_true, beq_iff_eq, Bool.not_eq_true', Bool.eq_false_iff] at hinteger
      exact .wrongType (List.cons_ne_nil _ _) fun h => hinteger.2 (h.integer hinteger.1)
    · rw [if_neg hinteger]
      refine ((((decides_customErrors h _ _).constrain _ _ _).constrain _ _ _).constrain _ _ _).congr
        Iff.rfl ?_
      constructor
      · rintro ⟨hvalue, hmin, hmax, -⟩
        exact ⟨fun hformat => by simpa [hformat] using hinteger, fun e he => by simpa using hvalue e he,
          hmin, hmax⟩
      · intro hn
        exact ⟨fun e he => by simpa using hn.value e he, hn.minValue, hn.maxValue, trivial⟩

theorem validateStringFormat_eq_nil {schema : StringSchema} {text : String}
    {property : Option String} :
    validateStringFormat rt text schema property = [] ↔
      ∀ handler, (named schema.format).bind rt.customFormats = some handler →
        handler.validate text schema none = [] := by
  unfold validateStringFormat
  cases (named schema.format).bind rt.customFormats with
  | none => simp
  | some handler => simpa using handler.verdict text schema property

theorem decides_format (h : C → context.Accepting) {schema : StringSchema} {text : String} :
    Decides C ((if (validateStringFormat rt text schema context.property).isEmpty = true then
        customErrors (.str text) (.string schema) schema.types context
        else validateStringFormat rt text schema context.property) = [])
      (∀ handler, (named schema.format).bind rt.customFormats = some handler →
        handler.validate text schema none = []) := by
  rw [← @validateStringFormat_eq_nil rt schema text context.property]
  cases validateStringFormat rt text schema context.property with
  | nil => exact (decides_customErrors h _ _).congr Iff.rfl (by simp)
  | cons error rest => exact .of_iff Iff.rfl

/-- The empty literal is no constraint of the code: `hempty` is about it. -/
theorem decides_string (h : C → context.Accepting) {schema : StringSchema}
    (hempty : schema.value = some "" →
      ∀ text, textInput rt context value schema = some text → text = "") :
    Decides C (validateString rt context value schema = [])
      (Matches rt objects style context.cast value (.string schema)) := by
  refine .absent (.string schema) rfl matches_string_iff ?_
  show Decides C _ (∃ text, textInput rt context value schema = some text ∧ _)
  cases hinput : textInput rt context value schema with
  | none => exact .wrongType (List.cons_ne_nil _ _) (by simp)
  | some input =>
    simp only [Option.some.injEq, exists_eq_left']
    refine ((((decides_format h).constrain _ _ _).constrain _ _ _).constrain _ _ _).congr
      Iff.rfl ?_
    constructor
    · rintro ⟨hvalue, hmin, hmax, hf⟩
      refine ⟨fun e he => ?_, hmin, hmax, hf⟩
      by_cases hne : e = ""
      · exact hne ▸ hempty (hne ▸ he) input hinput
      · simpa using hvalue e (by simp [named, he, hne])
    · intro ht
      refine ⟨fun e he => ?_, ht.minLength, ht.maxLength, ht.format⟩
      have hvalue : schema.value = some e := (Option.filter_eq_some_iff.mp he).1
      simpa using ht.value e hvalue

theorem strictEq_toValue {option : EnumValue} :
    value.strictEq option.toValue = true ↔ value = option.toValue := by
  cases option <;> cases value <;> simp [EnumValue.toValue, Value.strictEq]

theorem decides_enum (h : C → context.Accepting) {schema : EnumSchema} :
    Decides C (validateEnum rt context value schema = [])
      (Matches rt objects style context.cast value (.enum schema)) := by
  refine .absent (.enum schema) rfl matches_enum_iff ?_
  by_cases hany : schema.options.any (fun option => value.strictEq option.toValue) = true
  · rw [if_pos hany]
    obtain ⟨option, hmem, heq⟩ := List.any_eq_true.mp hany
    refine (decides_customErrors h _ _).congr Iff.rfl ⟨fun _ => ?_, fun _ => trivial⟩
    exact ⟨option, hmem, strictEq_toValue.mp heq⟩
  · rw [if_neg hany]
    refine .wrongType (List.cons_ne_nil _ _) fun ⟨option, hmem, heq⟩ => ?_
    exact hany (List.any_eq_true.mpr ⟨option, hmem, strictEq_toValue.mpr heq⟩)

end Scalars

/-! ## Loops -/

section Loops

variable {C : Prop} {I : References → Prop} {ι : Type}

theorem checkAll_returns {check : ι → Validation (List ValidationError)} {P : ι → Prop}
    {items : List ι} (h : ∀ item ∈ items,
      Returns I I (check item) fun errors => Decides C (errors = []) (P item)) :
    Returns I I (checkAll check items)
      fun errors => Decides C (errors = []) (∀ item ∈ items, P item) := by
  induction items with
  | nil => exact .pure (.of_iff (by simp))
  | cons item rest ih =>
    refine .bind (h item List.mem_cons_self) fun errors herrors => ?_
    refine .bind (ih fun other hmem => h other (List.mem_cons_of_mem _ hmem)) fun more hmore => ?_
    exact .pure ((herrors.and hmore).congr List.append_eq_nil_iff List.forall_mem_cons.symm)

/-- The errors are those of the values, the keys left those of the names. -/
theorem validateAdditional_returns {child : Check} {context : ValidationContext} {preserve : Bool}
    {fields : Fields} {nameSchema valueSchema : AnySchema} {N V : String → Prop}
    {keys : List String}
    (hnames : ∀ key ∈ keys, Returns I I (child { cast := true, depth := some 1 } (.str key)
      nameSchema) fun errors => Decides C (errors = []) (N key))
    (hvalues : ∀ key ∈ keys, ∀ name, Returns I I
      (context.ifDescends (child (context.at name) (get fields key) valueSchema))
      fun errors => Decides C (errors = []) (V key)) :
    Returns I I (validateAdditional child context preserve fields nameSchema valueSchema keys)
      fun result => Decides C (result.1 = []) (∀ key ∈ keys, V key) ∧
        Decides C (result.2 = []) (∀ key ∈ keys, N key) := by
  induction keys with
  | nil => exact .pure ⟨.of_iff (by simp), .of_iff (by simp)⟩
  | cons key rest ih =>
    refine .bind (hnames key List.mem_cons_self) fun nameErrors hname => ?_
    refine .bind (hvalues key List.mem_cons_self _) fun valueErrors hvalue => ?_
    refine .bind (ih (fun k hk => hnames k (List.mem_cons_of_mem _ hk))
      fun k hk => hvalues k (List.mem_cons_of_mem _ hk)) fun result hresult => ?_
    refine .pure ⟨(hvalue.and hresult.1).congr List.append_eq_nil_iff List.forall_mem_cons.symm,
      (hname.and hresult.2).congr ?_ List.forall_mem_cons.symm⟩
    cases nameErrors <;> simp

/-- A branch that matches ends the loop, and the others leave errors. -/
theorem validateBranches_returns_of_ne {check : AnySchema → Validation (List ValidationError)}
    {P : AnySchema → Prop} {branches : List AnySchema} {onMatch lastErrors : List ValidationError}
    {lastSize : Nat} (honMatch : C → onMatch = []) (hlast : lastErrors ≠ [])
    (h : ∀ branch ∈ branches,
      Returns I I (check branch) fun errors => Decides C (errors = []) (P branch)) :
    Returns I I (validateBranches check onMatch branches lastErrors (some lastSize))
      fun errors => Decides C (errors = []) (∃ branch ∈ branches, P branch) := by
  induction branches generalizing lastErrors lastSize with
  | nil => exact .pure (.wrongType hlast (by simp))
  | cons branch rest ih =>
    refine .bind (h branch List.mem_cons_self) fun errors herrors => ?_
    have hrest : ∀ other ∈ rest,
        Returns I I (check other) fun errors => Decides C (errors = []) (P other) :=
      fun other hmem => h other (List.mem_cons_of_mem _ hmem)
    cases errors with
    | nil =>
      exact .pure ⟨fun _ => ⟨branch, List.mem_cons_self, herrors.sound rfl⟩, fun hC _ => honMatch hC⟩
    | cons error more =>
      have hlater : ∀ {errors : List ValidationError},
          Decides C (errors = []) (∃ other ∈ rest, P other) →
          Decides C (errors = []) (∃ other ∈ branch :: rest, P other) :=
        fun hd => hd.later fun hC hP => List.cons_ne_nil _ _ (herrors.complete hC hP)
      simp only [List.isEmpty_cons, Bool.false_eq_true, if_false]
      by_cases htie : (some lastSize == some (error :: more).length) = true
      · rw [if_pos htie]
        exact (ih (by simp [hlast]) hrest).weaken fun _ => hlater
      · rw [if_neg htie]
        by_cases hfewer : (some lastSize).all (fun size => decide ((error :: more).length < size)) = true
        · rw [if_pos hfewer]
          exact (ih (List.cons_ne_nil _ _) hrest).weaken fun _ => hlater
        · rw [if_neg hfewer]
          exact (ih hlast hrest).weaken fun _ => hlater

theorem validateBranches_returns {check : AnySchema → Validation (List ValidationError)}
    {P : AnySchema → Prop} {branches : List AnySchema} {onMatch : List ValidationError}
    (honMatch : C → onMatch = []) (hne : branches ≠ []) (h : ∀ branch ∈ branches,
      Returns I I (check branch) fun errors => Decides C (errors = []) (P branch)) :
    Returns I I (validateBranches check onMatch branches [] none)
      fun errors => Decides C (errors = []) (∃ branch ∈ branches, P branch) := by
  cases branches with
  | nil => exact absurd rfl hne
  | cons branch rest =>
    refine .bind (h branch List.mem_cons_self) fun errors herrors => ?_
    cases errors with
    | nil =>
      exact .pure ⟨fun _ => ⟨branch, List.mem_cons_self, herrors.sound rfl⟩, fun hC _ => honMatch hC⟩
    | cons error more =>
      refine (validateBranches_returns_of_ne honMatch (List.cons_ne_nil error more)
        fun other hmem => h other (List.mem_cons_of_mem _ hmem)).weaken fun errors hd => ?_
      exact hd.later fun hC hP => List.cons_ne_nil _ _ (herrors.complete hC hP)

end Loops

/-! ## Objects, references, arrays and tuples -/

section Nested

variable {C : Prop} {rt : Runtime} {objects : References} {known : List Nat}
  {context : ValidationContext} {value : Value} {child : Check}

theorem decoded_plain (rt : Runtime) (value : Value) : decoded rt value false = value := by
  cases value <;> rfl

/-- A value with parts is no name. -/
theorem Fits.deep (h : Fits C context value) (hvalue : ∀ text, value ≠ .str text) :
    context.cast = false ∧ context.depth = none :=
  h.plain.resolve_right fun ⟨text, heq⟩ => hvalue text heq

theorem fits_at (h : C → context.Accepting)
    (hplain : context.cast = false ∧ context.depth = none) (name : String) (item : Value) :
    Fits C (context.at name) item :=
  ⟨h, .inl ⟨hplain.1, by simp [ValidationContext.at, hplain.2]⟩⟩

theorem fits_atIndex (h : C → context.Accepting)
    (hplain : context.cast = false ∧ context.depth = none) (index : Nat) (item : Value) :
    Fits C (context.atIndex index) item :=
  ⟨h, .inl ⟨hplain.1, by simp [ValidationContext.atIndex, hplain.2]⟩⟩

theorem fits_name (key : String) : Fits C { cast := true, depth := some 1 } (.str key) where
  accepting _ _ h := by cases h
  plain := .inr ⟨key, rfl⟩

theorem ifDescends_eq (h : context.depth = none) (check : Validation (List ValidationError)) :
    context.ifDescends check = check := by
  simp [ValidationContext.ifDescends, ValidationContext.descends, h]

theorem setReference_returns {ε : Type} {schema : ObjectSchema} (hidentity : ∀ identity,
      schema.identity = some identity → identity ≠ 0 ∧ objects identity = some schema) :
    Returns (Registered objects known) (Registered objects (schema.identity.toList ++ known))
      (setReference (ε := ε) schema) fun _ => True := by
  refine .modify fun references hreferences => ?_
  cases hid : schema.identity with
  | none => exact hreferences
  | some identity =>
    obtain ⟨hne, hobject⟩ := hidentity identity hid
    simp only [if_neg hne]
    refine ⟨fun i other hi => ?_, fun i hi => ?_⟩
    · by_cases heq : i = identity
      · rw [if_pos heq, Option.some.injEq] at hi
        rw [heq, ← hi]
        exact hobject
      · rw [if_neg heq] at hi
        exact hreferences.sound i other hi
    · by_cases heq : i = identity
      · exact ⟨schema, by rw [if_pos heq]⟩
      · obtain ⟨other, hother⟩ := hreferences.known i
          ((List.mem_append.mp hi).resolve_left (by simpa using heq))
        exact ⟨other, by rw [if_neg heq]; exact hother⟩

theorem Registered.tail {identities : List Nat} {references : References}
    (h : Registered objects (identities ++ known) references) :
    Registered objects known references :=
  ⟨h.sound, fun i hi => h.known i (List.mem_append_right _ hi)⟩

/-- An object joins the known ones. -/
theorem Closed.object {schema : ObjectSchema} (h : Closed objects known)
    (hscoped : Scoped objects known (.object schema)) :
    Closed objects (schema.identity.toList ++ known) := by
  have hsub : known ⊆ schema.identity.toList ++ known := List.subset_append_right _ _
  intro i hi
  rcases List.mem_append.mp hi with hi | hi
  · have hid : schema.identity = some i := by simpa using hi
    cases hscoped with
    | object hplain hidentity hproperties hnames hvalues =>
      exact ⟨schema, (hidentity i hid).2,
        (Scoped.object hplain hidentity hproperties hnames hvalues).mono hsub⟩
  · obtain ⟨other, hobject, hother⟩ := h i hi
    exact ⟨other, hobject, hother.mono hsub⟩

/-- What is left of the keys of an object, with its errors. -/
theorem extra_eq_nil {schema : ObjectSchema} {keys : List String} {error : ValidationError} :
    (if (schema.definitions.extensible || keys.isEmpty) = true then [] else [error]) = [] ↔
      (schema.definitions.extensible = false → keys = []) := by
  cases schema.definitions.extensible <;> cases keys <;> simp

/-- The end of a check with parts: the custom validation when there are no errors. -/
theorem returns_customErrors {I : References → Prop} {allErrors : List ValidationError}
    {schema : AnySchema} {types : Option (List String)} {m : Prop} (h : C → context.Accepting)
    (hm : Decides C (allErrors = []) m) :
    Returns I I (if allErrors.isEmpty then pure (customErrors value schema types context)
      else pure allErrors : Validation (List ValidationError))
      fun errors => Decides C (errors = []) m := by
  cases allErrors with
  | nil => exact .pure ⟨fun _ => hm.sound rfl, fun hC _ => customErrors_eq_nil (h hC) schema types⟩
  | cons error rest => exact .pure hm

variable (hchild : Checks C rt objects (weight value) child) (hfits : Fits C context value)
  (hclosed : Closed objects known)

include hchild hfits hclosed

theorem validateProperties_returns {schema : ObjectSchema} {fields : Fields}
    (hvalue : value = .obj fields)
    (hscoped : ∀ property ∈ schema.properties, Scoped objects known property.2)
    (hfair : Everywhere rt objects (Fair C) ⟨context.inputStyle, value, .object schema⟩)
    (hencoded : schema.definitions.encoded = false) :
    Returns (Registered objects known) (Registered objects known)
      (validateProperties child context fields schema.properties) fun errors =>
        Decides C (errors = []) (∀ property ∈ schema.properties,
          Matches rt objects context.inputStyle context.cast
            (get fields (getPropertyName property.1 context.inputStyle)) property.2) := by
  subst hvalue
  have hplain := hfits.deep fun text h => by cases h
  refine checkAll_returns fun property hmem => ?_
  rw [ifDescends_eq hplain.2]
  exact hchild known _ _ _ (weight_get_lt fields _) (fits_at hfits.accepting hplain _ _) hclosed
    (hscoped property hmem) (hfair.part (.property (by rw [hencoded]; rfl) hmem))

/-- The other keys, where there may be no schema for them. -/
theorem validateOthers_returns {schema : ObjectSchema} {fields : Fields} {preserve : Bool}
    (hvalue : value = .obj fields)
    (hnames : ∀ additional, schema.additional = some additional →
      Scoped objects known additional.1)
    (hvalues : ∀ additional, schema.additional = some additional →
      Scoped objects known additional.2)
    (hfair : Everywhere rt objects (Fair C) ⟨context.inputStyle, value, .object schema⟩)
    (hencoded : schema.definitions.encoded = false) :
    Returns (Registered objects known) (Registered objects known)
      (validateOthers child context preserve fields schema.additional
        (otherKeys context.inputStyle fields schema.properties)) fun more =>
      Decides C (more.1 = []) (∀ additional, schema.additional = some additional →
        ∀ key ∈ otherKeys context.inputStyle fields schema.properties,
          Matches rt objects context.inputStyle context.cast (get fields key) additional.2) ∧
      Decides C (more.2 = []) ((∀ additional, schema.additional = some additional →
        ∀ key ∈ otherKeys context.inputStyle fields schema.properties,
          Matches rt objects none true (.str key) additional.1) ∧
        (schema.additional = none →
          otherKeys context.inputStyle fields schema.properties = [])) := by
  subst hvalue
  have hplain := hfits.deep fun text h => by cases h
  have hinput : decoded rt (.obj fields) schema.definitions.encoded = .obj fields := by
    rw [hencoded]; rfl
  cases hadditional : schema.additional with
  | none => exact .pure ⟨.of_iff (by simp), .of_iff (by simp)⟩
  | some additional =>
    have h : Returns (Registered objects known) (Registered objects known)
        (validateAdditional child context preserve fields additional.1 additional.2
          (otherKeys context.inputStyle fields schema.properties)) fun result =>
        Decides C (result.1 = []) (∀ key ∈ otherKeys context.inputStyle fields schema.properties,
          Matches rt objects context.inputStyle context.cast (get fields key) additional.2) ∧
        Decides C (result.2 = []) (∀ key ∈ otherKeys context.inputStyle fields schema.properties,
          Matches rt objects none true (.str key) additional.1) := by
      refine validateAdditional_returns (fun key hkey => ?_) fun key hkey name => ?_
      · exact hchild known _ _ _ (weight_key_lt (List.mem_filter.mp hkey).1) (fits_name key) hclosed
          (hnames additional hadditional) (hfair.part (.name hinput hadditional hkey))
      · rw [ifDescends_eq hplain.2]
        exact hchild known _ _ _ (weight_get_lt fields key) (fits_at hfits.accepting hplain _ _)
          hclosed (hvalues additional hadditional) (hfair.part (.value hinput hadditional hkey))
    exact h.weaken fun more hmore =>
      ⟨hmore.1.congr Iff.rfl (by simp), hmore.2.congr Iff.rfl (by simp)⟩

theorem validateObject_returns {schema : ObjectSchema}
    (hscoped : Scoped objects known (.object schema))
    (hfair : Everywhere rt objects (Fair C) ⟨context.inputStyle, value, .object schema⟩) :
    Returns (Registered objects known) (Registered objects known)
      (validateObject rt child context value schema) fun errors => Decides C (errors = [])
        (Matches rt objects context.inputStyle context.cast value (.object schema)) := by
  have hclosed' := hclosed.object hscoped
  unfold validateObject
  by_cases habsent : (isNullishAllowed value schema.flags ||
      isDefaultAllowed value schema.definitions.default) = true
  · rw [if_pos habsent]
    exact .pure ⟨fun _ => .absent (absent_iff.mpr habsent), fun _ _ => rfl⟩
  · rw [if_neg habsent]
    have hpresent : ¬ Absent value (.object schema) := fun h => habsent (absent_iff.mp h)
    cases hscoped with
    | object hencoded hidentity hproperties hnames hvalues =>
      refine .bind (setReference_returns hidentity) fun _ _ =>
        .weaken_state (J := Registered objects (schema.identity.toList ++ known)) ?_
          fun _ => Registered.tail
      rw [hencoded, decoded_plain]
      cases value with
      | obj fields =>
        refine .bind (validateProperties_returns hchild hfits hclosed' rfl hproperties hfair
          hencoded) fun errors herrors => ?_
        refine .bind (validateOthers_returns hchild hfits hclosed' rfl hnames hvalues hfair
          hencoded) fun more hmore => ?_
        refine returns_customErrors hfits.accepting ?_
        refine ((herrors.and hmore.1).and (hmore.2.given
          (schema.definitions.extensible = false))).congr ?_ ?_
        · rw [List.append_eq_nil_iff, List.append_eq_nil_iff, extra_eq_nil]
        rw [matches_object_iff, hencoded, decoded_plain]
        constructor
        · rintro ⟨⟨hproperties, hvalues⟩, hextra⟩
          exact .inr ⟨fields, rfl, hproperties, hvalues,
            fun additional ha hclosed => (hextra hclosed).1 additional ha,
            fun hnone hclosed => (hextra hclosed).2 hnone⟩
        · intro h
          obtain ⟨_, heq, hm⟩ := h.resolve_left hpresent
          cases heq
          exact ⟨⟨hm.properties, hm.values⟩, fun hclosed =>
            ⟨fun additional ha => hm.names additional ha hclosed, fun hnone => hm.extra hnone hclosed⟩⟩
      | _ =>
        refine .pure (.wrongType (List.cons_ne_nil _ _) fun h => ?_)
        obtain ⟨fields, hinput, -⟩ := (matches_object_iff.mp h).resolve_left hpresent
        rw [hencoded] at hinput
        cases hinput

theorem validateReference_returns {flags : Flags} {identity : Nat}
    (hscoped : Scoped objects known (.reference flags identity))
    (hfair : Everywhere rt objects (Fair C) ⟨context.inputStyle, value, .reference flags identity⟩) :
    Returns (Registered objects known) (Registered objects known)
      (validateReference rt child context value flags identity) fun errors => Decides C (errors = [])
        (Matches rt objects context.inputStyle context.cast value (.reference flags identity)) := by
  unfold validateReference
  by_cases hnullish : isNullishAllowed value flags = true
  · rw [if_pos hnullish]
    exact .pure ⟨fun _ => .nullish hnullish, fun _ _ => rfl⟩
  · rw [if_neg hnullish]
    cases hscoped with
    | reference hmem =>
      obtain ⟨schema, hobject, hscoped⟩ := hclosed identity hmem
      refine .get_bind fun references hreferences => ?_
      obtain ⟨found, hfound⟩ := hreferences.known identity hmem
      obtain rfl : found = schema :=
        Option.some.inj ((hreferences.sound identity found hfound).symm.trans hobject)
      rw [hfound]
      refine (validateObject_returns hchild hfits hclosed hscoped
        (hfair.part (.named hobject))).weaken fun errors herrors => herrors.congr Iff.rfl ?_
      simp [matches_reference_iff, hnullish, hobject]

theorem validateArray_returns {flags : Flags} {definitions : ArrayDefinitions}
    {element : AnySchema} (hscoped : Scoped objects known (.array flags definitions element))
    (hfair : Everywhere rt objects (Fair C)
      ⟨context.inputStyle, value, .array flags definitions element⟩) :
    Returns (Registered objects known) (Registered objects known)
      (validateArray rt child context value flags definitions element) fun errors =>
        Decides C (errors = []) (Matches rt objects context.inputStyle context.cast value
          (.array flags definitions element)) := by
  unfold validateArray
  by_cases habsent : (isNullishAllowed value flags ||
      isDefaultAllowed value definitions.default) = true
  · rw [if_pos habsent]
    exact .pure ⟨fun _ => .absent (absent_iff.mpr habsent), fun _ _ => rfl⟩
  · rw [if_neg habsent]
    have hpresent : ¬ Absent value (.array flags definitions element) :=
      fun h => habsent (absent_iff.mp h)
    cases hscoped with
    | array hencoded hscoped =>
      rw [hencoded, decoded_plain]
      cases value with
      | arr items =>
        have hplain := hfits.deep fun text h => by cases h
        have hinput : decoded rt (.arr items) definitions.encoded = .arr items := rfl
        dsimp only
        rw [ifDescends_eq hplain.2]
        refine .bind (checkAll_returns (C := C) (P := fun item =>
          Matches rt objects context.inputStyle context.cast item.1 element) fun item hmem => ?_)
          fun errors herrors => ?_
        · have hitem : item.1 ∈ items := List.fst_mem_of_mem_zipIdx hmem
          exact hchild known _ _ _ (weight_item_lt hitem)
            (fits_atIndex hfits.accepting hplain _ _) hclosed hscoped
            (hfair.part (.item hinput hitem))
        · have hall : (∀ item ∈ items.zipIdx,
              Matches rt objects context.inputStyle context.cast item.1 element) ↔
              ∀ item ∈ items, Matches rt objects context.inputStyle context.cast item element := by
            have hmap := List.forall_mem_map (l := items.zipIdx) (f := Prod.fst)
              (P := fun item => Matches rt objects context.inputStyle context.cast item element)
            rw [← hmap, List.zipIdx_map_fst]
          refine returns_customErrors hfits.accepting ?_
          rw [List.append_eq_nil_iff, List.append_eq_nil_iff, constrain_eq_nil, constrain_eq_nil]
          refine ((Decides.of_iff Iff.rfl).and herrors).congr Iff.rfl ?_
          rw [hall, matches_array_iff, hinput]
          constructor
          · rintro ⟨⟨⟨hleast, -⟩, hmost, -⟩, hitems⟩
            exact .inr ⟨items, rfl, ⟨hleast, hmost⟩, hitems⟩
          · intro h
            obtain ⟨_, heq, haccepts, hitems⟩ := h.resolve_left hpresent
            cases heq
            exact ⟨⟨⟨haccepts.minLength, rfl⟩, haccepts.maxLength, rfl⟩, hitems⟩
      | _ =>
        refine .pure (.wrongType (List.cons_ne_nil _ _) fun h => ?_)
        obtain ⟨items, hinput, -⟩ := (matches_array_iff.mp h).resolve_left hpresent
        rw [hencoded] at hinput
        cases hinput

theorem validateTuple_returns {flags : Flags} {definitions : TupleDefinitions}
    {elements : List AnySchema} (hscoped : Scoped objects known (.tuple flags definitions elements))
    (hfair : Everywhere rt objects (Fair C)
      ⟨context.inputStyle, value, .tuple flags definitions elements⟩) :
    Returns (Registered objects known) (Registered objects known)
      (validateTuple child context value flags definitions elements) fun errors =>
        Decides C (errors = []) (Matches rt objects context.inputStyle context.cast value
          (.tuple flags definitions elements)) := by
  unfold validateTuple
  by_cases habsent : (isNullishAllowed value flags ||
      isDefaultAllowed value definitions.default) = true
  · rw [if_pos habsent]
    exact .pure ⟨fun _ => .absent (absent_iff.mpr habsent), fun _ _ => rfl⟩
  · rw [if_neg habsent]
    have hpresent : ¬ Absent value (.tuple flags definitions elements) :=
      fun h => habsent (absent_iff.mp h)
    cases hscoped with
    | tuple hscoped =>
      cases value with
      | arr items =>
        have hplain := hfits.deep fun text h => by cases h
        dsimp only
        rw [ifDescends_eq hplain.2]
        refine .bind (checkAll_returns (C := C) (P := fun element => Matches rt objects context.inputStyle
          context.cast (items.getD element.2 .undefined) element.1) fun element hmem => ?_)
          fun errors herrors => ?_
        · exact hchild known _ _ _ (weight_getD_lt items element.2)
            (fits_atIndex hfits.accepting hplain _ _) hclosed
            (hscoped element.1 (List.fst_mem_of_mem_zipIdx hmem)) (hfair.part (.element hmem))
        · refine returns_customErrors hfits.accepting (herrors.congr Iff.rfl ?_)
          rw [matches_tuple_iff]
          constructor
          · intro h
            exact .inr ⟨items, rfl, h⟩
          · intro h
            obtain ⟨_, heq, hitems⟩ := h.resolve_left hpresent
            cases heq
            exact hitems
      | _ =>
        refine .pure (.wrongType (List.cons_ne_nil _ _) fun h => ?_)
        obtain ⟨items, hinput, -⟩ := (matches_tuple_iff.mp h).resolve_left hpresent
        cases hinput

end Nested

/-! ## Unions -/

section Union

variable {C : Prop} {rt : Runtime} {objects : References} {known : List Nat}
  {context : ValidationContext} {value : Value} {elements narrowed : List AnySchema}

/-- Nothing is read from a name. -/
theorem narrow_str {rounds : Nat} {text : String} (current : List AnySchema) :
    narrowByDiscriminators rt context (.str text) rounds current = .ok current := by
  cases rounds with
  | zero => rfl
  | succ rounds =>
    rw [narrowByDiscriminators]
    cases hd : findDiscriminator current with
    | none => rfl
    | some d =>
      obtain ⟨key, rest, hpath, -⟩ := leads_of_findDiscriminatorIn hd
      have hread : readPath context.inputStyle (.str text) d.path = none := by
        rw [hpath]
        rfl
      simp only [hread]

theorem narrowed_ne_nil {rounds : Nat} {current : List AnySchema} (hne : current ≠ [])
    (h : narrowByDiscriminators rt context value rounds current = .ok narrowed) :
    narrowed ≠ [] := by
  induction rounds generalizing current with
  | zero => cases h; exact hne
  | succ rounds ih =>
    rw [narrowByDiscriminators] at h
    cases hd : findDiscriminator current with
    | none => simp only [hd, Except.ok.injEq] at h; exact h ▸ hne
    | some d =>
      cases hread : readPath context.inputStyle value d.path with
      | none => simp only [hd, hread, Except.ok.injEq] at h; exact h ▸ hne
      | some input =>
        cases hmatching : matching current d.literals input with
        | nil => simp [hd, hread, hmatching] at h
        | cons first rest =>
          simp only [hd, hread, hmatching] at h
          exact ih (List.cons_ne_nil _ _) h

/-- What a value that fits may be narrowed to keeps the branches that match. -/
theorem keeps_matching (hfits : Fits C context value)
    (hunmistaken : Unmistaken context.inputStyle value elements.length elements)
    {element : AnySchema} (hmem : element ∈ elements)
    (h : Matches rt objects context.inputStyle context.cast value element) :
    ∃ narrowed, narrowByDiscriminators rt context value elements.length elements = .ok narrowed ∧
      element ∈ narrowed := by
  rcases hfits.plain with ⟨hcast, -⟩ | ⟨text, rfl⟩
  · exact matches_of_narrow hunmistaken hmem (hcast ▸ h)
  · exact ⟨elements, narrow_str elements, hmem⟩

theorem validateWith_returns {child : Check} (hchild : Checks C rt objects (weight value) child)
    (hfits : Fits C context value) (hclosed : Closed objects known) {fuel : Nat}
    {schema : AnySchema} (hfuel : schema.unionDepth < fuel) (hscoped : Scoped objects known schema)
    (hfair : Everywhere rt objects (Fair C) ⟨context.inputStyle, value, schema⟩) :
    Returns (Registered objects known) (Registered objects known)
      (validateWith rt child fuel context value schema) fun errors => Decides C (errors = [])
        (Matches rt objects context.inputStyle context.cast value schema) := by
  induction fuel generalizing schema with
  | zero => omega
  | succ fuel ih =>
    cases schema with
    | boolean schema => exact .pure (decides_boolean hfits.accepting)
    | number schema => exact .pure (decides_number hfits.accepting)
    | string schema =>
      refine .pure (decides_string hfits.accepting fun hvalue text hinput => ?_)
      cases value with
      | str input =>
        have := hfair.here.literal schema rfl hvalue input rfl
        simp only [textInput, Option.some.injEq] at hinput
        exact hinput ▸ this
      | _ =>
        rcases hfits.plain with ⟨hcast, -⟩ | ⟨_, heq⟩
        · simp [textInput, hcast] at hinput
        · cases heq
    | enum schema => exact .pure (decides_enum hfits.accepting)
    | object schema => exact validateObject_returns hchild hfits hclosed hscoped hfair
    | reference flags identity =>
      exact validateReference_returns hchild hfits hclosed hscoped hfair
    | array flags definitions element =>
      exact validateArray_returns hchild hfits hclosed hscoped hfair
    | tuple flags definitions elements =>
      exact validateTuple_returns hchild hfits hclosed hscoped hfair
    | union flags types elements =>
      rw [validateWith]
      by_cases hnullish : isNullishAllowed value flags = true
      · rw [if_pos hnullish]
        exact .pure ⟨fun _ => .nullish hnullish, fun _ _ => rfl⟩
      · rw [if_neg hnullish]
        obtain ⟨hne, hunmistaken⟩ := hfair.here.union flags types elements rfl (by simpa using hnullish)
        have hunion : Matches rt objects context.inputStyle context.cast value
            (.union flags types elements) ↔ ∃ element ∈ elements,
              Matches rt objects context.inputStyle context.cast value element := by
          rw [matches_union_iff]
          exact or_iff_right hnullish
        cases hnarrow : narrowByDiscriminators rt context value elements.length elements with
        | error error =>
          refine .pure ⟨fun h => absurd h (List.cons_ne_nil _ _), fun hC h => ?_⟩
          obtain ⟨element, hmem, hmatches⟩ := hunion.mp h
          obtain ⟨narrowed, hok, -⟩ := keeps_matching hfits (hunmistaken hC) hmem hmatches
          rw [hnarrow] at hok
          cases hok
        | ok narrowed =>
          have hbranches : Decides C (∃ element ∈ narrowed,
              Matches rt objects context.inputStyle context.cast value element)
              (∃ element ∈ elements,
                Matches rt objects context.inputStyle context.cast value element) := by
            constructor
            · rintro ⟨element, hmem, h⟩
              exact ⟨element, narrowed_subset hnarrow hmem, h⟩
            rintro hC ⟨element, hmem, h⟩
            obtain ⟨kept, hok, hin⟩ := keeps_matching hfits (hunmistaken hC) hmem h
            rw [hnarrow] at hok
            cases hok
            exact ⟨element, hin, h⟩
          cases hscoped with
          | union hscoped =>
            have honMatch : C → customErrors value (.union flags types elements) types context = [] :=
              fun hC => customErrors_eq_nil (hfits.accepting hC) _ _
            refine (validateBranches_returns honMatch (narrowed_ne_nil hne hnarrow)
              fun branch hmem => ?_).weaken
              fun errors herrors => (herrors.trans hbranches).congr Iff.rfl hunion.symm
            have hin := narrowed_subset hnarrow hmem
            have hdepth := AnySchema.unionDepth_le hin
            rw [AnySchema.unionDepth] at hfuel
            exact ih (by omega) (hscoped branch hin) (hfair.part (.branch hin))

end Union

/-! ## The whole validation -/

theorem validateAny_checks (C : Prop) (rt : Runtime) (objects : References) (fuel : Nat) :
    Checks C rt objects fuel (validateAny rt fuel) := by
  induction fuel with
  | zero => intro known context value schema hlt; omega
  | succ fuel ih =>
    intro known context value schema hlt hfits hclosed hscoped hfair
    have hchild : Checks C rt objects (weight value) (validateAny rt fuel) :=
      fun known context other schema hother => ih known context other schema (by omega)
    exact validateWith_returns hchild hfits hclosed (Nat.lt_succ_self _) hscoped hfair

theorem validate_decides {C : Prop} {rt : Runtime} {value : Value} {schema : AnySchema}
    {context : ValidationContext} (haccepting : C → context.Accepting)
    (hcast : context.cast = false) (hdepth : context.depth = none)
    (hscoped : Scoped schema.objectOf [] schema)
    (hfair : Everywhere rt schema.objectOf (Fair C) ⟨context.inputStyle, value, schema⟩) :
    ∃ errors, validate rt value schema context = .ok errors ∧ Decides C (errors = [])
      (Matches rt schema.objectOf context.inputStyle false value schema) := by
  have hchecks := validateAny_checks C rt schema.objectOf (weight value + 1) [] context value schema
    (Nat.lt_succ_self _) ⟨haccepting, .inl ⟨hcast, hdepth⟩⟩ (fun _ h => absurd h List.not_mem_nil)
    hscoped hfair
  obtain ⟨errors, references, hrun, -, herrors⟩ := hchecks (fun _ => none)
    ⟨fun _ _ h => (nomatch h), fun _ h => absurd h List.not_mem_nil⟩
  refine ⟨errors, ?_, hcast ▸ herrors⟩
  rw [validate, StateT.run'_eq, hrun]
  rfl

/-- What the validator accepts matches, whatever is mistaken or custom. -/
theorem matches_of_validate {rt : Runtime} {value : Value} {schema : AnySchema}
    {context : ValidationContext} (hcast : context.cast = false) (hdepth : context.depth = none)
    (hscoped : Scoped schema.objectOf [] schema)
    (hfair : Everywhere rt schema.objectOf (Fair False) ⟨context.inputStyle, value, schema⟩)
    (hvalid : validate rt value schema context = .ok []) :
    Matches rt schema.objectOf context.inputStyle false value schema := by
  obtain ⟨errors, hrun, hdecides⟩ := validate_decides False.elim hcast hdepth hscoped hfair
  rw [hvalid] at hrun
  cases hrun
  exact hdecides.sound rfl

namespace Sample

/-- Surroundings without any format. -/
def runtime : Runtime where
  toNumber _ := none
  numberText _ := ""
  decodeBase64Json _ := .undefined
  decode_le _ := by simp [weight]
  customFormats _ := none

/-- An object with a literal type. -/
def typed (type : String) (default : Option String) : AnySchema :=
  .object (.mk {} none {} [("type", .string { value := some type, default })] none)

def events (default : Option String) : AnySchema :=
  .union {} none [typed "created" default, typed "removed" none]

def removed : Value := .obj [("type", .str "removed")]

theorem scoped_typed (type : String) (default : Option String) (objects : References) :
    Scoped objects [] (typed type default) := by
  refine .object rfl (fun _ h => (nomatch h)) ?_ (fun _ h => (nomatch h)) fun _ h => (nomatch h)
  intro property hmem
  cases List.mem_singleton.mp hmem
  exact .string

theorem scoped_events (default : Option String) (objects : References) :
    Scoped objects [] (events default) := by
  refine .union fun element hmem => ?_
  rcases List.mem_pair.mp hmem with rfl | rfl <;> exact scoped_typed _ _ _

theorem fair_string (value : Value) (type : String) (default : Option String) (hne : type ≠ "")
    (objects : References) :
    Everywhere runtime objects (Fair True) ⟨none, value, .string { value := some type, default }⟩ := by
  refine .of_parts ⟨fun _ _ _ h => (nomatch h), ?_⟩ fun q h => (nomatch h)
  intro schema heq hempty
  cases heq
  exact absurd (Option.some.inj hempty) hne

theorem fair_typed (value : Value) (type : String) (default : Option String) (hne : type ≠ "")
    (objects : References) :
    Everywhere runtime objects (Fair True) ⟨none, value, typed type default⟩ := by
  refine .of_parts ⟨fun _ _ _ h => (nomatch h), fun _ h => (nomatch h)⟩ fun q h => ?_
  cases h with
  | property hinput hmem =>
    cases List.mem_singleton.mp hmem
    exact fair_string _ type default hne objects
  | name _ hadditional | value _ hadditional => cases hadditional

theorem fair_events (objects : References) :
    Everywhere runtime objects (Fair True) ⟨none, removed, events none⟩ := by
  refine .of_parts ⟨?_, fun _ h => (nomatch h)⟩ fun q h => ?_
  · intro flags types elements heq _
    cases heq
    refine ⟨List.cons_ne_nil _ _, fun _ d input hd hread => ?_⟩
    obtain rfl : d = ⟨["type"], [.str "created", .str "removed"]⟩ := (Option.some.inj hd).symm
    obtain rfl : input = .str "removed" := (Option.some.inj hread).symm
    refine ⟨fun branch hmem _ schema hschema => ?_, fun d input hd _ => (nomatch hd)⟩
    rcases List.mem_pair.mp hmem with rfl | rfl <;> cases hschema <;> rfl
  · cases h with
    | branch hmem => rcases List.mem_pair.mp hmem with rfl | rfl <;> exact fair_typed _ _ _ (by decide) _

end Sample

end Ez4.Schema

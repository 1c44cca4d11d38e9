import Ez4.Migration.StepQueries

/-! # What the changes of a column show

A change of the type, of the maximum length or of the nullability of a column
shows in the comparison of its schemas, and a guessed rename keeps the type. -/

namespace Ez4.Migration
open Ez4.Library Ez4.Utils

/-! ## Schemas as objects -/

@[simp] theorem find_field (key : String) (value : Option Value) (k : String) :
    find (field key value) k = if key = k then value else none := by
  unfold field
  cases value with
  | none => simp
  | some v => rw [find_cons]; simp

theorem find_eq_none_of_keys {fields : Fields} {names : List String}
    (h : ∀ k ∈ keysOf fields, k ∉ names) {k : String} (hk : k ∈ names) : find fields k = none :=
  find_eq_none.mpr fun hm => h k hm hk

theorem sublist_keysOf_field (key : String) (value : Option Value) :
    (keysOf (field key value)).Sublist [key] := by
  cases value <;> simp [field, keysOf]

theorem keysOf_append {α : Type} (fields rest : List (String × α)) :
    keysOf (fields ++ rest) = keysOf fields ++ keysOf rest := List.map_append

theorem mem_field {key : String} {value : Option Value} {f : String × Value} :
    f ∈ field key value ↔ ∃ v, value = some v ∧ f = (key, v) := by
  cases value <;> simp [field]

/-- Properties under known names, and the rest under other names. -/
theorem defined_append {known rest : Fields} (names : List String) (hn : names.Nodup)
    (hk : (keysOf known).Sublist names) (hr : Defined rest) (hd : ∀ k ∈ keysOf rest, k ∉ names)
    (hv : ∀ k v, (k, v) ∈ known → v.isUndefined = false) : Defined (known ++ rest) where
  nodup := by
    rw [keysOf_append]
    refine List.nodup_append.mpr ⟨hn.sublist hk, hr.nodup, fun a ha b hb hab => ?_⟩
    exact hd b hb (hab ▸ hk.subset ha)
  value k v h := by
    rcases List.mem_append.mp h with h | h
    · exact hv k v h
    · exact hr.value k v h

namespace Definitions

variable (d : Definitions)

theorem defined : Defined d.toFields := by
  refine defined_append ["maxLength", "default", "value"] (by decide) ?_ d.rest_defined
    (fun k hk hm => d.rest_keys k hk (by revert hm; simp; tauto)) ?_
  · simp only [keysOf_append]
    exact ((sublist_keysOf_field _ _).append (sublist_keysOf_field _ _)).append
      (sublist_keysOf_field _ _)
  · intro k v h
    simp only [List.mem_append, mem_field, Prod.mk.injEq, Option.map_eq_some_iff] at h
    rcases h with (⟨w, ⟨n, -, rfl⟩, -, rfl⟩ | ⟨w, hw, -, rfl⟩) | ⟨w, hw, -, rfl⟩
    · rfl
    · exact d.default_defined v hw
    · exact d.value_defined v hw

theorem find_rest {k : String} (hk : k ∈ ["maxLength", "default", "value", "type", "relations"]) :
    find d.rest k = none := find_eq_none_of_keys d.rest_keys hk

theorem find_maxLength : find d.toFields "maxLength" = d.maxLength.map .num := by
  simp [toFields, find_append, d.find_rest (k := "maxLength")]

theorem find_type : find d.toFields "type" = none := by
  simp [toFields, find_append, d.find_rest (k := "type")]

theorem find_relations : find d.toFields "relations" = none := by
  simp [toFields, find_append, d.find_rest (k := "relations")]

end Definitions

namespace AnySchema

variable (s : AnySchema)

theorem defined : Defined s.toFields := by
  refine defined_append
    ["type", "definitions", "optional", "nullable", "format", "options"] (by decide) ?_
    s.rest_defined (fun k hk hm => s.rest_keys k hk (by revert hm; simp; tauto)) ?_
  · simp only [keysOf_append]
    exact (((((List.Sublist.refl ["type"]).append (sublist_keysOf_field _ _)).append
      (sublist_keysOf_field _ _)).append (sublist_keysOf_field _ _)).append
      (sublist_keysOf_field _ _)).append (sublist_keysOf_field _ _)
  · intro k v h
    simp only [List.mem_append, mem_field, Prod.mk.injEq, Option.map_eq_some_iff,
      Option.ite_none_right_eq_some, Option.some.injEq, List.mem_singleton] at h
    rcases h with ((((⟨-, rfl⟩ | ⟨w, ⟨d, -, rfl⟩, -, rfl⟩) | ⟨w, ⟨b, -, rfl⟩, -, rfl⟩) |
      ⟨w, ⟨b, -, rfl⟩, -, rfl⟩) | ⟨w, ⟨f, -, rfl⟩, -, rfl⟩) | ⟨w, ⟨-, rfl⟩, -, rfl⟩ <;> rfl

theorem find_rest {k : String}
    (hk : k ∈ ["type", "definitions", "optional", "nullable", "format", "options", "columns",
      "relations"]) :
    find s.rest k = none := find_eq_none_of_keys s.rest_keys hk

theorem find_type : find s.toFields "type" = some (.str s.type.text) := by
  simp [toFields, find_cons]

theorem find_definitions :
    find s.toFields "definitions" = s.definitions.map fun d => .obj d.toFields := by
  simp [toFields, find_append, find_cons, s.find_rest (k := "definitions")]

theorem find_optional : find s.toFields "optional" = s.optional.map .bool := by
  simp [toFields, find_append, find_cons, s.find_rest (k := "optional")]

theorem find_nullable : find s.toFields "nullable" = s.nullable.map .bool := by
  simp [toFields, find_append, find_cons, s.find_rest (k := "nullable")]

theorem find_format : find s.toFields "format" = s.format.map .str := by
  simp [toFields, find_append, find_cons, s.find_rest (k := "format")]

theorem find_columns : find s.toFields "columns" = none := by
  simp [toFields, find_append, find_cons, s.find_rest (k := "columns")]

theorem find_relations : find s.toFields "relations" = none := by
  simp [toFields, find_append, find_cons, s.find_rest (k := "relations")]

end AnySchema

/-! ## An attribute that changes shows -/

/-- Values of `α` written as scalars, which `===` tells apart. -/
structure Scalar {α : Type} [DecidableEq α] (V : α → Value) : Prop where
  not_undefined : ∀ a, V a ≠ .undefined
  not_arr : ∀ a items, V a ≠ .arr items
  not_obj : ∀ a fields, V a ≠ .obj fields
  strictEq : ∀ a b, (V a).strictEq (V b) = decide (a = b)

theorem scalar_bool : Scalar Value.bool :=
  ⟨by simp, by simp, by simp, fun a b => by rw [Value.strictEq]; rfl⟩

theorem scalar_num : Scalar Value.num :=
  ⟨by simp, by simp, by simp, fun a b => by rw [Value.strictEq]; rfl⟩

theorem scalar_str : Scalar Value.str :=
  ⟨by simp, by simp, by simp, fun a b => by rw [Value.strictEq]; rfl⟩

theorem text_injective {a b : SchemaType} (h : a.text = b.text) : a = b := by
  cases a <;> cases b <;> first | rfl | (revert h; decide)

theorem scalar_type : Scalar fun t : SchemaType => Value.str t.text :=
  ⟨by simp, by simp, by simp, fun a b => by
    simp only [Value.strictEq, beq_eq_decide]
    exact decide_eq_decide.mpr ⟨text_injective, congrArg _⟩⟩

theorem canRename_obj {v w : Value} (h : canRename v w = true) :
    ∃ target source, v = .obj target ∧ w = .obj source := by
  cases v <;> cases w <;> simp [canRename] at h ⊢

section Attribute

variable {target source : Fields} {c : ObjectComparison}

theorem not_renamed_to (h : Compared repositoryOptions target source c) {k : String}
    (hk : ∀ fields, get target k ≠ .obj fields) : k ∉ c.rename.map Prod.snd := by
  rintro hm
  obtain ⟨⟨f, g⟩, hfg, rfl⟩ := List.mem_map.mp hm
  obtain ⟨t, -, ht, -⟩ := canRename_obj (h.accepted f g hfg canRename rfl)
  exact hk t ht

theorem not_renamed_from (h : Compared repositoryOptions target source c) {k : String}
    (hk : ∀ fields, get source k ≠ .obj fields) : k ∉ c.rename.map Prod.fst := by
  rintro hm
  obtain ⟨⟨f, g⟩, hfg, rfl⟩ := List.mem_map.mp hm
  obtain ⟨-, s, -, hs⟩ := canRename_obj (h.accepted f g hfg canRename rfl)
  exact hk s hs

theorem get_scalar {α : Type} [DecidableEq α] {V : α → Value} (hV : Scalar V) {fields : Fields}
    {k : String} {a : Option α} (h : find fields k = a.map V) (object : Fields) :
    get fields k ≠ .obj object := by
  rw [get_eq, h]
  cases a with
  | none => simp
  | some a => exact hV.not_obj a object

/-- What the changes hold of a scalar attribute: its new value, or the value it
had when it is gone. -/
theorem attributeChanges_eq {α : Type} [DecidableEq α] {V : α → Value} (hV : Scalar V)
    (h : Compared repositoryOptions target source c) (ht : Defined target) {k : String}
    {new old : Option α} (hnew : find target k = new.map V) (hold : find source k = old.map V) :
    attributeChanges c k =
      match new, old with
      | none, none => [.undefined, .undefined, .undefined]
      | some a, none => [V a, .undefined, .undefined]
      | none, some b => [.undefined, .undefined, V b]
      | some a, some b =>
        if a = b then [.undefined, .undefined, .undefined] else [.undefined, V a, .undefined] := by
  have hto := not_renamed_to h (get_scalar hV hnew)
  have hfrom := not_renamed_from h (get_scalar hV hold)
  have hsource : k ∈ keysOf source ↔ old.isSome := by
    rw [mem_keysOf_iff, hold]; cases old <;> simp
  have htarget : k ∈ keysOf target ↔ new.isSome := by
    rw [mem_keysOf_iff, hnew]; cases new <;> simp
  have hcreate := h.find_create k
  have hremove := h.find_remove k
  have hupdate := h.find_update ht k
  rw [hnew] at hcreate hupdate
  rw [hold] at hremove
  simp only [hto, hfrom, hsource, htarget, or_false] at hcreate hremove
  unfold attributeChanges updated
  rw [get_eq, get_eq, hcreate, hremove, hupdate]
  cases new with
  | none => cases old <;> simp
  | some a =>
    have hu : updateOf source (k, V a) =
        old.bind fun b => if a = b then none else some (k, .value (V a)) := by
      unfold updateOf
      simp only [hold]
      cases old with
      | none => cases V a <;> rfl
      | some b =>
        have he := hV.strictEq a b
        have hna := hV.not_arr a
        have hno := hV.not_obj a
        cases hva : V a <;> cases hvb : V b <;> simp_all
    rw [Option.map_some, Option.bind_some, hu]
    cases old with
    | none => simp
    | some b => by_cases hab : a = b <;> simp [hab]

/-- Whether the changes hold a value that passes a test, which `undefined`
does not and the values of the attribute do. -/
theorem attributeChanges_any {α : Type} [DecidableEq α] {V : α → Value} (hV : Scalar V)
    (h : Compared repositoryOptions target source c) (ht : Defined target) {k : String}
    {new old : Option α} (hnew : find target k = new.map V) (hold : find source k = old.map V)
    {p : Value → Bool} (hp : p .undefined = false) (hpn : ∀ a, new = some a → p (V a) = true)
    (hpo : ∀ b, old = some b → p (V b) = true) :
    (attributeChanges c k).any p = decide (new ≠ old) := by
  rw [attributeChanges_eq hV h ht hnew hold]
  cases new with
  | none => cases old <;> simp [hp, hpo]
  | some a =>
    cases old with
    | none => simp [hp, hpn]
    | some b => by_cases hab : a = b <;> simp [hp, hpn, hab]

end Attribute

/-! ## Changes of a column -/

theorem skips_repositoryOptions (key : String) : repositoryOptions.selection.skips key = false :=
  rfl

theorem at_repositoryOptions (key : String) : repositoryOptions.at key = repositoryOptions := rfl

/-- The comparison of two objects of a repository. -/
theorem compared_repository {target source : Fields} (ht : Defined target) (hs : Defined source) :
    Compared repositoryOptions target source (deepCompareObject repositoryOptions target source) :=
  compared skips_repositoryOptions rfl ht hs

/-- Definitions are not taken for a table, an index or a schema. -/
theorem canRename_definitions_left (d : Definitions) (v : Value) :
    canRename (.obj d.toFields) v = false := by
  cases v <;> simp [canRename, isTableMetadata, isTableIndex, isAnySchema, isObjectWith, get_eq,
    d.find_relations, d.find_type, Value.isNullish]

theorem canRename_definitions_right (d : Definitions) (v : Value) :
    canRename v (.obj d.toFields) = false := by
  cases v <;> simp [canRename, isTableMetadata, isTableIndex, isAnySchema, isObjectWith, get_eq,
    d.find_relations, d.find_type, Value.isNullish]

section Column

/-- The changes of a column. -/
def AnySchema.changes (new old : AnySchema) : ObjectComparison :=
  deepCompareObject repositoryOptions new.toFields old.toFields

variable (new old : AnySchema)

theorem compared_schema : Compared repositoryOptions new.toFields old.toFields (new.changes old) :=
  compared_repository new.defined old.defined

theorem hasTypeChanged_iff :
    hasTypeChanged (new.changes old) = true ↔ new.type ≠ old.type ∨ new.format ≠ old.format := by
  have htype : (attributeChanges (new.changes old) "type").any Value.truthy =
      decide (some new.type ≠ some old.type) := by
    refine attributeChanges_any scalar_type (compared_schema new old) new.defined
      (by rw [new.find_type]; rfl) (by rw [old.find_type]; rfl) rfl ?_ ?_ <;>
    · intro a _
      cases a <;> decide
  have hformat : (attributeChanges (new.changes old) "format").any Value.truthy =
      decide (new.format ≠ old.format) := by
    refine attributeChanges_any scalar_str (compared_schema new old) new.defined new.find_format
      old.find_format rfl ?_ ?_
    · intro a ha
      have hne : a ≠ "" := fun he => new.format_ne (he ▸ ha)
      simpa [Value.truthy] using hne
    · intro a ha
      have hne : a ≠ "" := fun he => old.format_ne (he ▸ ha)
      simpa [Value.truthy] using hne
  rw [hasTypeChanged, htype, hformat]
  simp

theorem hasNullityChanged_iff :
    hasNullityChanged (new.changes old) = true ↔
      new.optional ≠ old.optional ∨ new.nullable ≠ old.nullable := by
  have hoptional : (attributeChanges (new.changes old) "optional").any (!·.isNullish) =
      decide (new.optional ≠ old.optional) :=
    attributeChanges_any scalar_bool (compared_schema new old) new.defined new.find_optional
      old.find_optional rfl (fun _ _ => rfl) fun _ _ => rfl
  have hnullable : (attributeChanges (new.changes old) "nullable").any (!·.isNullish) =
      decide (new.nullable ≠ old.nullable) :=
    attributeChanges_any scalar_bool (compared_schema new old) new.defined new.find_nullable
      old.find_nullable rfl (fun _ _ => rfl) fun _ _ => rfl
  rw [hasNullityChanged, hoptional, hnullable]
  simp

/-- The maximum length of a column, if it has one. -/
def AnySchema.maxLength (s : AnySchema) : Option Number := s.definitions.bind (·.maxLength)

theorem not_renamed_definitions_to :
    "definitions" ∉ (new.changes old).rename.map Prod.snd := by
  rintro hm
  obtain ⟨⟨f, g⟩, hfg, rfl⟩ := List.mem_map.mp hm
  have ha := (compared_schema new old).accepted f "definitions" hfg canRename rfl
  rw [get_eq, new.find_definitions] at ha
  cases hd : new.definitions with
  | none => simp [hd, canRename] at ha
  | some d => simp [hd, canRename_definitions_left] at ha

theorem not_renamed_definitions_from :
    "definitions" ∉ (new.changes old).rename.map Prod.fst := by
  rintro hm
  obtain ⟨⟨f, g⟩, hfg, rfl⟩ := List.mem_map.mp hm
  have ha := (compared_schema new old).accepted "definitions" g hfg canRename rfl
  rw [get_eq old.toFields, old.find_definitions] at ha
  cases hd : old.definitions with
  | none => cases h : get new.toFields g <;> simp [hd, h, canRename] at ha
  | some d => simp [hd, canRename_definitions_right] at ha

/-- The changes inside the definitions, when both schemas have some. -/
theorem hasLengthChanged_nested {d e : Definitions} {c : ObjectComparison}
    (hc : c = deepCompareObject repositoryOptions d.toFields e.toFields) :
    (attributeChanges c "maxLength").any Value.isAnyNumber = decide (d.maxLength ≠ e.maxLength) :=
  hc ▸ attributeChanges_any scalar_num (compared_repository d.defined e.defined) d.defined
    d.find_maxLength e.find_maxLength rfl (fun _ _ => rfl) fun _ _ => rfl

theorem mem_keysOf_definitions (s : AnySchema) :
    "definitions" ∈ keysOf s.toFields ↔ s.definitions.isSome = true := by
  rw [mem_keysOf_iff, s.find_definitions]
  cases s.definitions <;> simp

/-- The length shows in the definitions gained or lost, or inside those kept. -/
theorem hasLengthChanged_eq (c : ObjectComparison) :
    hasLengthChanged c =
      (((attributeChanges c "definitions").map (definition · "maxLength")).any Value.isAnyNumber ||
        match find c.nested "definitions" with
        | some d => (attributeChanges d "maxLength").any Value.isAnyNumber
        | none => false) := by
  unfold hasLengthChanged definitionChanges
  rw [List.any_append]
  congr 1
  cases find c.nested "definitions" with
  | none => rfl
  | some d =>
    have hflag : Value.isAnyNumber
        (if (find d.nested "maxLength").isSome then .obj [] else .undefined) = false := by
      split <;> rfl
    simp [attributeChanges, hflag]

theorem hasLengthChanged_iff :
    hasLengthChanged (new.changes old) = true ↔ new.maxLength ≠ old.maxLength := by
  have h := compared_schema new old
  have hcreate := h.find_create "definitions"
  have hremove := h.find_remove "definitions"
  have hupdate := h.find_update new.defined "definitions"
  simp only [not_renamed_definitions_to, not_renamed_definitions_from, or_false,
    mem_keysOf_definitions, new.find_definitions, old.find_definitions, updateOf]
    at hcreate hremove hupdate
  rw [hasLengthChanged_eq, attributeChanges, updated, get_eq, get_eq, hcreate, hremove, hupdate]
  unfold AnySchema.maxLength
  -- The definitions are gained, lost, or compared in turn.
  cases hn : new.definitions with
  | none =>
    rw [h.find_nested_of_none new.defined (Or.inl (by rw [new.find_definitions, hn]; rfl))]
    cases ho : old.definitions with
    | none => simp [definition, Value.isAnyNumber]
    | some e =>
      cases he : e.maxLength <;>
        simp [definition, get_eq, Value.isAnyNumber, e.find_maxLength, he]
  | some d =>
    cases ho : old.definitions with
    | none =>
      rw [h.find_nested_of_none new.defined (Or.inr (by rw [old.find_definitions, ho]; rfl))]
      cases hd : d.maxLength <;>
        simp [definition, get_eq, Value.isAnyNumber, d.find_maxLength, hd]
    | some e =>
      rw [h.find_nested_obj new.defined (t := d.toFields) (s := e.toFields)
        (by rw [new.find_definitions, hn]; rfl) (by rw [old.find_definitions, ho]; rfl),
        at_repositoryOptions]
      have hlength := hasLengthChanged_nested (d := d) (e := e) rfl
      have hcounts := (compared_repository d.defined e.defined).eq_nil_of_counts
      generalize deepCompareObject repositoryOptions d.toFields e.toFields = c at hlength hcounts ⊢
      have hfirst : ∀ v : Value, v = .undefined → definition v "maxLength" = .undefined := by
        rintro v rfl; rfl
      by_cases hpos : 0 < c.counts
      · simp [hfirst, Value.isAnyNumber, hpos, hlength]
      · obtain ⟨hc, hu, hr, -, -⟩ := hcounts hpos
        have heq : d.maxLength = e.maxLength := by
          simpa [attributeChanges, updated, get_eq, hc, hu, hr, Value.isAnyNumber] using hlength
        simp [hfirst, Value.isAnyNumber, hpos, heq]

/-! ## The column after its changes -/

/-- The column that a schema describes. -/
def AnySchema.column (s : AnySchema) : Column := ⟨getColumnType s false, isOptionalColumn s⟩

/-- A column kept under its name, once its changes are made: the nullability of
a column of the primary key is left as it is. -/
def keptColumn (new old : AnySchema) (isPrimary : Bool) : Column :=
  ⟨getColumnType new false, if isPrimary then isOptionalColumn old else isOptionalColumn new⟩

theorem getColumnType_eq_of_unchanged
    (h : (hasTypeChanged (new.changes old) || hasLengthChanged (new.changes old)) = false) :
    getColumnType old false = getColumnType new false := by
  rw [Bool.or_eq_false_iff, ← Bool.not_eq_true, ← Bool.not_eq_true, hasTypeChanged_iff,
    hasLengthChanged_iff] at h
  simp only [ne_eq, not_or, not_not] at h
  obtain ⟨⟨ht, hf⟩, hl⟩ := h
  exact getColumnType_congr ht.symm hf.symm hl.symm false

theorem isOptionalColumn_eq_of_unchanged (h : hasNullityChanged (new.changes old) = false) :
    isOptionalColumn old = isOptionalColumn new := by
  rw [← Bool.not_eq_true, hasNullityChanged_iff] at h
  simp only [ne_eq, not_or, not_not] at h
  rw [isOptionalColumn, isOptionalColumn, h.1, h.2]

/-- The update of a column makes it the one the target describes, but for the
nullability of a column of the primary key. -/
theorem alteration_apply (indexes : Record TableIndex) (timestamps : Option TableTimestamps)
    (name : String) :
    (ColumnQuery.alteration indexes timestamps name new (new.changes old)).apply old.column =
      keptColumn new old (columnIsPrimary indexes name) := by
  have htype : ((ColumnQuery.alteration indexes timestamps name new (new.changes old)).apply
      old.column).type = getColumnType new false := by
    unfold ColumnQuery.alteration ColumnAlteration.apply
    by_cases h : (hasTypeChanged (new.changes old) || hasLengthChanged (new.changes old)) = true
    · simp only [h, if_true]
      exact stored_getColumnType new false
    · rw [Bool.not_eq_true] at h
      simp only [h, Bool.false_eq_true, if_false]
      exact getColumnType_eq_of_unchanged new old h
  have hnull : (ColumnQuery.alteration indexes timestamps name new (new.changes old)).optional.getD
      old.column.nullable = if columnIsPrimary indexes name then isOptionalColumn old
        else isOptionalColumn new := by
    unfold ColumnQuery.alteration
    by_cases hp : columnIsPrimary indexes name = true
    · simp [hp, AnySchema.column]
    · by_cases h : hasNullityChanged (new.changes old) = true
      · simp [hp, h]
      · rw [Bool.not_eq_true] at h
        simp [hp, h, AnySchema.column, isOptionalColumn_eq_of_unchanged new old h]
  exact congrArg₂ Column.mk htype hnull

theorem apply_of_empty {a : ColumnAlteration} (h : a.empty = true) (c : Column) : a.apply c = c := by
  simp only [ColumnAlteration.empty, Bool.and_eq_true, Option.isNone_iff_eq_none] at h
  simp [ColumnAlteration.apply, h.1.1, h.2]

/-- Without changes the column is the one it was. -/
theorem keptColumn_of_counts (h : ¬ 0 < (new.changes old).counts) (isPrimary : Bool) :
    keptColumn new old isPrimary = old.column := by
  obtain ⟨hc, hu, hr, -, hn⟩ := (compared_schema new old).eq_nil_of_counts h
  have hflags : (hasTypeChanged (new.changes old) || hasLengthChanged (new.changes old)) = false ∧
      hasNullityChanged (new.changes old) = false := by
    simp [hasTypeChanged, hasLengthChanged, hasNullityChanged, definitionChanges, attributeChanges,
      updated, get_eq, definition, Value.truthy, Value.isNullish, Value.isAnyNumber, hc, hu, hr, hn]
  have hnull := isOptionalColumn_eq_of_unchanged new old hflags.2
  rw [keptColumn, AnySchema.column, getColumnType_eq_of_unchanged new old hflags.1, hnull]
  cases isPrimary <;> rfl

/-! ## Guessed renames keep the type -/

theorem isAnySchema_toFields (s : AnySchema) : isAnySchema s.toFields = true := by
  rw [isAnySchema, get_eq, s.find_type]
  cases s.type <;> decide

theorem canRename_schema :
    canRename new.toValue old.toValue = canRenameColumn new.toFields old.toFields := by
  simp [AnySchema.toValue, canRename, isTableMetadata, isTableIndex, isObjectWith, get_eq,
    new.find_relations, new.find_columns, Value.isNullish, isAnySchema_toFields]

/-- A selected scalar of two equal objects is the same. -/
theorem eq_of_deepEqualObject {α : Type} [DecidableEq α] {V : α → Value} (hV : Scalar V)
    {o : EqualityOptions} {target source : Fields} (h : deepEqualObject o target source = true)
    {k : String} (hk : o.selection.skips k = false) {a b : Option α}
    (ha : find target k = a.map V) (hb : find source k = b.map V) : a = b := by
  by_cases hm : k ∈ allKeys target source
  · rw [deepEqualObject_eq, List.all_eq_true] at h
    have heq := h k hm
    rw [hk, Bool.false_or, get_eq, get_eq, ha, hb] at heq
    cases a with
    | none =>
      cases b with
      | none => rfl
      | some b =>
        have hnu := hV.not_undefined b
        simp only [Option.map_none, Option.map_some, Option.getD_none, Option.getD_some] at heq
        cases hv : V b <;> simp_all [equalValues, Value.strictEq]
    | some a =>
      have hnu := hV.not_undefined a
      have hna := hV.not_arr a
      have hno := hV.not_obj a
      cases b with
      | none =>
        simp only [Option.map_none, Option.map_some, Option.getD_none, Option.getD_some] at heq
        cases hv : V a <;> simp_all [equalValues, Value.strictEq]
      | some b =>
        have he := hV.strictEq a b
        simp only [Option.map_some, Option.getD_some] at heq
        cases hv : V a <;> cases hw : V b <;> simp_all [equalValues]
  · rw [mem_allKeys, mem_keysOf_iff, mem_keysOf_iff, ha, hb] at hm
    cases a <;> cases b <;> simp_all

/-- Columns taken for one another have the same maximum length. -/
theorem maxLength_of_canRenameColumn (h : canRenameColumn new.toFields old.toFields = true) :
    new.maxLength = old.maxLength := by
  unfold AnySchema.maxLength
  rw [canRenameColumn, deepEqualObject_eq, List.all_eq_true] at h
  have heq : (new.definitions.isSome ∨ old.definitions.isSome) →
      equalValues _ _ (get new.toFields "definitions") (get old.toFields "definitions") = true :=
    fun hm => by
      have hk : "definitions" ∈ allKeys new.toFields old.toFields := by
        rwa [mem_allKeys, mem_keysOf_definitions, mem_keysOf_definitions]
      exact (Bool.or_eq_true _ _ ▸ h _ hk).resolve_left (by decide)
  rw [get_eq, get_eq, new.find_definitions, old.find_definitions] at heq
  cases hn : new.definitions with
  | none =>
    cases ho : old.definitions with
    | none => rfl
    | some e => simp [hn, ho, equalValues, Value.strictEq] at heq
  | some d =>
    cases ho : old.definitions with
    | none => simp [hn, ho, equalValues, Value.strictEq] at heq
    | some e =>
      simp only [hn, ho, Option.map_some, Option.getD_some, equalValues, Option.isSome_some,
        true_or, forall_const, Bool.and_eq_true] at heq
      exact eq_of_deepEqualObject scalar_num heq.2 (k := "maxLength") rfl d.find_maxLength
        e.find_maxLength

/-- Columns taken for one another have the same type in the database. -/
theorem getColumnType_of_canRename (h : canRename new.toValue old.toValue = true) :
    getColumnType old false = getColumnType new false := by
  rw [canRename_schema, canRenameColumn] at h
  have htype : some new.type = some old.type :=
    eq_of_deepEqualObject scalar_type h (k := "type") rfl (by rw [new.find_type]; rfl)
      (by rw [old.find_type]; rfl)
  have hformat : new.format = old.format :=
    eq_of_deepEqualObject scalar_str h (k := "format") rfl new.find_format old.find_format
  have hlength := maxLength_of_canRenameColumn new old h
  exact getColumnType_congr (Option.some.inj htype).symm hformat.symm hlength.symm false

end Column

end Ez4.Migration

import Ez4.Schema.Matches
import Ez4.Library.Except

/-! # Narrowing a union

A discriminator is a path that leads, in every branch, to a literal that the
branch requires. -/
namespace Ez4.Schema
open Ez4.Utils Ez4.Library

/-! ## Where a discriminator leads -/

/-- The schema at a path through plain objects. -/
def schemaAt : List String → AnySchema → Option AnySchema
  | [], schema => some schema
  | key :: rest, schema =>
    if isPlainObjectSchema schema then (propertySchema key schema).bind (schemaAt rest) else none

/-- The literal at a path. -/
def literalAt (path : List String) (schema : AnySchema) : Option Value :=
  (schemaAt path schema).bind getLiteral

section Discriminators

variable {path keys : List String} {key : String} {elements : List AnySchema}
  {schema : AnySchema} {d : Discriminator}

theorem literalAt_cons (hplain : isPlainObjectSchema schema = true) :
    literalAt (key :: path) schema = (propertySchema key schema).bind (literalAt path) := by
  simp only [literalAt, schemaAt, if_pos hplain, Option.bind_assoc]
  rfl

/-- A path after the given one, with a literal in every branch. -/
def Leads (d : Discriminator) (path : List String) (elements : List AnySchema) : Prop :=
  ∃ key rest, d.path = path ++ key :: rest ∧
    elements.mapM (literalAt (key :: rest)) = some d.literals

theorem mapM_congr {α β : Type} {f g : α → Option β} {l : List α} (h : ∀ a ∈ l, f a = g a) :
    l.mapM f = l.mapM g := by
  cases hl : l.mapM g with
  | none =>
    cases hf : l.mapM f with
    | none => rfl
    | some r =>
      rw [Except.mapM_eq_some, List.map_congr_left h, ← Except.mapM_eq_some, hl] at hf
      cases hf
  | some r =>
    rw [Except.mapM_eq_some] at hl ⊢
    rw [List.map_congr_left h, hl]

theorem leads_of_findLiteral (hplain : elements.all isPlainObjectSchema = true)
    (h : findLiteral elements path keys = some d) : Leads d path elements := by
  obtain ⟨key, -, h⟩ := List.exists_of_findSome?_eq_some h
  cases hm : elements.mapM fun element => (propertySchema key element).bind getLiteral with
  | none => simp [hm] at h
  | some literals =>
    by_cases hd : hasDistinct literals = true
    · simp only [hm, hd, if_true, Option.some.injEq] at h
      subst h
      refine ⟨key, [], rfl, ?_⟩
      rw [← hm]
      refine mapM_congr fun element hmem => ?_
      rw [literalAt_cons (List.all_eq_true.mp hplain element hmem)]
      rfl
    · simp [hm, hd] at h

/-- What is found behind a property is found from the objects. -/
theorem Leads.property {schemas : List AnySchema} (hplain : elements.all isPlainObjectSchema = true)
    (hschemas : elements.mapM (propertySchema key) = some schemas)
    (h : Leads d (path ++ [key]) schemas) : Leads d path elements := by
  obtain ⟨first, rest, hpath, hliterals⟩ := h
  refine ⟨key, first :: rest, by simpa using hpath, ?_⟩
  rw [← Except.mapM_bind hschemas hliterals]
  exact mapM_congr fun element hmem => literalAt_cons (List.all_eq_true.mp hplain element hmem)

end Discriminators

theorem leads_of_findDiscriminatorIn {depth : Nat} {d : Discriminator} {elements : List AnySchema}
    {path : List String} (h : findDiscriminatorIn depth elements path = some d) :
    Leads d path elements := by
  induction depth generalizing elements path with
  | zero => simp [findDiscriminatorIn] at h
  | succ depth ih =>
    rw [findDiscriminatorIn] at h
    by_cases hplain : (elements.length < 2 || !elements.all isPlainObjectSchema) = true
    · rw [if_pos hplain] at h
      cases h
    · rw [if_neg hplain] at h
      have hall : elements.all isPlainObjectSchema = true := by
        simp only [Bool.or_eq_true, not_or, Bool.not_eq_true, Bool.not_eq_false'] at hplain
        exact hplain.2
      cases hliteral : findLiteral elements path (sharedKeys elements) with
      | some found =>
        rw [hliteral, Option.some_or] at h
        exact Option.some.inj h ▸ leads_of_findLiteral hall hliteral
      | none =>
        rw [hliteral, Option.none_or] at h
        obtain ⟨key, -, h⟩ := List.exists_of_findSome?_eq_some h
        obtain ⟨schemas, hschemas, h⟩ := Option.bind_eq_some_iff.mp h
        exact (ih h).property hall hschemas

/-- Every branch has the literal of a discriminator at its path. -/
theorem literalAt_of_mem {elements : List AnySchema} {d : Discriminator}
    (h : findDiscriminator elements = some d) {element : AnySchema} {literal : Value}
    (hmem : (element, literal) ∈ elements.zip d.literals) :
    d.path ≠ [] ∧ literalAt d.path element = some literal := by
  obtain ⟨key, rest, hpath, hliterals⟩ := leads_of_findDiscriminatorIn h
  rw [List.nil_append] at hpath
  rw [hpath]
  exact ⟨List.cons_ne_nil _ _, Except.eq_some_of_mem_zip hliterals hmem⟩

theorem length_literals {elements : List AnySchema} {d : Discriminator}
    (h : findDiscriminator elements = some d) : d.literals.length = elements.length := by
  obtain ⟨key, rest, -, hliterals⟩ := leads_of_findDiscriminatorIn h
  exact Except.length_of_mapM hliterals

/-! ## Branches that match are kept -/

/-- The values other than its literal that a schema takes for it. -/
def takesOther : AnySchema → Value → Bool
  | .string schema, .str text => schema.trim && schema.value == some (trim text)
  | schema, .undefined => schema.hasDefault
  | _, _ => false

/-- No branch is dropped for a value that its own literal takes. -/
def Unmistaken (style : Option NamingStyle) (value : Value) : Nat → List AnySchema → Prop
  | 0, _ => True
  | rounds + 1, current => ∀ d input, findDiscriminator current = some d →
    readPath style value d.path = some input →
      (∀ branch ∈ current.zip d.literals, branch.2.strictEq input = false →
        ∀ schema, schemaAt d.path branch.1 = some schema → takesOther schema input = false) ∧
      Unmistaken style value rounds (matching current d.literals input)

section Kept

variable {rt : Runtime} {objects : References} {style : Option NamingStyle} {value input : Value}
  {schema element : AnySchema} {path : List String} {elements : List AnySchema}

/-- A plain object schema that has a value read into it matches an object. -/
theorem object_of_plain {key : String} (h : Matches rt objects style false value element)
    (hplain : isPlainObjectSchema element = true)
    (hread : readPath style value (key :: path) = some input) :
    ∃ fields schema, value = .obj fields ∧ element = .object schema ∧
      ObjectMatches rt objects style false schema fields := by
  cases value with
  | obj fields =>
    cases element with
    | object schema =>
      refine ⟨fields, schema, rfl, rfl, ?_⟩
      rcases matches_object_iff.mp h with habsent | ⟨fields', hinput, hmatches⟩
      · simp [Absent, isNullishAllowed] at habsent
      · cases hinput
        exact hmatches
    | _ => simp [isPlainObjectSchema] at hplain
  | _ => simp [readPath] at hread

theorem matches_at (h : Matches rt objects style false value element)
    (hschema : schemaAt path element = some schema) (hread : readPath style value path = some input) :
    Matches rt objects style false input schema := by
  induction path generalizing element value with
  | nil =>
    cases hschema
    cases value <;> cases hread <;> exact h
  | cons key rest ih =>
    rw [schemaAt] at hschema
    by_cases hplain : isPlainObjectSchema element = true
    · rw [if_pos hplain] at hschema
      obtain ⟨child, hchild, hrest⟩ := Option.bind_eq_some_iff.mp hschema
      obtain ⟨fields, object, rfl, rfl, hmatches⟩ := object_of_plain h hplain hread
      exact ih (hmatches.properties _ (mem_of_find hchild)) hrest hread
    · simp [hplain] at hschema

/-- What matches a literal is the literal, or something else that it takes. -/
theorem strictEq_of_literal {literal : Value} (h : Matches rt objects style false input schema)
    (hliteral : getLiteral schema = some literal) :
    literal.strictEq input = true ∨ takesOther schema input = true := by
  unfold getLiteral at hliteral
  by_cases hflags : (schema.flags.optional || schema.flags.nullable) = true
  · simp [hflags] at hliteral
  · rw [if_neg hflags] at hliteral
    simp only [Bool.or_eq_true, not_or, Bool.not_eq_true] at hflags
    have habsent : Absent input schema → takesOther schema input = true := by
      rintro (hnullish | ⟨rfl, hdefault⟩)
      · cases input <;> simp [isNullishAllowed, hflags] at hnullish
      · cases schema <;> exact hdefault
    cases schema with
    | boolean schema =>
      obtain ⟨expected, hvalue, rfl⟩ := Option.map_eq_some_iff.mp hliteral
      rcases matches_boolean_iff.mp h with h | ⟨b, hinput, hb⟩
      · exact .inr (habsent h)
      · rw [← hb expected hvalue]
        cases input <;> simp [booleanInput] at hinput
        simp [Value.strictEq, hinput]
    | number schema =>
      obtain ⟨expected, hvalue, rfl⟩ := Option.map_eq_some_iff.mp hliteral
      rcases matches_number_iff.mp h with h | ⟨n, hinput, hn⟩
      · exact .inr (habsent h)
      · rw [← hn.value expected hvalue]
        cases input <;> simp [numberInput] at hinput
        simp [Value.strictEq, hinput]
    | string schema =>
      obtain ⟨expected, hvalue, rfl⟩ := Option.map_eq_some_iff.mp hliteral
      rcases matches_string_iff.mp h with h | ⟨text, hinput, htext⟩
      · exact .inr (habsent h)
      · have heq : text = expected := htext.value expected hvalue
        cases input <;> simp [textInput] at hinput
        by_cases htrim : schema.trim = true
        · simp only [htrim, if_true] at hinput
          simp [takesOther, htrim, hvalue, hinput, heq]
        · simp only [htrim, if_false, Bool.false_eq_true] at hinput
          simp [Value.strictEq, hinput, heq]
    | enum schema =>
      cases hoptions : schema.options with
      | nil => simp [hoptions] at hliteral
      | cons option rest =>
        cases rest with
        | cons other rest => simp [hoptions] at hliteral
        | nil =>
          simp only [hoptions, Option.some.injEq] at hliteral
          subst hliteral
          rcases matches_enum_iff.mp h with h | ⟨option', hmem, rfl⟩
          · exact .inr (habsent h)
          · rw [hoptions, List.mem_singleton] at hmem
            subst hmem
            cases option' <;> simp [EnumValue.toValue, Value.strictEq]
    | object | reference | union | array | tuple => simp at hliteral

theorem mem_matching {current : List AnySchema} {literals : List Value} :
    element ∈ matching current literals input ↔
      ∃ literal, (element, literal) ∈ current.zip literals ∧ literal.strictEq input = true := by
  simp [matching]

/-- A branch that matches is among the ones that are left. -/
theorem mem_matching_of_matches {current : List AnySchema} {d : Discriminator}
    (hd : findDiscriminator current = some d) (hread : readPath style value d.path = some input)
    (hunmistaken : ∀ branch ∈ current.zip d.literals, branch.2.strictEq input = false →
      ∀ schema, schemaAt d.path branch.1 = some schema → takesOther schema input = false)
    (hmem : element ∈ current) (h : Matches rt objects style false value element) :
    element ∈ matching current d.literals input := by
  obtain ⟨literal, hzip⟩ : ∃ literal, (element, literal) ∈ current.zip d.literals := by
    obtain ⟨i, hi, rfl⟩ := List.mem_iff_getElem.mp hmem
    have hlength : i < d.literals.length := length_literals hd ▸ hi
    exact ⟨d.literals[i], List.mem_iff_getElem.mpr ⟨i, by rw [List.length_zip]; omega, by simp⟩⟩
  obtain ⟨-, hat⟩ := literalAt_of_mem hd hzip
  obtain ⟨schema, hschema, hliteral⟩ := Option.bind_eq_some_iff.mp hat
  refine mem_matching.mpr ⟨literal, hzip, ?_⟩
  rcases strictEq_of_literal (matches_at h hschema hread) hliteral with heq | hother
  · exact heq
  · cases heq : literal.strictEq input with
    | true => rfl
    | false =>
      have := hunmistaken _ hzip heq schema hschema
      simp [hother] at this

theorem narrowed_subset {context : ValidationContext} {rounds : Nat}
    {current narrowed : List AnySchema}
    (h : narrowByDiscriminators rt context value rounds current = .ok narrowed) :
    narrowed ⊆ current := by
  induction rounds generalizing current with
  | zero => cases h; exact List.Subset.refl _
  | succ rounds ih =>
    rw [narrowByDiscriminators] at h
    cases hd : findDiscriminator current with
    | none => simp only [hd, Except.ok.injEq] at h; exact h ▸ List.Subset.refl _
    | some d =>
      cases hread : readPath context.inputStyle value d.path with
      | none => simp only [hd, hread, Except.ok.injEq] at h; exact h ▸ List.Subset.refl _
      | some input =>
        cases hmatching : matching current d.literals input with
        | nil => simp [hd, hread, hmatching] at h
        | cons first rest =>
          simp only [hd, hread, hmatching] at h
          intro element hmem
          have hleft : element ∈ matching current d.literals input := hmatching ▸ ih h hmem
          obtain ⟨literal, hzip, -⟩ := mem_matching.mp hleft
          exact (List.of_mem_zip hzip).1

/-- Narrowing keeps every branch that matches, and fails when there is none. -/
theorem matches_of_narrow {context : ValidationContext} {rounds : Nat} {current : List AnySchema}
    (hunmistaken : Unmistaken context.inputStyle value rounds current) (hmem : element ∈ current)
    (h : Matches rt objects context.inputStyle false value element) :
    ∃ narrowed, narrowByDiscriminators rt context value rounds current = .ok narrowed ∧
      element ∈ narrowed := by
  induction rounds generalizing current with
  | zero => exact ⟨current, rfl, hmem⟩
  | succ rounds ih =>
    rw [narrowByDiscriminators]
    cases hd : findDiscriminator current with
    | none => exact ⟨current, rfl, hmem⟩
    | some d =>
      cases hread : readPath context.inputStyle value d.path with
      | none => exact ⟨current, by simp [hread], hmem⟩
      | some input =>
        obtain ⟨hkeep, hrest⟩ := hunmistaken d input hd hread
        have hleft : element ∈ matching current d.literals input :=
          mem_matching_of_matches hd hread hkeep hmem h
        obtain ⟨narrowed, hnarrowed, hin⟩ := ih hrest hleft
        refine ⟨narrowed, ?_, hin⟩
        cases hmatching : matching current d.literals input with
        | nil => simp [hmatching] at hleft
        | cons first rest => simpa [hread, hmatching] using hmatching ▸ hnarrowed

end Kept

end Ez4.Schema

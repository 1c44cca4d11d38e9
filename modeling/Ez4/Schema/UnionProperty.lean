import Ez4.PgSql.Text
import Ez4.Schema.SameSchema
import Ez4.Schema.Validates

/-! # The property of a union

`getSchemaProperty` (`utils/property.ts`) against what the branches of a union
accept for the property. Literals and other schemas are collected apart, and
where both are found one of the two lists may be left out. -/
namespace Ez4.Schema
open Ez4.Utils Ez4.PgSql

section

variable (deepEqual : AnySchema → AnySchema → Bool)

/-! ## What is collected -/

/-- The compounds and the scalars that the loop of `getSchemaProperty` ends with. -/
def collected (properties : List AnySchema) : List AnySchema × List AnySchema :=
  properties.foldl (collectProperty deepEqual) ([], [])

/-- What is collected of the properties: the literals, and of what is equal one. -/
structure Collected (properties compounds scalars : List AnySchema) : Prop where
  literals : scalars = properties.filter fun property => (literalOf property).isSome
  subset : ∀ compound ∈ compounds, compound ∈ properties
  kept : ∀ property ∈ properties, property ∈ scalars ∨ property ∈ compounds ∨
    ∃ compound ∈ compounds, deepEqual compound property = true

variable {deepEqual} {properties compounds scalars : List AnySchema}

theorem Collected.snoc (h : Collected deepEqual properties compounds scalars)
    (property : AnySchema) : Collected deepEqual (properties ++ [property])
      (collectProperty deepEqual (compounds, scalars) property).1
      (collectProperty deepEqual (compounds, scalars) property).2 := by
  have hsubset : ∀ compound ∈ compounds, compound ∈ properties ++ [property] := fun compound hm =>
    List.mem_append_left _ (h.subset compound hm)
  simp only [collectProperty]
  by_cases hliteral : (literalOf property).isSome = true
  · rw [if_pos hliteral]
    refine ⟨?_, hsubset, fun other hm => ?_⟩
    · rw [List.filter_append, h.literals]
      simp [hliteral]
    · rcases List.mem_append.mp hm with hm | hm
      · exact (h.kept other hm).imp_left (List.mem_append_left _)
      · exact .inl (List.mem_append_right _ hm)
  · rw [if_neg hliteral]
    have hscalars : scalars =
        (properties ++ [property]).filter fun other => (literalOf other).isSome := by
      rw [List.filter_append, h.literals]
      simp [hliteral]
    by_cases hany : (compounds.any fun current => deepEqual current property) = true
    · rw [if_pos hany]
      refine ⟨hscalars, hsubset, fun other hm => ?_⟩
      rcases List.mem_append.mp hm with hm | hm
      · exact h.kept other hm
      · obtain rfl := List.mem_singleton.mp hm
        exact .inr (.inr (List.any_eq_true.mp hany))
    · rw [if_neg hany]
      refine ⟨hscalars, fun compound hm => ?_, fun other hm => ?_⟩
      · rcases List.mem_append.mp hm with hm | hm
        · exact hsubset compound hm
        · exact List.mem_append_right _ hm
      · rcases List.mem_append.mp hm with hm | hm
        · rcases h.kept other hm with hs | hc | ⟨compound, hc, heq⟩
          · exact .inl hs
          · exact .inr (.inl (List.mem_append_left _ hc))
          · exact .inr (.inr ⟨compound, List.mem_append_left _ hc, heq⟩)
        · exact .inr (.inl (List.mem_append_right _ hm))

theorem collected_spec (properties : List AnySchema) :
    Collected deepEqual properties (collected deepEqual properties).1
      (collected deepEqual properties).2 := by
  have hfold : ∀ (rest done : List AnySchema) (found : List AnySchema × List AnySchema),
      Collected deepEqual done found.1 found.2 →
      Collected deepEqual (done ++ rest) (rest.foldl (collectProperty deepEqual) found).1
        (rest.foldl (collectProperty deepEqual) found).2 := by
    intro rest
    induction rest with
    | nil =>
      intro done found h
      rwa [List.append_nil]
    | cons property rest ih =>
      intro done found h
      rw [List.foldl_cons, List.append_cons]
      exact ih _ _ (h.snoc property)
  exact hfold properties [] ([], []) ⟨rfl, fun _ => nofun, fun _ => nofun⟩

/-! ## What the collected properties accept -/

variable (accepts : Value → AnySchema → Prop)

/-- The lists that no property is left out of, by what they accept: at least two
compounds; a literal, with nothing or a wider compound beside it; or several
literals, with nothing beside them that accepts more. -/
def NothingLost (compounds scalars : List AnySchema) : Prop :=
  1 < compounds.length ∨
  (scalars.length ≤ 1 ∧ (compounds = [] ∨ ∀ value, value.isNullish = false →
    ∀ scalar ∈ scalars, accepts value scalar → ∃ compound ∈ compounds, accepts value compound)) ∨
  (1 < scalars.length ∧ ∀ value, value.isNullish = false →
    ((∃ property ∈ scalars ++ compounds, accepts value property) ↔
      ∃ scalar ∈ scalars, (literalOf scalar).map EnumValue.toValue = some value))

variable {rt : Runtime} {objects : References} {style : Option NamingStyle} {cast : Bool}

/-- Equal properties accept the same, so one of them does for the others. -/
theorem Collected.accepts_iff {value : Value} {accepts : Value → AnySchema → Prop}
    (h : Collected deepEqual properties compounds scalars)
    (hequal : ∀ compound ∈ properties, ∀ property ∈ properties,
      deepEqual compound property = true → accepts value property → accepts value compound) :
    (∃ property ∈ properties, accepts value property) ↔
      ∃ property ∈ scalars ++ compounds, accepts value property := by
  constructor
  · intro hex
    obtain ⟨property, hm, ha⟩ := hex
    rcases h.kept property hm with hs | hc | ⟨compound, hc, heq⟩
    · exact ⟨property, List.mem_append_left _ hs, ha⟩
    · exact ⟨property, List.mem_append_right _ hc, ha⟩
    · exact ⟨compound, List.mem_append_right _ hc,
        hequal compound (h.subset compound hc) property hm heq ha⟩
  · intro hex
    obtain ⟨property, hm, ha⟩ := hex
    rcases List.mem_append.mp hm with hs | hc
    · rw [h.literals] at hs
      exact ⟨property, List.mem_of_mem_filter hs, ha⟩
    · exact ⟨property, h.subset property hc, ha⟩

theorem mergeProperties_eq (properties : List AnySchema) :
    mergeProperties deepEqual properties =
      if 1 < (collected deepEqual properties).1.length then
        some (.union {} none ((collected deepEqual properties).2 ++
          (collected deepEqual properties).1))
      else if 1 < (collected deepEqual properties).2.length then
        some (.enum { options := (collected deepEqual properties).2.filterMap literalOf })
      else (collected deepEqual properties).1.head?.or (collected deepEqual properties).2.head? := rfl

/-- An enum of literals, for a value that is there. -/
theorem matches_literals {value : Value} (hvalue : value.isNullish = false) :
    Matches rt objects style cast value (.enum { options := scalars.filterMap literalOf }) ↔
      ∃ scalar ∈ scalars, (literalOf scalar).map EnumValue.toValue = some value := by
  rw [matches_enum_iff]
  constructor
  · intro h
    rcases h with (hnullish | ⟨rfl, -⟩) | ⟨option, hm, rfl⟩
    · cases value <;> cases hvalue <;> cases hnullish
    · cases hvalue
    · obtain ⟨scalar, hscalar, hliteral⟩ := List.mem_filterMap.mp hm
      exact ⟨scalar, hscalar, by rw [hliteral]; rfl⟩
  · intro h
    obtain ⟨scalar, hscalar, hmap⟩ := h
    obtain ⟨option, hliteral, rfl⟩ := Option.map_eq_some_iff.mp hmap
    exact .inr ⟨option, List.mem_filterMap.mpr ⟨scalar, hscalar, hliteral⟩, rfl⟩

theorem matches_elements {value : Value} {elements : List AnySchema}
    (hvalue : value.isNullish = false) :
    Matches rt objects style cast value (.union {} none elements) ↔
      ∃ element ∈ elements, Matches rt objects style cast value element := by
  rw [matches_union_iff]
  refine or_iff_right fun hnullish => ?_
  cases value <;> cases hvalue <;> cases hnullish

/-- **The merged property accepts what the properties accept** if and only if
nothing is lost. -/
theorem mergeProperties_covers (hequal : ∀ value, ∀ compound ∈ properties, ∀ property ∈ properties,
      deepEqual compound property = true → Matches rt objects style cast value property →
        Matches rt objects style cast value compound) :
    (∀ value, value.isNullish = false →
      ((∃ property, mergeProperties deepEqual properties = some property ∧
          Matches rt objects style cast value property) ↔
        ∃ property ∈ properties, Matches rt objects style cast value property)) ↔
      NothingLost (Matches rt objects style cast) (collected deepEqual properties).1
        (collected deepEqual properties).2 := by
  have hspec : Collected deepEqual properties _ _ := collected_spec properties
  rw [mergeProperties_eq]
  simp only [fun value => hspec.accepts_iff (hequal value)]
  clear hspec hequal
  generalize (collected deepEqual properties).1 = compounds
  generalize (collected deepEqual properties).2 = scalars
  unfold NothingLost
  by_cases hc : 1 < compounds.length
  · -- Both lists are in the union.
    refine iff_of_true (fun value hvalue => ?_) (.inl hc)
    rw [if_pos hc]
    simp only [Option.some.injEq, exists_eq_left']
    exact matches_elements hvalue
  · rw [if_neg hc]
    by_cases hs : 1 < scalars.length
    · -- The compound is left out.
      have hle : ¬ scalars.length ≤ 1 := by omega
      rw [if_pos hs]
      simp only [hc, hs, hle, Option.some.injEq, exists_eq_left', false_and, false_or, true_and]
      refine forall₂_congr fun value hvalue => ?_
      rw [matches_literals hvalue]
      exact Iff.comm
    · -- The literal is left out, if there is a compound.
      have hle : scalars.length ≤ 1 := by omega
      rw [if_neg hs]
      simp only [hc, hs, hle, false_and, false_or, or_false, true_and]
      match compounds, hc with
      | [], _ =>
        refine iff_of_true (fun value _ => ?_) (.inl rfl)
        match scalars, hle with
        | [], _ => simp
        | [scalar], _ => simp
        | _ :: _ :: _, hle => exact absurd hle (by simp)
      | [compound], _ =>
        refine Iff.trans (forall₂_congr fun value _ => ?_) (or_iff_right (List.cons_ne_nil _ _)).symm
        constructor
        · intro h scalar hm ha
          obtain ⟨property, hsome, hp⟩ := h.mpr ⟨scalar, List.mem_append_left _ hm, ha⟩
          obtain rfl := Option.some.inj hsome
          exact ⟨_, List.mem_singleton_self _, hp⟩
        · intro h
          refine ⟨fun ⟨property, hsome, hp⟩ => ?_, fun ⟨property, hm, hp⟩ => ?_⟩
          · obtain rfl := Option.some.inj hsome
            exact ⟨_, List.mem_append_right _ (List.mem_singleton_self _), hp⟩
          · rcases List.mem_append.mp hm with hm | hm
            · obtain ⟨other, hother, hp⟩ := h property hm hp
              obtain rfl := List.mem_singleton.mp hother
              exact ⟨_, rfl, hp⟩
            · obtain rfl := List.mem_singleton.mp hm
              exact ⟨_, rfl, hp⟩
      | _ :: _ :: _, hc => exact absurd (by simp) hc

theorem mem_elementProperties {elements : List AnySchema} {name : String} {property : AnySchema} :
    property ∈ elementProperties deepEqual elements name ↔
      ∃ element ∈ elements, getSchemaProperty deepEqual element name = some property := by
  induction elements with
  | nil => simp [elementProperties]
  | cons element rest ih =>
    rw [elementProperties, List.mem_append, Option.mem_toList, ih]
    simp

/-! ## The branches -/

/-- A branch has the property, and what is asked for holds of it. -/
inductive SomeBranch (P : AnySchema → Prop) (name : String) : AnySchema → Prop
  | object {schema : ObjectSchema} {property : AnySchema}
    (hproperty : getObjectSchemaProperty schema name = some property) (h : P property) :
    SomeBranch P name (.object schema)
  | element {flags : Flags} {types : Option (List String)} {elements : List AnySchema}
    {element : AnySchema} (hmem : element ∈ elements) (h : SomeBranch P name element) :
    SomeBranch P name (.union flags types elements)

theorem someBranch_union {P : AnySchema → Prop} {name : String} {flags : Flags}
    {types : Option (List String)} {elements : List AnySchema} :
    SomeBranch P name (.union flags types elements) ↔
      ∃ element ∈ elements, SomeBranch P name element := by
  constructor
  · intro h
    cases h with
    | element hmem h => exact ⟨_, hmem, h⟩
  · intro h
    obtain ⟨element, hmem, h⟩ := h
    exact .element hmem h

/-- A schema, and the elements of its unions at any depth. -/
inductive Branch : AnySchema → AnySchema → Prop
  | refl (schema : AnySchema) : Branch schema schema
  | element {flags : Flags} {types : Option (List String)} {elements : List AnySchema}
    {element branch : AnySchema} (hmem : element ∈ elements) (h : Branch element branch) :
    Branch (.union flags types elements) branch

variable (rt objects style cast deepEqual)

/-- The property of a schema covers the branches: it accepts what one of them
accepts, and there is none only when no branch has it. -/
structure CoversBranches (name : String) (schema : AnySchema) : Prop where
  accepts : ∀ value, value.isNullish = false →
    ((∃ property, getSchemaProperty deepEqual schema name = some property ∧
        Matches rt objects style cast value property) ↔
      SomeBranch (Matches rt objects style cast value) name schema)
  missing : getSchemaProperty deepEqual schema name = none →
    ¬ SomeBranch (fun _ => True) name schema

/-- Nothing is lost of the properties of the elements of a union. -/
def KeepsProperties (name : String) : AnySchema → Prop
  | .union _ _ elements =>
    NothingLost (Matches rt objects style cast)
      (collected deepEqual (elementProperties deepEqual elements name)).1
      (collected deepEqual (elementProperties deepEqual elements name)).2
  | _ => True

variable {rt objects style cast deepEqual} {name : String}

theorem Branch.trans {a b c : AnySchema} (h : Branch a b) (h' : Branch b c) : Branch a c := by
  induction h with
  | refl => exact h'
  | element hmem _ ih => exact .element hmem (ih h')

theorem mergeProperties_eq_none (h : mergeProperties deepEqual properties = none) :
    properties = [] := by
  have hspec : Collected deepEqual properties _ _ := collected_spec properties
  rw [mergeProperties_eq] at h
  split at h
  · cases h
  · split at h
    · cases h
    · rw [Option.or_eq_none_iff, List.head?_eq_none_iff, List.head?_eq_none_iff] at h
      refine List.eq_nil_iff_forall_not_mem.mpr fun property hm => ?_
      rcases hspec.kept property hm with hs | hc | ⟨compound, hc, -⟩
      · simp [h.2] at hs
      · simp [h.1] at hc
      · simp [h.1] at hc

/-- A property is missing only where no branch has it. -/
theorem no_branch_of_missing (schema : AnySchema)
    (h : getSchemaProperty deepEqual schema name = none) :
    ¬ SomeBranch (fun _ => True) name schema := by
  intro hbranch
  induction hbranch with
  | object hproperty => rw [getSchemaProperty, hproperty] at h; cases h
  | @element flags types elements element hmem _ ih =>
    rw [getSchemaProperty] at h
    have hnil := mergeProperties_eq_none h
    refine ih ?_
    cases hp : getSchemaProperty deepEqual element name with
    | none => rfl
    | some property =>
      have hm := mem_elementProperties.mpr ⟨element, hmem, hp⟩
      rw [hnil] at hm
      cases hm

theorem Collected.mem_of_merged (h : Collected deepEqual properties compounds scalars)
    {property : AnySchema} (hm : property ∈ scalars ++ compounds) : property ∈ properties := by
  rcases List.mem_append.mp hm with hs | hc
  · rw [h.literals] at hs
    exact List.mem_of_mem_filter hs
  · exact h.subset property hc

theorem distinct_mergeProperties {property : AnySchema}
    (h : ∀ other ∈ properties, other.DistinctKeys)
    (hmerge : mergeProperties deepEqual properties = some property) : property.DistinctKeys := by
  have hspec : Collected deepEqual properties _ _ := collected_spec properties
  rw [mergeProperties_eq] at hmerge
  split at hmerge
  · obtain rfl := Option.some.inj hmerge
    exact allDistinct_iff.mpr fun other hm => h other (hspec.mem_of_merged hm)
  · split at hmerge
    · obtain rfl := Option.some.inj hmerge
      trivial
    · refine h property (hspec.mem_of_merged ?_)
      rcases Option.or_eq_some_iff.mp hmerge with hhead | ⟨-, hhead⟩
      · exact List.mem_append_right _ (List.mem_of_head? hhead)
      · exact List.mem_append_left _ (List.mem_of_head? hhead)

theorem distinct_getSchemaProperty (schema : AnySchema) (h : schema.DistinctKeys)
    {property : AnySchema} (hp : getSchemaProperty deepEqual schema name = some property) :
    property.DistinctKeys := by
  cases schema with
  | object schema =>
    obtain ⟨flags, identity, definitions, fields, additional⟩ := schema
    obtain ⟨-, hfields, hadditional⟩ := h
    rw [getSchemaProperty, getObjectSchemaProperty] at hp
    rcases Option.or_eq_some_iff.mp hp with hfind | ⟨-, hmap⟩
    · exact hfields.of_mem (mem_of_find hfind)
    · obtain ⟨pair, hpair, rfl⟩ := Option.map_eq_some_iff.mp hmap
      obtain rfl : additional = some pair := hpair
      exact hadditional.2
  | union flags types elements =>
    rw [getSchemaProperty] at hp
    refine distinct_mergeProperties (fun other hm => ?_) hp
    obtain ⟨element, hmem, hother⟩ := mem_elementProperties.mp hm
    have := List.sizeOf_lt_of_mem hmem
    exact distinct_getSchemaProperty element (allDistinct_iff.mp h element hmem) hother
  | _ => simp [getSchemaProperty] at hp
termination_by sizeOf schema

/-- The properties of the elements, for what they cover. -/
theorem elements_accept {value : Value} (hvalue : value.isNullish = false)
    {elements : List AnySchema}
    (h : ∀ element ∈ elements, CoversBranches deepEqual rt objects style cast name element) :
    (∃ property ∈ elementProperties deepEqual elements name,
        Matches rt objects style cast value property) ↔
      ∃ element ∈ elements, SomeBranch (Matches rt objects style cast value) name element := by
  constructor
  · intro hex
    obtain ⟨property, hm, ha⟩ := hex
    obtain ⟨element, hmem, hp⟩ := mem_elementProperties.mp hm
    exact ⟨element, hmem, ((h element hmem).accepts value hvalue).mp ⟨property, hp, ha⟩⟩
  · intro hex
    obtain ⟨element, hmem, hbranch⟩ := hex
    obtain ⟨property, hp, ha⟩ := ((h element hmem).accepts value hvalue).mpr hbranch
    exact ⟨property, mem_elementProperties.mpr ⟨element, hmem, hp⟩, ha⟩

/-- A union whose elements cover their branches. -/
theorem covers_union_iff {flags : Flags} {types : Option (List String)} {elements : List AnySchema}
    (hequal : ∀ p q, deepEqual p q = true → deepEqualObject {} p.toFields q.toFields = true)
    (hdistinct : AllDistinct elements)
    (h : ∀ element ∈ elements, CoversBranches deepEqual rt objects style cast name element) :
    CoversBranches deepEqual rt objects style cast name (.union flags types elements) ↔
      KeepsProperties deepEqual rt objects style cast name (.union flags types elements) := by
  have hdistinct : ∀ property ∈ elementProperties deepEqual elements name,
      property.DistinctKeys := fun property hm => by
    obtain ⟨element, hmem, hp⟩ := mem_elementProperties.mp hm
    exact distinct_getSchemaProperty element (allDistinct_iff.mp hdistinct element hmem) hp
  have hequalAccepts : ∀ value, ∀ compound ∈ elementProperties deepEqual elements name,
      ∀ property ∈ elementProperties deepEqual elements name,
      deepEqual compound property = true → Matches rt objects style cast value property →
        Matches rt objects style cast value compound :=
    fun value compound hc property _ heq hp =>
      hp.of_deepEqual compound (hdistinct compound hc) (hequal compound property heq)
  have hmerge := mergeProperties_covers hequalAccepts
  rw [KeepsProperties, ← hmerge]
  have hsame : ∀ value, value.isNullish = false →
      ((∃ property ∈ elementProperties deepEqual elements name,
          Matches rt objects style cast value property) ↔
        SomeBranch (Matches rt objects style cast value) name (.union flags types elements)) :=
    fun value hvalue => (elements_accept hvalue h).trans someBranch_union.symm
  constructor
  · intro hcovers value hvalue
    rw [hsame value hvalue, ← hcovers.accepts value hvalue, getSchemaProperty]
  · intro hkeeps
    refine ⟨fun value hvalue => ?_, no_branch_of_missing _⟩
    rw [← hsame value hvalue, getSchemaProperty]
    exact hkeeps value hvalue

theorem covers_object (schema : ObjectSchema) :
    CoversBranches deepEqual rt objects style cast name (.object schema) := by
  refine ⟨fun value _ => ⟨fun h => ?_, fun h => ?_⟩, no_branch_of_missing _⟩
  · obtain ⟨property, hp, ha⟩ := h
    rw [getSchemaProperty] at hp
    exact .object hp ha
  · cases h with
    | object hp ha => exact ⟨_, hp, ha⟩

theorem distinct_branch {schema branch : AnySchema} (h : schema.DistinctKeys)
    (hbranch : Branch schema branch) : branch.DistinctKeys := by
  induction hbranch with
  | refl => exact h
  | element hmem _ ih => exact ih (allDistinct_iff.mp h _ hmem)

theorem covers_of_keeps
    (hequal : ∀ p q, deepEqual p q = true → deepEqualObject {} p.toFields q.toFields = true)
    (schema : AnySchema) (hdistinct : schema.DistinctKeys)
    (h : ∀ branch, Branch schema branch →
      KeepsProperties deepEqual rt objects style cast name branch) :
    CoversBranches deepEqual rt objects style cast name schema := by
  cases schema with
  | object schema => exact covers_object schema
  | union flags types elements =>
    refine (covers_union_iff hequal hdistinct fun element hmem => ?_).mpr (h _ (.refl _))
    have := List.sizeOf_lt_of_mem hmem
    exact covers_of_keeps hequal element (allDistinct_iff.mp hdistinct element hmem)
      fun branch hbranch => h branch (.element hmem hbranch)
  | _ =>
    refine ⟨fun value _ => ⟨fun ⟨property, hp, _⟩ => ?_, nofun⟩, no_branch_of_missing _⟩
    simp [getSchemaProperty] at hp
termination_by sizeOf schema

end

namespace Sample

/-- An object with a size. -/
def sized (size : AnySchema) : AnySchema := .object (.mk {} none {} [("size", size)] none)

def auto : AnySchema := .string { value := some "auto" }

def deepEqualSchemas (p q : AnySchema) : Bool := deepEqualObject {} p.toFields q.toFields

def several : AnySchema := .union {} none [sized auto, sized (.number {}), sized (.boolean {})]

end Sample

end Ez4.Schema

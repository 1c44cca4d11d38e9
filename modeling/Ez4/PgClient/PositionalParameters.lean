import Ez4.PgClient.PlaceholderBindings

/-! # Named parameters become positional ones

What a prepared statement is to be, and the texts and names for which
`prepareStatement` makes it so. -/
namespace Ez4.PgClient.Placeholders
open Ez4.Utils

variable {V : Type} {prototype : Prototype V} {options : PrepareStatementOptions}
  {parameters : List (FieldParameter V)}

/-! ## The prepared statement -/

/-- The name of a given parameter. -/
def Given (parameters : List (FieldParameter V)) (name : List Char) : Prop :=
  ∃ parameter ∈ parameters, parameter.name.toList = name

/-- A named parameter: a colon and the name of a given one, outside quotes and casts. -/
def NamedParameter (parameters : List (FieldParameter V)) (query : List Char) (i : Nat)
    (name : List Char) : Prop :=
  Given parameters name ∧ Stands query i name ∧ Outside query i ∧ ¬AfterColon query i

/-- The occurrence binds the elements of the parameter as an array. -/
def BindsArray (options : PrepareStatementOptions) (occurrence : Occurrence)
    (parameter : FieldParameter V) : Prop :=
  parameter.elements.isSome = true ∧ occurrence.arrayCast.isSome = true ∧ options.bindArrays = true

/-- What the occurrence of a parameter is bound to. -/
def Binds (options : PrepareStatementOptions) (occurrence : Occurrence)
    (parameter : FieldParameter V) : Bound V → Prop
  | .elements elements => BindsArray options occurrence parameter ∧ parameter.elements = some elements
  | .value value => ¬BindsArray options occurrence parameter ∧ value = parameter.value

/-- The named parameters of a query, and nothing else of it, became positional ones. -/
structure Positional (parameters : List (FieldParameter V)) (options : PrepareStatementOptions)
    (query : List Char) (prepared : PreparedStatement V) : Prop where
  text : (prepared.pieces.map Piece.fragment).flatMap Fragment.chars = query
  replaced : ∀ i name, (∃ piece occurrence placeholder, PieceAt prepared.pieces i piece ∧
    piece.fragment = .found occurrence ∧ piece.placeholder = some placeholder ∧
      occurrence.fieldName = name) ↔ NamedParameter parameters query i name
  bound : ∀ piece ∈ prepared.pieces, ∀ occurrence placeholder, piece.fragment = .found occurrence →
    piece.placeholder = some placeholder → ∃ n parameter value, placeholder.index = .number n ∧
      1 ≤ n ∧ n ≤ (prepared.values.getD []).length ∧ parameter ∈ parameters ∧
      parameter.name.toList = occurrence.fieldName ∧
      (prepared.values.getD [])[n - 1]? = some value ∧ Binds options occurrence parameter value
  used : ∀ n, 1 ≤ n → n ≤ (prepared.values.getD []).length → ∃ piece ∈ prepared.pieces,
    ∃ placeholder, piece.placeholder = some placeholder ∧ placeholder.index = .number n
  same : options.bindEachOccurrence = false → ∀ a ∈ prepared.pieces, ∀ b ∈ prepared.pieces,
    ∀ p q placeholder other, a.fragment = .found p → b.fragment = .found q →
      a.placeholder = some placeholder → b.placeholder = some other → p.fieldName = q.fieldName →
      (∀ parameter ∈ parameters, parameter.name.toList = p.fieldName →
        (BindsArray options p parameter ↔ BindsArray options q parameter)) →
      placeholder.index = other.index

/-- What the expression takes for a parameter is one, under a key of its own. -/
structure OnlyParameters (prototype : Prototype V) (parameters : List (FieldParameter V))
    (options : PrepareStatementOptions) (query : List Char) : Prop where
  /-- Nothing that is read for a parameter, given or inherited, is anything else. -/
  placed : ∀ i occurrence, At (fragments 0 query) i (.found occurrence) →
    (parameterOf prototype parameters (String.ofList occurrence.fieldName)).isSome = true →
      Given parameters occurrence.fieldName ∧ Outside query i ∧ ¬AfterColon query i
  /-- No index is inherited. -/
  kept : ∀ i occurrence parameter, At (fragments 0 query) i (.found occurrence) →
    parameterOf prototype parameters (String.ofList occurrence.fieldName) = some parameter →
      Kept prototype options (bindingOf options occurrence parameter).1
  /-- The parameters of the query have names that the expression takes. -/
  named : ∀ i name, NamedParameter parameters query i name → IsName name

/-! ## The parameter of a name -/

theorem parameterOf_of_mem (hdistinct : (parameters.map FieldParameter.name).Nodup)
    {parameter : FieldParameter V} (h : parameter ∈ parameters) :
    parameterOf prototype parameters parameter.name = some parameter := by
  have hfind : parameters.reverse.find? (fun other => other.name = parameter.name) = some parameter := by
    cases hfind : parameters.reverse.find? (fun other => other.name = parameter.name) with
    | none =>
      have := List.find?_eq_none.mp hfind parameter (List.mem_reverse.mpr h)
      simp at this
    | some other =>
      have hname : other.name = parameter.name := by simpa using List.find?_some hfind
      have hother := List.mem_reverse.mp (List.mem_of_find?_eq_some hfind)
      rw [List.inj_on_of_nodup_map hdistinct hother h hname]
  rw [parameterOf, hfind]
  rfl

/-- The parameter that is read under the name of a given one. -/
theorem parameterOf_given (prototype : Prototype V)
    (hdistinct : (parameters.map FieldParameter.name).Nodup) {name : List Char} (h : Given parameters name) : ∃ parameter ∈ parameters, parameter.name.toList = name ∧
      parameterOf prototype parameters (String.ofList name) = some parameter := by
  obtain ⟨parameter, hmem, rfl⟩ := h
  refine ⟨parameter, hmem, rfl, ?_⟩
  rw [String.ofList_toList]
  exact parameterOf_of_mem hdistinct hmem

theorem binds_bindingOf (occurrence : Occurrence) (parameter : FieldParameter V) :
    Binds options occurrence parameter (bindingOf options occurrence parameter).2.1 := by
  rcases bindingOf_cases options occurrence parameter with ⟨elements, helements, hcast, harrays, h⟩ | ⟨hnot, h⟩
  · rw [h]
    exact ⟨⟨by rw [helements]; rfl, hcast, harrays⟩, helements⟩
  · rw [h]
    exact ⟨hnot, rfl⟩

/-- The key of an occurrence, by its name and its binding. -/
theorem key_eq {p q : Occurrence} {parameter : FieldParameter V} (hname : p.fieldName = q.fieldName)
    (harray : BindsArray options p parameter ↔ BindsArray options q parameter) :
    (bindingOf options p parameter).1 = (bindingOf options q parameter).1 := by
  rcases bindingOf_cases options p parameter with ⟨a, ha, hcast, harrays, hp⟩ | ⟨hnot, hp⟩ <;>
    rcases bindingOf_cases options q parameter with ⟨b, hb, hcast', harrays', hq⟩ | ⟨hnot', hq⟩ <;>
    rw [hp, hq, hname]
  · exact absurd (harray.mp ⟨by rw [ha]; rfl, hcast, harrays⟩) hnot'
  · exact absurd (harray.mpr ⟨by rw [hb]; rfl, hcast', harrays'⟩) hnot

/-! ## The run -/

theorem Tallied.nil : Tallied prototype options parameters [] {} :=
  ⟨rfl, nofun, nofun, nofun, nofun⟩

theorem Tallied.replaceFragments {pieces : List Piece} {bindings : Bindings V} {found : List Fragment}
    (h : Tallied prototype options parameters pieces bindings)
    (hkept : ∀ occurrence parameter, .found occurrence ∈ found →
      parameterOf prototype parameters (String.ofList occurrence.fieldName) = some parameter →
        IsName occurrence.fieldName ∧ Kept prototype options (bindingOf options occurrence parameter).1) :
    Tallied prototype options parameters
      (pieces ++ (Placeholders.replaceFragments prototype options parameters found bindings).1)
      (Placeholders.replaceFragments prototype options parameters found bindings).2 := by
  induction found generalizing pieces bindings with
  | nil =>
    rw [Placeholders.replaceFragments, List.append_nil]
    exact h
  | cons fragment rest ih =>
    have hfirst := h.replaceFragment fragment fun occurrence parameter hfound =>
      hkept occurrence parameter (hfound ▸ List.mem_cons_self)
    have hrest := ih hfirst fun occurrence parameter hm =>
      hkept occurrence parameter (List.mem_cons_of_mem _ hm)
    rw [List.append_assoc] at hrest
    exact hrest

theorem mem_fragments {text : List Char} {fragment : Fragment} (h : fragment ∈ fragments 0 text) :
    ∃ i, At (fragments 0 text) i fragment := by
  obtain ⟨before, after, heq⟩ := List.append_of_mem h
  exact ⟨_, before, after, heq, rfl⟩

theorem clean_empty : Clean prototype options {} := fun _ _ h => nomatch h

section Prepared

variable {query : String} {i : Nat} {occurrence : Occurrence}

theorem prepareStatement_of_ne (hne : parameters ≠ []) :
    prepareStatement prototype options parameters query =
      { pieces := (replaceFragments prototype options parameters (fragments 0 query.toList) {}).1
        values := some
          (replaceFragments prototype options parameters (fragments 0 query.toList) {}).2.preparedValues } := by
  unfold prepareStatement
  rw [if_neg (by rwa [List.isEmpty_iff])]

theorem map_fragment_prepared : (prepareStatement prototype options parameters query).pieces.map
    Piece.fragment = fragments 0 query.toList := by
  by_cases hne : parameters = []
  · subst hne
    show ((fragments 0 query.toList).map fun fragment => (⟨fragment, none⟩ : Piece)).map Piece.fragment = _
    rw [List.map_map]
    exact List.map_id _
  · rw [prepareStatement_of_ne hne]
    exact map_fragment

/-- An occurrence of what is read for a parameter is replaced. -/
theorem replaced_of_at (hne : parameters ≠ [])
    (hat : At (fragments 0 query.toList) i (.found occurrence)) {parameter : FieldParameter V}
    (hparameter : parameterOf prototype parameters (String.ofList occurrence.fieldName) = some parameter) :
    ∃ piece placeholder, PieceAt (prepareStatement prototype options parameters query).pieces i piece ∧
      piece.fragment = .found occurrence ∧ piece.placeholder = some placeholder ∧
      placeholder.key = (bindingOf options occurrence parameter).1 ∧
      ∀ n, placeholder.index = .number n → Kept prototype options placeholder.key := by
  have hmap : (prepareStatement prototype options parameters query).pieces.map Piece.fragment = _ :=
    map_fragment_prepared
  rw [← hmap] at hat
  obtain ⟨piece, hpiece, hfragment⟩ := pieceAt_of_at hat
  have hmem := hpiece.mem
  rw [prepareStatement_of_ne hne] at hmem
  obtain ⟨before, hclean, hmade⟩ := piece_made clean_empty hmem
  rw [hfragment, replaceFragment_found hparameter] at hmade
  exact ⟨piece, _, hpiece, hfragment, congrArg Piece.placeholder hmade, rfl,
    fun n hn => (clean_bindField hclean).2 n hn⟩

/-- What is replaced is an occurrence of what is read for a parameter. -/
theorem at_of_replaced {piece : Piece} {placeholder : Placeholder}
    (hpiece : PieceAt (prepareStatement prototype options parameters query).pieces i piece)
    (hfound : piece.fragment = .found occurrence) (hsome : piece.placeholder = some placeholder) :
    parameters ≠ [] ∧ At (fragments 0 query.toList) i (.found occurrence) ∧
      (parameterOf prototype parameters (String.ofList occurrence.fieldName)).isSome = true := by
  have hat := hpiece.at
  rw [map_fragment_prepared, hfound] at hat
  by_cases hne : parameters = []
  · subst hne
    obtain ⟨fragment, -, rfl⟩ := List.mem_map.mp hpiece.mem
    cases hsome
  · refine ⟨hne, hat, ?_⟩
    have hmem := hpiece.mem
    rw [prepareStatement_of_ne hne] at hmem
    obtain ⟨before, -, hmade⟩ := piece_made clean_empty hmem
    cases hparameter : parameterOf prototype parameters (String.ofList occurrence.fieldName) with
    | some parameter => rfl
    | none =>
      rw [hfound, replaceFragment_none hparameter] at hmade
      rw [hmade] at hsome
      cases hsome

theorem onlyParameters_of_positional (hne : parameters ≠ [])
    (h : Positional parameters options query.toList (prepareStatement prototype options parameters query)) :
    OnlyParameters prototype parameters options query.toList where
  placed := by
    intro i occurrence hat hparameter
    obtain ⟨parameter, hparameter⟩ := Option.isSome_iff_exists.mp hparameter
    obtain ⟨piece, placeholder, hpiece, hfound, hsome, -⟩ := replaced_of_at hne hat hparameter
    obtain ⟨hgiven, -, houtside, hcolon⟩ :=
      (h.replaced i occurrence.fieldName).mp ⟨piece, occurrence, placeholder, hpiece, hfound, hsome, rfl⟩
    exact ⟨hgiven, houtside, hcolon⟩
  kept := by
    intro i occurrence parameter hat hparameter
    obtain ⟨piece, placeholder, hpiece, hfound, hsome, hkey, hkept⟩ := replaced_of_at hne hat hparameter
    obtain ⟨n, -, -, hnumber, -⟩ := h.bound piece hpiece.mem occurrence placeholder hfound hsome
    exact hkey ▸ hkept n hnumber
  named := by
    intro i name hnamed
    obtain ⟨piece, occurrence, placeholder, hpiece, hfound, hsome, rfl⟩ := (h.replaced i name).mpr hnamed
    exact (stands_of_found (at_of_replaced hpiece hfound hsome).2.1).1

/-- Without parameters the query is as it was. -/
theorem positional_nil : Positional ([] : List (FieldParameter V)) options query.toList
    (prepareStatement prototype options [] query) := by
  have hnone : ∀ {piece placeholder}, piece ∈ (prepareStatement prototype options [] query).pieces →
      piece.placeholder ≠ some placeholder := by
    intro piece placeholder hpiece hsome
    obtain ⟨fragment, -, rfl⟩ := List.mem_map.mp hpiece
    cases hsome
  refine ⟨?_, ?_, ?_, ?_, ?_⟩
  · rw [map_fragment_prepared]
    exact (scans_fragments _).chars
  · intro i name
    constructor
    · intro ⟨piece, _, placeholder, hpiece, _, hsome, _⟩
      exact absurd hsome (hnone hpiece.mem)
    · intro ⟨⟨parameter, hmem, _⟩, _⟩
      cases hmem
  · exact fun piece hpiece _ _ _ hsome => absurd hsome (hnone hpiece)
  · exact fun n hpos hle => absurd (Nat.le_trans hpos hle) (Nat.not_succ_le_zero 0)
  · exact fun _ a ha _ _ _ _ _ _ _ _ hsome => absurd hsome (hnone ha)

theorem positional_of_onlyParameters (hdistinct : (parameters.map FieldParameter.name).Nodup)
    (hne : parameters ≠ []) (h : OnlyParameters prototype parameters options query.toList) :
    Positional parameters options query.toList (prepareStatement prototype options parameters query) := by
  have htally : Tallied prototype options parameters
      (prepareStatement prototype options parameters query).pieces
      (replaceFragments prototype options parameters (fragments 0 query.toList) {}).2 := by
    rw [prepareStatement_of_ne hne]
    refine Tallied.nil.replaceFragments fun occurrence parameter hm hparameter => ?_
    obtain ⟨i, hat⟩ := mem_fragments hm
    exact ⟨(stands_of_found hat).1, h.kept i occurrence parameter hat hparameter⟩
  have hvalues : (prepareStatement prototype options parameters query).values.getD [] =
      (replaceFragments prototype options parameters (fragments 0 query.toList) {}).2.preparedValues := by
    rw [prepareStatement_of_ne hne]
    rfl
  have hgiven : ∀ {piece : Piece} {occurrence : Occurrence} {placeholder : Placeholder},
      piece ∈ (prepareStatement prototype options parameters query).pieces →
      piece.fragment = .found occurrence → piece.placeholder = some placeholder →
      Given parameters occurrence.fieldName := by
    intro piece occurrence placeholder hpiece hfound hsome
    obtain ⟨before, after, heq⟩ := List.append_of_mem hpiece
    obtain ⟨-, hat, hparameter⟩ := at_of_replaced ⟨before, after, heq, rfl⟩ hfound hsome
    exact (h.placed _ occurrence hat hparameter).1
  refine ⟨?_, ?_, ?_, ?_, ?_⟩
  · rw [map_fragment_prepared]
    exact (scans_fragments _).chars
  · intro i name
    constructor
    · intro ⟨piece, occurrence, placeholder, hpiece, hfound, hsome, hname⟩
      subst hname
      obtain ⟨-, hat, hparameter⟩ := at_of_replaced hpiece hfound hsome
      obtain ⟨hgiven, houtside, hcolon⟩ := h.placed i occurrence hat hparameter
      exact ⟨hgiven, (stands_of_found hat).2, houtside, hcolon⟩
    · intro hnamed
      obtain ⟨occurrence, rfl, hat⟩ := found_of_stands (h.named i name hnamed) hnamed.2.1 hnamed.2.2.2
      obtain ⟨parameter, -, -, hparameter⟩ := parameterOf_given prototype hdistinct hnamed.1
      obtain ⟨piece, placeholder, hpiece, hfound, hsome, -⟩ := replaced_of_at hne hat hparameter
      exact ⟨piece, occurrence, placeholder, hpiece, hfound, hsome, rfl⟩
  · intro piece hpiece occurrence placeholder hfound hsome
    rw [hvalues]
    obtain ⟨n, hnumber, -, parameter, hparameter, -, hvalue⟩ :=
      htally.binds piece hpiece occurrence placeholder hfound hsome
    obtain ⟨given, hmem, hname, hgivenParameter⟩ :=
      parameterOf_given prototype hdistinct (hgiven hpiece hfound hsome)
    obtain rfl := Option.some.inj (hparameter.symm.trans hgivenParameter)
    have hlt := (List.getElem?_eq_some_iff.mp hvalue).1
    exact ⟨n + 1, parameter, _, hnumber, by omega, hlt, hmem, hname, hvalue, binds_bindingOf ..⟩
  · intro n hpos hle
    rw [hvalues] at hle
    obtain ⟨piece, hpiece, placeholder, hsome, hindex⟩ := htally.used (n - 1) (by omega)
    exact ⟨piece, hpiece, placeholder, hsome, by rw [hindex, Nat.sub_add_cancel hpos]⟩
  · intro honce a ha b hb p q placeholder other hp hq hsome hother hname harray
    obtain ⟨n, hn, -, parameter, hparameter, hkey, -⟩ := htally.binds a ha p placeholder hp hsome
    obtain ⟨m, hm, -, parameter', hparameter', hkey', -⟩ := htally.binds b hb q other hq hother
    obtain ⟨given, hmem, hgivenName, hgivenParameter⟩ :=
      parameterOf_given prototype hdistinct (hgiven ha hp hsome)
    obtain rfl := Option.some.inj (hparameter.symm.trans hgivenParameter)
    rw [← hname, hparameter] at hparameter'
    obtain rfl := Option.some.inj hparameter'
    have hkeys : placeholder.key = other.key := by
      rw [hkey, hkey', key_eq hname (harray parameter hmem hgivenName)]
    have hfirst := htally.once honce a ha placeholder _ hsome hn
    have hsecond := htally.once honce b hb other _ hother hm
    rw [hkeys, hsecond] at hfirst
    rw [hn, hm, Option.some.inj hfirst]

end Prepared

namespace Sample

def parameter : FieldParameter Value := { name := "0", type := none, value := .str "b", elements := none }

/-- A JSON key with a colon, as the statements write it, beside a parameter. -/
def keyQuery : String := "\"data\"['a:0'] = :0"

theorem isName_zero : IsName ['0'] := ⟨List.cons_ne_nil _ _, by simp [isWord]⟩

theorem given_zero : Given [parameter] ['0'] := ⟨parameter, List.mem_singleton_self _, rfl⟩

theorem distinct_parameter : ([parameter].map FieldParameter.name).Nodup := List.nodup_singleton _

end Sample

end Ez4.PgClient.Placeholders

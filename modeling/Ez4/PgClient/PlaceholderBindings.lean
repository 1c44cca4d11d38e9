import Mathlib.Data.List.Basic
import Ez4.PgClient.PlaceholderPositions

/-! # What placeholders bind

The indexes and the values that a statement is prepared with, and when named
parameters become positional ones without touching anything else. -/
namespace Ez4.PgClient.Placeholders
open Ez4.Utils

variable {V : Type} {prototype : Prototype V} {options : PrepareStatementOptions}
  {parameters : List (FieldParameter V)}

/-! ## One binding -/

/-- A key under which an index is kept as it is assigned. -/
def Kept (prototype : Prototype V) (options : PrepareStatementOptions) (key : String) : Prop :=
  key ≠ "__proto__" ∧ (prototype.index key = none ∨ options.bindEachOccurrence = true)

/-- An index that was assigned is read again, or the next one is assigned. -/
theorem bindField_kept {key : String} (value : Bound V) (bindings : Bindings V)
    (h : Kept prototype options key) :
    (∃ n, options.bindEachOccurrence = false ∧ find bindings.fieldIndexes key = some n ∧
      bindField prototype options key value bindings = (.number n, bindings)) ∨
    (options.bindEachOccurrence = false → find bindings.fieldIndexes key = none) ∧
      bindField prototype options key value bindings = (.number (bindings.totalFields + 1),
        { fieldIndexes := assign bindings.fieldIndexes key (bindings.totalFields + 1)
          totalFields := bindings.totalFields + 1
          preparedValues := bindings.preparedValues ++ [value] }) := by
  obtain ⟨hkey, hinherited⟩ := h
  have hassigned : find (assign bindings.fieldIndexes key (bindings.totalFields + 1)) key =
      some (bindings.totalFields + 1) := by rw [find_assign, if_pos rfl]
  unfold bindField
  cases heach : options.bindEachOccurrence with
  | true =>
    refine .inr ⟨nofun, ?_⟩
    simp only [Bool.or_true, if_true, if_neg hkey, indexOf, hassigned]
  | false =>
    cases hfind : find bindings.fieldIndexes key with
    | some n =>
      left
      refine ⟨n, rfl, rfl, ?_⟩
      simp [indexOf, hfind, Index.isUndefined]
    | none =>
      refine .inr ⟨fun _ => rfl, ?_⟩
      have hnone : prototype.index key = none :=
        hinherited.resolve_right (by rw [heach]; exact Bool.false_ne_true)
      simp [indexOf, hfind, hnone, hkey, hassigned, Index.isUndefined]

/-- Only kept keys are ever assigned. -/
def Clean (prototype : Prototype V) (options : PrepareStatementOptions) (bindings : Bindings V) : Prop :=
  ∀ key n, find bindings.fieldIndexes key = some n → Kept prototype options key

theorem clean_bindField {key : String} {value : Bound V} {bindings : Bindings V}
    (h : Clean prototype options bindings) :
    Clean prototype options (bindField prototype options key value bindings).2 ∧
      ∀ n, (bindField prototype options key value bindings).1 = .number n → Kept prototype options key := by
  have hclean : Clean prototype options (bindField prototype options key value bindings).2 := by
    intro other n hother
    unfold bindField at hother
    simp only at hother
    by_cases hbind : ((indexOf prototype bindings key).isUndefined || options.bindEachOccurrence) = true
    · rw [if_pos hbind] at hother
      by_cases hkey : key = "__proto__"
      · rw [if_pos hkey] at hother
        exact h other n hother
      · rw [if_neg hkey, find_assign] at hother
        split at hother
        · rename_i heq
          refine heq ▸ ⟨hkey, ?_⟩
          by_cases heach : options.bindEachOccurrence = true
          · exact .inr heach
          · left
            rw [Bool.or_eq_true, or_iff_left heach, indexOf] at hbind
            cases hindex : prototype.index key with
            | none => rfl
            | some text =>
              rw [hindex] at hbind
              split at hbind <;> cases hbind
        · exact h other n hother
    · rw [if_neg hbind] at hother
      exact h other n hother
  refine ⟨hclean, fun n hn => ?_⟩
  have hindex : indexOf prototype (bindField prototype options key value bindings).2 key = .number n := hn
  unfold indexOf at hindex
  split at hindex
  · rename_i m hfind
    exact hclean key m hfind
  · split at hindex <;> cases hindex

/-! ## The pieces -/

section Pieces

variable {fragment : Fragment} {found : List Fragment} {bindings : Bindings V} {piece : Piece}
  {occurrence : Occurrence} {placeholder : Placeholder}

theorem replaceFragment_fragment :
    (replaceFragment prototype options parameters fragment bindings).1.fragment = fragment := by
  cases fragment with
  | char c => rfl
  | found occurrence =>
    rw [replaceFragment]
    cases parameterOf prototype parameters (String.ofList occurrence.fieldName) <;> rfl

theorem map_fragment :
    (replaceFragments prototype options parameters found bindings).1.map Piece.fragment = found := by
  induction found generalizing bindings with
  | nil => rfl
  | cons fragment rest ih =>
    rw [replaceFragments, List.map_cons, replaceFragment_fragment, ih]

/-- What an occurrence of a parameter is replaced by. -/
theorem replaceFragment_found {parameter : FieldParameter V}
    (h : parameterOf prototype parameters (String.ofList occurrence.fieldName) = some parameter) :
    replaceFragment prototype options parameters (.found occurrence) bindings =
      ({ fragment := .found occurrence
         placeholder := some
          { key := (bindingOf options occurrence parameter).1
            index := (bindField prototype options (bindingOf options occurrence parameter).1
              (bindingOf options occurrence parameter).2.1 bindings).1
            type := (bindingOf options occurrence parameter).2.2 } },
        (bindField prototype options (bindingOf options occurrence parameter).1
          (bindingOf options occurrence parameter).2.1 bindings).2) := by
  simp only [replaceFragment, h]

theorem replaceFragment_none
    (h : parameterOf prototype parameters (String.ofList occurrence.fieldName) = none) :
    replaceFragment prototype options parameters (.found occurrence) bindings =
      ({ fragment := .found occurrence, placeholder := none }, bindings) := by
  simp only [replaceFragment, h]

theorem clean_replaceFragment (h : Clean prototype options bindings) :
    Clean prototype options (replaceFragment prototype options parameters fragment bindings).2 := by
  cases fragment with
  | char c => exact h
  | found occurrence =>
    cases hparameter : parameterOf prototype parameters (String.ofList occurrence.fieldName) with
    | none => exact replaceFragment_none hparameter ▸ h
    | some parameter => exact replaceFragment_found hparameter ▸ (clean_bindField h).1

/-- Each piece is made of its fragment, with what was assigned before it. -/
theorem piece_made (h : Clean prototype options bindings)
    (hpiece : piece ∈ (replaceFragments prototype options parameters found bindings).1) :
    ∃ before, Clean prototype options before ∧
      piece = (replaceFragment prototype options parameters piece.fragment before).1 := by
  induction found generalizing bindings with
  | nil => cases hpiece
  | cons fragment rest ih =>
    rcases List.mem_cons.mp hpiece with hfirst | hpiece
    · have hfragment : piece.fragment = fragment := hfirst ▸ replaceFragment_fragment
      exact ⟨bindings, h, hfragment ▸ hfirst⟩
    · exact ih (clean_replaceFragment h) hpiece

/-- The piece starts at the place. -/
def PieceAt (pieces : List Piece) (i : Nat) (piece : Piece) : Prop :=
  ∃ before after, pieces = before ++ piece :: after ∧
    ((before.map Piece.fragment).flatMap Fragment.chars).length = i

theorem PieceAt.at {pieces : List Piece} {i : Nat} (h : PieceAt pieces i piece) :
    At (pieces.map Piece.fragment) i piece.fragment := by
  obtain ⟨before, after, rfl, rfl⟩ := h
  exact ⟨before.map Piece.fragment, after.map Piece.fragment, by simp, rfl⟩

theorem PieceAt.mem {pieces : List Piece} {i : Nat} (h : PieceAt pieces i piece) : piece ∈ pieces := by
  obtain ⟨before, after, rfl, -⟩ := h
  exact List.mem_append_right before List.mem_cons_self

theorem pieceAt_of_at {pieces : List Piece} {i : Nat} (h : At (pieces.map Piece.fragment) i fragment) :
    ∃ piece, PieceAt pieces i piece ∧ piece.fragment = fragment := by
  obtain ⟨before, after, hmap, rfl⟩ := h
  obtain ⟨front, back, rfl, rfl, hback⟩ := List.map_eq_append_iff.mp hmap
  obtain ⟨piece, rest, rfl, rfl, -⟩ := List.map_eq_cons_iff.mp hback
  exact ⟨piece, ⟨front, rest, rfl, rfl⟩, rfl⟩

end Pieces

/-! ## What is assigned -/

/-- What an occurrence of the parameter is bound to. -/
theorem bindingOf_cases (options : PrepareStatementOptions) (occurrence : Occurrence) (parameter : FieldParameter V) :
    (∃ elements, parameter.elements = some elements ∧ occurrence.arrayCast.isSome = true ∧
      options.bindArrays = true ∧ bindingOf options occurrence parameter =
        (String.ofList occurrence.fieldName ++ "[]", .elements elements, none)) ∨
    ¬(parameter.elements.isSome = true ∧ occurrence.arrayCast.isSome = true ∧
      options.bindArrays = true) ∧ bindingOf options occurrence parameter =
        (String.ofList occurrence.fieldName, .value parameter.value, parameter.type) := by
  unfold bindingOf
  cases parameter.elements with
  | none => exact .inr ⟨fun h => Bool.false_ne_true h.1, rfl⟩
  | some elements =>
    by_cases harray : occurrence.arrayCast.isSome = true ∧ options.bindArrays = true
    · exact .inl ⟨elements, rfl, harray.1, harray.2, by simp [harray.1, harray.2]⟩
    · refine .inr ⟨fun h => harray h.2, ?_⟩
      rw [← Bool.and_eq_true] at harray
      simp only [if_neg harray]

/-- A key is that of one parameter in one binding. -/
theorem bindingOf_key {a b : Occurrence} {p q : FieldParameter V} (ha : IsName a.fieldName)
    (hb : IsName b.fieldName)
    (hp : parameterOf prototype parameters (String.ofList a.fieldName) = some p)
    (hq : parameterOf prototype parameters (String.ofList b.fieldName) = some q)
    (hkey : (bindingOf options a p).1 = (bindingOf options b q).1) :
    (bindingOf options a p).2.1 = (bindingOf options b q).2.1 := by
  have hno : ∀ {name : List Char} {other : String}, IsName name → String.ofList name ≠ other ++ "[]" := by
    intro name other hname heq
    have hlist := congrArg String.toList heq
    rw [String.toList_ofList, String.toList_append] at hlist
    have hword := hname.2 '[' (hlist ▸ List.mem_append_right _ List.mem_cons_self)
    exact absurd hword (by decide)
  rcases bindingOf_cases options a p with ⟨els, hels, -, -, ha'⟩ | ⟨-, ha'⟩ <;>
    rcases bindingOf_cases options b q with ⟨els', hels', -, -, hb'⟩ | ⟨-, hb'⟩ <;>
    rw [ha', hb'] at hkey ⊢
  · have hsame : String.ofList a.fieldName = String.ofList b.fieldName := by
      have hlist := congrArg String.toList hkey
      simp only [String.toList_append] at hlist
      exact String.toList_inj.mp (List.append_cancel_right hlist)
    rw [hsame, hq] at hp
    obtain rfl := Option.some.inj hp
    rw [hels] at hels'
    exact congrArg Bound.elements (Option.some.inj hels')
  · exact absurd hkey.symm (hno hb)
  · exact absurd hkey (hno ha)
  · rw [show String.ofList a.fieldName = String.ofList b.fieldName from hkey, hq] at hp
    exact congrArg (fun parameter => Bound.value parameter.value) (Option.some.inj hp).symm

/-- What a placeholder of an occurrence is: the number of its binding. -/
structure Bind (prototype : Prototype V) (options : PrepareStatementOptions)
    (parameters : List (FieldParameter V)) (values : List (Bound V)) (occurrence : Occurrence)
    (placeholder : Placeholder) (n : Nat) : Prop where
  number : placeholder.index = .number (n + 1)
  name : IsName occurrence.fieldName
  bound : ∃ parameter, parameterOf prototype parameters (String.ofList occurrence.fieldName) = some parameter ∧
    placeholder.key = (bindingOf options occurrence parameter).1 ∧
    values[n]? = some (bindingOf options occurrence parameter).2.1

/-- The indexes that were assigned are those of the placeholders. -/
structure Tallied (prototype : Prototype V) (options : PrepareStatementOptions)
    (parameters : List (FieldParameter V)) (pieces : List Piece) (bindings : Bindings V) : Prop where
  total : bindings.totalFields = bindings.preparedValues.length
  binds : ∀ piece ∈ pieces, ∀ occurrence placeholder, piece.fragment = .found occurrence →
    piece.placeholder = some placeholder →
    ∃ n, Bind prototype options parameters bindings.preparedValues occurrence placeholder n
  /-- Each value has its placeholder. -/
  used : ∀ n < bindings.preparedValues.length, ∃ piece ∈ pieces, ∃ placeholder,
    piece.placeholder = some placeholder ∧ placeholder.index = .number (n + 1)
  /-- What is assigned to a key is the number of one of its placeholders. -/
  assigned : ∀ key m, find bindings.fieldIndexes key = some m → ∃ piece ∈ pieces,
    ∃ occurrence placeholder, piece.fragment = .found occurrence ∧
      piece.placeholder = some placeholder ∧ placeholder.key = key ∧ placeholder.index = .number m
  /-- Unless each occurrence is bound, a key keeps its number. -/
  once : options.bindEachOccurrence = false → ∀ piece ∈ pieces, ∀ placeholder m,
    piece.placeholder = some placeholder → placeholder.index = .number m →
      find bindings.fieldIndexes placeholder.key = some m

theorem Bind.append {values more : List (Bound V)} {occurrence : Occurrence} {placeholder : Placeholder}
    {n : Nat} (h : Bind prototype options parameters values occurrence placeholder n) :
    Bind prototype options parameters (values ++ more) occurrence placeholder n := by
  obtain ⟨hnumber, hname, parameter, hparameter, hkey, hvalue⟩ := h
  refine ⟨hnumber, hname, parameter, hparameter, hkey, ?_⟩
  rw [List.getElem?_append_left (List.getElem?_eq_some_iff.mp hvalue).1, hvalue]

namespace Tallied

variable {pieces : List Piece} {bindings : Bindings V}

/-- A fragment that is kept. -/
theorem kept {fragment : Fragment} (h : Tallied prototype options parameters pieces bindings) :
    Tallied prototype options parameters (pieces ++ [{ fragment, placeholder := none }]) bindings := by
  have hmem : ∀ {piece placeholder}, piece ∈ pieces ++ [{ fragment, placeholder := none }] →
      piece.placeholder = some placeholder → piece ∈ pieces := by
    intro piece placeholder hpiece hsome
    rcases List.mem_append.mp hpiece with hpiece | hpiece
    · exact hpiece
    · rw [List.mem_singleton.mp hpiece] at hsome
      cases hsome
  refine ⟨h.total, ?_, ?_, ?_, ?_⟩
  · exact fun piece hpiece occurrence placeholder hfound hsome =>
      h.binds piece (hmem hpiece hsome) occurrence placeholder hfound hsome
  · intro n hn
    obtain ⟨piece, hpiece, hrest⟩ := h.used n hn
    exact ⟨piece, List.mem_append_left _ hpiece, hrest⟩
  · intro key m hfind
    obtain ⟨piece, hpiece, hrest⟩ := h.assigned key m hfind
    exact ⟨piece, List.mem_append_left _ hpiece, hrest⟩
  · exact fun honce piece hpiece placeholder m hsome hm =>
      h.once honce piece (hmem hpiece hsome) placeholder m hsome hm

/-- A piece whose placeholder has the number of a binding, new or not. -/
theorem bound {occurrence : Occurrence} {placeholder : Placeholder} {n : Nat} {after : Bindings V}
    (more : List (Bound V)) (h : Tallied prototype options parameters pieces bindings)
    (hbind : Bind prototype options parameters after.preparedValues occurrence placeholder n)
    (htotal : after.totalFields = after.preparedValues.length)
    (hvalues : after.preparedValues = bindings.preparedValues ++ more)
    (hmore : ∀ m, bindings.preparedValues.length ≤ m → m < after.preparedValues.length → m = n)
    (hindexes : ∀ key, find after.fieldIndexes key =
      if key = placeholder.key then some (n + 1) else find bindings.fieldIndexes key)
    (hreuse : options.bindEachOccurrence = false → ∀ m,
      find bindings.fieldIndexes placeholder.key = some m → m = n + 1) :
    Tallied prototype options parameters
      (pieces ++ [{ fragment := .found occurrence, placeholder := some placeholder }]) after := by
  have hlast : { fragment := .found occurrence, placeholder := some placeholder } ∈
      pieces ++ [({ fragment := .found occurrence, placeholder := some placeholder } : Piece)] :=
    List.mem_append_right _ (List.mem_singleton_self _)
  refine ⟨htotal, ?_, ?_, ?_, ?_⟩
  · intro piece hpiece other ph hfound hsome
    rcases List.mem_append.mp hpiece with hpiece | hpiece
    · obtain ⟨m, hm⟩ := h.binds piece hpiece other ph hfound hsome
      exact ⟨m, hvalues ▸ hm.append⟩
    · obtain rfl := List.mem_singleton.mp hpiece
      obtain rfl := Fragment.found.inj hfound
      obtain rfl := Option.some.inj hsome
      exact ⟨n, hbind⟩
  · intro m hm
    by_cases hold : m < bindings.preparedValues.length
    · obtain ⟨piece, hpiece, hrest⟩ := h.used m hold
      exact ⟨piece, List.mem_append_left _ hpiece, hrest⟩
    · exact ⟨_, hlast, placeholder, rfl, hmore m (Nat.le_of_not_lt hold) hm ▸ hbind.number⟩
  · intro key m hfind
    rw [hindexes] at hfind
    split at hfind
    · rename_i hkey
      obtain rfl := Option.some.inj hfind
      exact ⟨_, hlast, occurrence, placeholder, rfl, rfl, hkey.symm, hbind.number⟩
    · obtain ⟨piece, hpiece, hrest⟩ := h.assigned key m hfind
      exact ⟨piece, List.mem_append_left _ hpiece, hrest⟩
  · intro honce piece hpiece ph m hsome hm
    rw [hindexes]
    rcases List.mem_append.mp hpiece with hpiece | hpiece
    · have hold := h.once honce piece hpiece ph m hsome hm
      split
      · rename_i hkey
        rw [hreuse honce m (hkey ▸ hold)]
      · exact hold
    · obtain rfl := List.mem_singleton.mp hpiece
      obtain rfl := Option.some.inj hsome
      rw [if_pos rfl, ← Index.number.inj (hbind.number.symm.trans hm)]

end Tallied

/-- Each fragment that is replaced keeps the tally. -/
theorem Tallied.replaceFragment {pieces : List Piece} {bindings : Bindings V} (fragment : Fragment)
    (h : Tallied prototype options parameters pieces bindings)
    (hkept : ∀ occurrence parameter, fragment = .found occurrence →
      parameterOf prototype parameters (String.ofList occurrence.fieldName) = some parameter →
        IsName occurrence.fieldName ∧ Kept prototype options (bindingOf options occurrence parameter).1) :
    Tallied prototype options parameters
      (pieces ++ [(Placeholders.replaceFragment prototype options parameters fragment bindings).1])
      (Placeholders.replaceFragment prototype options parameters fragment bindings).2 := by
  cases fragment with
  | char c => exact h.kept
  | found occurrence =>
    cases hparameter : parameterOf prototype parameters (String.ofList occurrence.fieldName) with
    | none =>
      rw [replaceFragment_none hparameter]
      exact h.kept
    | some parameter =>
      obtain ⟨hname, hkey⟩ := hkept occurrence parameter rfl hparameter
      rw [replaceFragment_found hparameter]
      rcases bindField_kept (bindingOf options occurrence parameter).2.1 bindings hkey with
        ⟨m, -, hfind, heq⟩ | ⟨hnew, heq⟩
      · -- the number that the key has, with the value that it was assigned for
        obtain ⟨piece, hpiece, other, placeholder, hfound, hsome, hsame, hindex⟩ := h.assigned _ m hfind
        obtain ⟨n, hnumber, hother, parameter', hparameter', hkey', hvalue⟩ :=
          h.binds piece hpiece other placeholder hfound hsome
        obtain rfl := Index.number.inj (hindex.symm.trans hnumber)
        rw [heq]
        refine bound [] h ⟨rfl, hname, parameter, hparameter, rfl, ?_⟩ h.total
          (List.append_nil _).symm (fun i hle hlt => absurd hlt (Nat.not_lt.mpr hle)) ?_ ?_
        · rw [hvalue, bindingOf_key hother hname hparameter' hparameter (hkey'.symm.trans hsame)]
        · intro key
          split
          · rename_i hkey
            rw [hkey, hfind]
          · rfl
        · intro _ m hm
          exact (Option.some.inj (hfind.symm.trans hm)).symm
      · rw [heq]
        refine bound (n := bindings.totalFields) [(bindingOf options occurrence parameter).2.1] h
          ⟨rfl, hname, parameter, hparameter, rfl, ?_⟩ ?_ rfl ?_ ?_ ?_
        · rw [h.total, List.getElem?_concat_length]
        · rw [List.length_append, h.total, List.length_singleton]
        · intro m hle hlt
          rw [List.length_append, List.length_singleton] at hlt
          rw [h.total]
          omega
        · intro key
          rw [find_assign]
          by_cases hkey : key = (bindingOf options occurrence parameter).1
          · rw [if_pos hkey, if_pos hkey.symm]
          · rw [if_neg hkey, if_neg (Ne.symm hkey)]
        · intro honce m hm
          rw [hnew honce] at hm
          cases hm

end Ez4.PgClient.Placeholders

import Mathlib.Data.List.TakeWhile
import Ez4.Migration.Collisions

/-! # Temporary names

Whether `getTemporaryName` ends, and with a name that fits and is not the one
that Postgres stores of the object to be replaced. -/

namespace Ez4.Migration
open Ez4.Library Ez4.Library.Utf16

/-- The code gives the object a name to be built under. -/
def HasTemporaryName (hashData : String → String) (name : String) : Prop :=
  ∃ temporaryName, getTemporaryName hashData name = some temporaryName ∧
    byteLength temporaryName ≤ maxNameSize ∧ temporaryName ≠ getStoredName name

/-- With `_tmp` the name still fits. Else its last part leaves room for the hash and `_tmp`, and
the name as it is stored does not end with all of them. -/
def LeavesRoom (hashData : String → String) (name : String) : Prop :=
  let hash := (hashData name).toList.take 8
  let lastPart := (splitName name.toList).2
  size name.toList + 4 ≤ maxNameSize ∨
    size hash + size lastPart + 5 ≤ maxNameSize ∧
      ¬ (size (cut maxNameSize name.toList) = maxNameSize ∧
        '_' :: hash ++ "_tmp".toList ++ lastPart <:+ cut maxNameSize name.toList)

/-! ## The last part of a name -/

theorem splitName_append (name : List Char) : (splitName name).1 ++ (splitName name).2 = name := by
  rw [splitName, List.splitAt_eq]
  exact List.take_append_drop _ _

/-- No underscore comes after the first character of the last part. -/
theorem not_mem_tail_splitName (name : List Char) : '_' ∉ (splitName name).2.tail := by
  have hlast : ∀ c ∈ name.reverse.takeWhile (· ≠ '_'), c ≠ '_' :=
    fun c hc => by simpa using List.mem_takeWhile_imp hc
  have hname : (name.reverse.dropWhile (· ≠ '_')).reverse ++
      (name.reverse.takeWhile (· ≠ '_')).reverse = name := by
    rw [← List.reverse_append, List.takeWhile_append_dropWhile, List.reverse_reverse]
  rw [splitName, List.splitAt_eq]
  dsimp only
  generalize name.reverse.takeWhile (· ≠ '_') = lastPart at hlast hname ⊢
  generalize name.reverse.dropWhile (· ≠ '_') = before at hname
  subst hname
  have hbefore : before.length ≤
      (before.reverse ++ lastPart.reverse).length - (lastPart.length + 1) + 1 := by
    simp only [List.length_append, List.length_reverse]
    omega
  intro hmem
  rw [List.tail_drop, List.drop_append,
    List.drop_eq_nil_of_le (by simpa using hbefore), List.nil_append] at hmem
  exact hlast '_' (List.mem_reverse.mp (List.mem_of_mem_drop hmem)) rfl

/-! ## The marked name -/

section
variable {hashData : String → String} {name : String} {before lastPart : List Char}

theorem byteLength_units_eq (text : List Char) : byteLength (units text) = size text := by
  simpa [byteLength] using byteLength_units text []

/-- The bytes of a text that is cut and of what follows. -/
theorem byteLength_shortened (limit : Nat) (text : List Char) (marker : List Char) :
    byteLength (units (cut limit text) ++ (half limit text).toList ++ units ('_' :: marker)) ≤
      limit + size ('_' :: marker) := by
  rw [List.append_assoc, byteLength_units]
  cases hhalf : half limit text with
  | none =>
    have hcut := size_cut_le limit text
    change size (cut limit text) + byteLength (units ('_' :: marker)) ≤ _
    rw [byteLength_units_eq]
    omega
  | some unit =>
    obtain ⟨c, rfl⟩ := exists_of_half_eq hhalf
    have hcut := size_cut_of_half hhalf
    have hbytes : byteLength (highSurrogate c :: units ('_' :: marker)) =
        3 + byteLength (units ('_' :: marker)) := by
      have hlow : isLow '_'.toNat = false := by decide
      change byteLength (highSurrogate c :: '_'.toNat :: units marker) = _
      rw [byteLength, hlow, Bool.and_false, ← byteLength_highSurrogate c]
      rfl
    change size (cut limit text) + byteLength (highSurrogate c :: units ('_' :: marker)) ≤ _
    rw [hbytes, byteLength_units_eq]
    omega

/-- What is read of a text that is cut and of what follows. -/
theorem read_shortened (limit : Nat) (text marker : List Char) :
    read (units (cut limit text) ++ (half limit text).toList ++ units ('_' :: marker)) =
      (cut limit text).map .inl ++ ((half limit text).toList.map .inr ++ ('_' :: marker).map .inl) := by
  have hmarker : read (units ('_' :: marker)) = ('_' :: marker).map .inl := by
    have hread := read_units ('_' :: marker) []
    rwa [List.append_nil, Utf16.read, List.append_nil] at hread
  rw [List.append_assoc, read_units]
  refine congrArg (_ ++ ·) ?_
  cases hhalf : half limit text with
  | none => exact hmarker
  | some unit =>
    obtain ⟨c, rfl⟩ := exists_of_half_eq hhalf
    refine (read_highSurrogate c (by decide) (units marker)).trans ?_
    exact congrArg (_ :: ·) hmarker

/-- The whole characters of a shortened name that is stored. -/
theorem cut_append_of_shortened_eq {limit : Nat} {text other marker : List Char}
    (h : units (cut limit text) ++ (half limit text).toList ++ units ('_' :: marker) =
      units (cut maxNameSize other) ++ (half maxNameSize other).toList) :
    cut limit text ++ '_' :: marker = cut maxNameSize other := by
  have hread := congrArg read h
  rw [read_shortened, read_clip] at hread
  simpa [List.filterMap_append, List.filterMap_map, Function.comp_def] using
    congrArg (List.filterMap Sum.getLeft?) hread

/-- A start of a name that a marker follows ends in the part before the last one. -/
theorem isPrefix_of_marker {start marker : List Char} (hlast : '_' ∉ lastPart.tail)
    (h : start ++ '_' :: marker <+: before ++ lastPart) : start <+: before := by
  have hstart : start <+: before ++ lastPart := (List.prefix_append _ _).trans h
  rcases List.prefix_or_prefix_of_prefix hstart (List.prefix_append before lastPart) with
    hprefix | ⟨more, rfl⟩
  · exact hprefix
  · cases more with
    | nil => simp
    | cons c more =>
      rw [List.append_assoc, List.prefix_append_right_inj] at h
      obtain ⟨rest, rfl⟩ := h
      exact absurd (by simp) hlast

/-- **A shortened name is the stored one when that ends with the same marker, at the limit.** -/
theorem shortened_eq_stored_iff {marker : List Char} (hlast : '_' ∉ lastPart.tail)
    (hlonger : lastPart.length ≤ marker.length) (hfits : size ('_' :: marker) ≤ maxNameSize) :
    clip (maxNameSize - size ('_' :: marker)) (units before).length (units before) ++
        units ('_' :: marker) =
      clip maxNameSize (units (before ++ lastPart)).length (units (before ++ lastPart)) ↔
    size (cut maxNameSize (before ++ lastPart)) = maxNameSize ∧
      '_' :: marker <:+ cut maxNameSize (before ++ lastPart) := by
  generalize hlimit : maxNameSize - size ('_' :: marker) = limit
  rw [clip_units, clip_units]
  have hstored := cut_isPrefix maxNameSize (before ++ lastPart)
  constructor
  · intro hsame
    have hcut := cut_append_of_shortened_eq hsame
    have hsize : size (cut limit before) = limit := by
      refine Nat.le_antisymm (size_cut_le _ _) ?_
      rw [← hcut] at hstored
      rcases cut_eq_or_lt limit before with hall | ⟨c, rest, hbefore, hlong⟩
      · rw [hall, List.prefix_append_right_inj] at hstored
        have hlength := hstored.length_le
        rw [List.length_cons] at hlength
        omega
      · generalize cut limit before = start at hstored hbefore hlong ⊢
        rw [hbefore, List.append_assoc, List.prefix_append_right_inj] at hstored
        obtain rfl : '_' = c := (List.cons_prefix_cons.mp hstored).1
        have hone : '_'.utf8Size = 1 := by decide
        omega
    refine ⟨?_, cut limit before, hcut⟩
    rw [← hcut, size_append, hsize]
    omega
  · rintro ⟨hsize, start, hstart⟩
    have hhalf : half maxNameSize (before ++ lastPart) = none := half_eq_none (by omega)
    rw [← hstart] at hstored hsize ⊢
    obtain ⟨more, rfl⟩ := isPrefix_of_marker hlast hstored
    rw [size_append] at hsize
    obtain rfl : size start = limit := by omega
    obtain ⟨hcut, hnone⟩ := cut_append_of_size start more
    rw [hcut, hnone, hhalf, units_append]
    simp

end

/-! ## Whether a name has a temporary one -/

section
variable {before lastPart : List Char}

theorem size_marked (before lastPart : List Char) :
    size (before ++ "_tmp".toList ++ lastPart) = size (before ++ lastPart) + 4 := by
  have htmp : size "_tmp".toList = 4 := by decide
  rw [size_append, size_append, size_append, htmp]
  omega

theorem size_temporaryMarker (hashData : String → String) (name : String) (lastPart : List Char) :
    size (temporaryMarker hashData name lastPart) =
      size ((hashData name).toList.take 8) + size lastPart + 5 := by
  have htmp : size "_tmp".toList = 4 := by decide
  have hone : '_'.utf8Size = 1 := by decide
  rw [temporaryMarker, size_append, size_append, size_cons, htmp, hone]
  omega

/-- Without room for its marker, a long name is cut in a loop that never ends. -/
theorem getTemporaryName_eq_none (hashData : String → String) {name : String}
    (hlong : maxNameSize < size name.toList + 4)
    (hroom : maxNameSize <
      size ((hashData name).toList.take 8) + size (splitName name.toList).2 + 5) :
    getTemporaryName hashData name = none := by
  unfold getTemporaryName clipName
  dsimp only
  rw [byteLength_units_eq, byteLength_units_eq, size_marked, splitName_append, size_temporaryMarker,
    if_neg (by omega), if_pos (by omega)]
  rfl

theorem temporaryMarker_eq_cons (hashData : String → String) (name : String) (lastPart : List Char) :
    ∃ rest, temporaryMarker hashData name lastPart = '_' :: rest ∧
      lastPart.length ≤ rest.length := by
  refine ⟨(hashData name).toList.take 8 ++ "_tmp".toList ++ lastPart, rfl, ?_⟩
  rw [List.length_append]
  exact Nat.le_add_left _ _

/-- With room for its marker, a long name is cut to what is left. -/
theorem getTemporaryName_eq_some (hashData : String → String) {name : String} {marker : List Char}
    (hlong : maxNameSize < size name.toList + 4)
    (hmarker : temporaryMarker hashData name (splitName name.toList).2 = marker)
    (hfits : size marker ≤ maxNameSize) :
    getTemporaryName hashData name =
      some (clip (maxNameSize - size marker) (units (splitName name.toList).1).length
        (units (splitName name.toList).1) ++ units marker) := by
  have hlimit : ((maxNameSize : Int) - (size marker : Int)).toNat = maxNameSize - size marker := by
    omega
  unfold getTemporaryName clipName
  dsimp only
  rw [hmarker, byteLength_units_eq, byteLength_units_eq, size_marked, splitName_append,
    if_neg (by omega), if_neg (by omega), hlimit, Option.map_some]

theorem getTemporaryName_of_short (hashData : String → String) {name : String}
    (hshort : size name.toList + 4 ≤ maxNameSize) :
    getTemporaryName hashData name =
      some (units ((splitName name.toList).1 ++ "_tmp".toList ++ (splitName name.toList).2)) := by
  unfold getTemporaryName
  dsimp only
  rw [byteLength_units_eq, size_marked, splitName_append, if_pos hshort]

/-- A temporary name that there is fits. -/
theorem byteLength_getTemporaryName_le {hashData : String → String} {name : String}
    {temporaryName : List Nat} (h : getTemporaryName hashData name = some temporaryName) :
    byteLength temporaryName ≤ maxNameSize := by
  by_cases hshort : size name.toList + 4 ≤ maxNameSize
  · rw [getTemporaryName_of_short hashData hshort] at h
    rw [← Option.some.inj h, byteLength_units_eq, size_marked, splitName_append]
    exact hshort
  · obtain ⟨rest, hmarker, -⟩ := temporaryMarker_eq_cons hashData name (splitName name.toList).2
    by_cases hfits : size ('_' :: rest) ≤ maxNameSize
    · have hbytes := byteLength_shortened (maxNameSize - size ('_' :: rest))
        (splitName name.toList).1 rest
      rw [getTemporaryName_eq_some hashData (by omega) hmarker hfits] at h
      rw [← Option.some.inj h, clip_units]
      omega
    · rw [← hmarker, size_temporaryMarker] at hfits
      rw [getTemporaryName_eq_none hashData (by omega) (by omega)] at h
      cases h

/-- **A temporary name exists, fits and is new exactly where the name leaves room for it.** -/
theorem hasTemporaryName_iff (hashData : String → String) (name : String) :
    HasTemporaryName hashData name ↔ LeavesRoom hashData name := by
  have hfitting : HasTemporaryName hashData name ↔ ∃ temporaryName,
      getTemporaryName hashData name = some temporaryName ∧ temporaryName ≠ getStoredName name :=
    exists_congr fun _ => ⟨fun h => ⟨h.1, h.2.2⟩,
      fun h => ⟨h.1, byteLength_getTemporaryName_le h.1, h.2⟩⟩
  rw [hfitting]
  unfold LeavesRoom
  dsimp only
  by_cases hshort : size name.toList + 4 ≤ maxNameSize
  · refine iff_of_true ⟨_, getTemporaryName_of_short hashData hshort, fun hsame => ?_⟩ (.inl hshort)
    have hcut : cut maxNameSize name.toList = name.toList := cut_of_size_le (by omega)
    have hhalf : half maxNameSize name.toList = none := half_eq_none (by rw [hcut]; omega)
    have hbytes := congrArg byteLength hsame
    rw [getStoredName, clip_units, hcut, hhalf, Option.toList_none, List.append_nil,
      byteLength_units_eq, byteLength_units_eq, size_marked, splitName_append] at hbytes
    omega
  · rw [or_iff_right hshort, ← size_temporaryMarker]
    obtain ⟨rest, hmarker, hlonger⟩ :=
      temporaryMarker_eq_cons hashData name (splitName name.toList).2
    have hcons : '_' :: (hashData name).toList.take 8 ++ "_tmp".toList ++
        (splitName name.toList).2 = '_' :: rest := hmarker
    rw [hmarker, hcons]
    by_cases hfits : size ('_' :: rest) ≤ maxNameSize
    · have hsame : _ = getStoredName name ↔ _ := splitName_append name.toList ▸
        shortened_eq_stored_iff (not_mem_tail_splitName name.toList) hlonger hfits
      rw [and_iff_right hfits, getTemporaryName_eq_some hashData (by omega) hmarker hfits, ← hsame]
      exact ⟨fun ⟨_, hsome, hne⟩ => Option.some.inj hsome ▸ hne, fun hne => ⟨_, rfl, hne⟩⟩
    · have hroom := hfits
      rw [← hmarker, size_temporaryMarker] at hroom
      rw [getTemporaryName_eq_none hashData (by omega) (by omega)]
      exact iff_of_false (fun ⟨_, hsome, _⟩ => nomatch hsome) fun h => hfits h.1

end

/-- An index declared under a long name without an underscore. -/
def deliveredRepository : TableRepository :=
  ordersWith ["id"] [{
    name := "id"
    columns := ["id"]
    type := .secondary
    options := some {
      name := some "ordersByTheCustomerWhoOrderedThemAndTheTimeTheyWereDeliveredAt" } }]

/-- No text fits in the room that is left, so the loop of `clipName` never ends. -/
theorem deliveredRepository_hangs : validateRepository deliveredRepository = .ok () ∧
    ∃ x ∈ indexObjects deliveredRepository, ∀ hashData, getTemporaryName hashData x.name = none ∧
      ¬ HasTemporaryName hashData x.name := by
  refine ⟨by decide +kernel, ⟨.index "orders" "id",
    "ordersByTheCustomerWhoOrderedThemAndTheTimeTheyWereDeliveredAt"⟩, by decide +kernel,
    fun hashData => ?_⟩
  have hnone : getTemporaryName hashData
      "ordersByTheCustomerWhoOrderedThemAndTheTimeTheyWereDeliveredAt" = none := by
    refine getTemporaryName_eq_none hashData (by decide +kernel) ?_
    have hlast : size (splitName
        "ordersByTheCustomerWhoOrderedThemAndTheTimeTheyWereDeliveredAt".toList).2 = 62 := by
      decide +kernel
    rw [hlast, maxNameSize]
    omega
  exact ⟨hnone, fun ⟨_, htemporary, _⟩ => by rw [hnone] at htemporary; cases htemporary⟩

end Ez4.Migration

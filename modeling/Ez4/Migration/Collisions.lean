import Ez4.Migration.Validation

/-! # Names that collide

An accepted repository has no two different names that are stored alike. It
may still have two objects of one name, since the names of a set are counted
once, and an object under the temporary name of another one. -/

namespace Ez4.Migration
open Ez4.Library Ez4.Utils Ez4.Library.Utf16

/-! ## Objects -/

/-- What the migration names: an index by its table and key, a foreign key by its table and
alias, a value check by its table and column. -/
inductive ObjectId
  | index (table key : String)
  | relation (table targetAlias : String)
  | check (table column : String)
deriving DecidableEq

structure DatabaseObject where
  id : ObjectId
  name : String
deriving DecidableEq

def indexObjects (target : TableRepository) : List DatabaseObject :=
  target.values.flatMap fun (table, t) =>
    t.indexes.values.map fun (key, index) => ⟨.index table key, getIndexName t.name index⟩

/-- The constraints of a table: the primary key, the foreign keys and the value checks. -/
def tableConstraints (table : String) (t : TableMetadata) : List DatabaseObject :=
  ((t.indexes.values.filter fun (_, index) => decide (index.type = .primary)).map fun (key, index) =>
      ⟨.index table key, getIndexName t.name index⟩) ++
    ((t.relations.values.filter fun (_, relation) => hasForeignKey relation).map
      fun (targetAlias, _) => ⟨.relation table targetAlias, getRelationName t.name targetAlias⟩) ++
    (t.columns.values.filter fun (_, schema) => isConstrainedSchema schema).map
      fun (columnName, _) => ⟨.check table columnName, getConstraintName t.name columnName⟩

def constraintObjects (target : TableRepository) : List DatabaseObject :=
  target.values.flatMap fun (table, t) => tableConstraints table t

/-- The characters of a name that Postgres stores: the whole ones within its limit. -/
def storedAs (name : List Nat) : List Char := cut maxNameSize (decode name)

/-- No two objects have one stored name, and none has the temporary name of another one. -/
structure NamesApart (hashData : String → String) (objects : List DatabaseObject) : Prop where
  stored : ∀ x ∈ objects, ∀ y ∈ objects, x.id ≠ y.id →
    storedAs (units x.name.toList) ≠ storedAs (units y.name.toList)
  temporary : ∀ x ∈ objects, ∀ y ∈ objects, x.id ≠ y.id → ∀ temporaryName,
    getTemporaryName hashData x.name = some temporaryName →
      storedAs temporaryName ≠ storedAs (units y.name.toList)

/-! ## When two names are stored alike -/

/-- Names that agree up to a character of four bytes which the limit cuts in two: the code
keeps its high surrogate and Postgres nothing of it. -/
def SplitsApart (name other : String) : Prop :=
  size (cut 60 name.toList) = 60 ∧ cut 60 name.toList = cut 60 other.toList ∧
    WideUnfit 60 name.toList ∧ WideUnfit 60 other.toList ∧
    (unfit 60 name.toList).map highSurrogate ≠ (unfit 60 other.toList).map highSurrogate

/-- A text that is cut, as it is encoded. -/
def shortened (limit : Nat) (text : List Char) : List Char :=
  cut limit text ++ ((half limit text).map fun _ => replacement).toList

/-- `other`, within the limit, is `name` with `_tmp` before its last part. Where this is too
long, it is the start of `name`, a part with the hash, `_tmp` and the last part. -/
def IsBuiltUnder (hashData : String → String) (name other : String) : Prop :=
  let beforeLast := (splitName name.toList).1
  let suffix := (splitName name.toList).2
  let marked := beforeLast ++ "_tmp".toList ++ suffix
  let marker := temporaryMarker hashData name suffix
  if size marked ≤ maxNameSize then cut maxNameSize other.toList = marked
  else size marker ≤ maxNameSize ∧
    cut maxNameSize other.toList = shortened (maxNameSize - size marker) beforeLast ++ marker

/-- What keeps the names of different objects apart. -/
def NamesDiffer (hashData : String → String) (objects : List DatabaseObject) : Prop :=
  ∀ x ∈ objects, ∀ y ∈ objects, x.id ≠ y.id →
    x.name ≠ y.name ∧ ¬ SplitsApart x.name y.name ∧ ¬ IsBuiltUnder hashData x.name y.name

/-! ## The names that are compared -/

/-- The names gone through are in groups with one stored name each. -/
structure IsGrouped (names : List String) (groups : List (List Nat × List String)) : Prop where
  nodup : (groups.map Prod.fst).Nodup
  found : ∀ name ∈ names, ∃ group ∈ groups, group.1 = getStoredName name ∧ name ∈ group.2

theorem mem_addName {storedName : List Nat} {name : String} {groups : List (List Nat × List String)}
    {stored : List Nat} : stored ∈ (addName storedName name groups).map Prod.fst ↔
      stored = storedName ∨ stored ∈ groups.map Prod.fst := by
  induction groups with
  | nil => simp [addName]
  | cons group rest ih =>
    rw [addName]
    split
    · rename_i hsame
      simp [hsame]
    · rw [List.map_cons, List.mem_cons, ih, List.map_cons, List.mem_cons]
      exact or_left_comm

theorem nodup_addName {storedName : List Nat} {name : String}
    {groups : List (List Nat × List String)} (h : (groups.map Prod.fst).Nodup) :
    ((addName storedName name groups).map Prod.fst).Nodup := by
  induction groups with
  | nil => simp [addName]
  | cons group rest ih =>
    obtain ⟨hnotin, hrest⟩ := List.nodup_cons.mp h
    rw [addName]
    split
    · exact h
    · rename_i hne
      refine List.nodup_cons.mpr ⟨fun hmem => ?_, ih hrest⟩
      exact (mem_addName.mp hmem).elim hne hnotin

/-- A name that is added is in the group of its stored name, and the others stay in theirs. -/
theorem found_addName {storedName : List Nat} {name : String}
    (groups : List (List Nat × List String)) :
    (∃ group ∈ addName storedName name groups, group.1 = storedName ∧ name ∈ group.2) ∧
      ∀ old ∈ groups, ∃ group ∈ addName storedName name groups,
        group.1 = old.1 ∧ old.2 ⊆ group.2 := by
  induction groups with
  | nil => exact ⟨⟨_, List.mem_singleton_self _, rfl, List.mem_singleton_self _⟩, by simp⟩
  | cons first rest ih =>
    rw [addName]
    split
    · rename_i hsame
      refine ⟨⟨_, List.mem_cons_self, hsame, ?_⟩, fun old hold => ?_⟩
      · split
        · assumption
        · exact List.mem_append_right _ (List.mem_singleton_self _)
      · rcases List.mem_cons.mp hold with rfl | hold
        · refine ⟨_, List.mem_cons_self, rfl, ?_⟩
          split
          · exact List.Subset.refl _
          · exact List.subset_append_left _ _
        · exact ⟨old, List.mem_cons_of_mem _ hold, rfl, List.Subset.refl _⟩
    · obtain ⟨⟨group, hgroup, hfound⟩, hkeeps⟩ := ih
      refine ⟨⟨group, List.mem_cons_of_mem _ hgroup, hfound⟩, fun old hold => ?_⟩
      rcases List.mem_cons.mp hold with rfl | hold
      · exact ⟨_, List.mem_cons_self, rfl, List.Subset.refl _⟩
      · obtain ⟨group, hgroup, hkept⟩ := hkeeps old hold
        exact ⟨group, List.mem_cons_of_mem _ hgroup, hkept⟩

theorem isGrouped_namesByStoredName (names : List String) :
    IsGrouped names (namesByStoredName names) := by
  induction names using List.reverseRecOn with
  | nil => exact ⟨List.nodup_nil, by simp⟩
  | append_singleton names name ih =>
    have hadd : namesByStoredName (names ++ [name]) =
        addName (getStoredName name) name (namesByStoredName names) := by
      rw [namesByStoredName, List.foldl_append]
      rfl
    obtain ⟨hself, hkeeps⟩ := @found_addName (getStoredName name) name (namesByStoredName names)
    rw [hadd]
    refine ⟨nodup_addName ih.nodup, fun other hother => ?_⟩
    rcases List.mem_append.mp hother with hother | hother
    · obtain ⟨old, hold, hstored, hin⟩ := ih.found other hother
      obtain ⟨group, hgroup, hsame, hsub⟩ := hkeeps old hold
      exact ⟨group, hgroup, hsame.trans hstored, hsub hin⟩
    · rw [List.mem_singleton.mp hother]
      exact hself

/-- Without collisions, names that are stored alike are one name. -/
theorem eq_of_getCollisions {names : List String} (h : getCollisions names = []) {name other : String}
    (hname : name ∈ names) (hother : other ∈ names)
    (hsame : getStoredName name = getStoredName other) : name = other := by
  obtain ⟨hnodup, hfound⟩ := isGrouped_namesByStoredName names
  obtain ⟨group, hgroup, hstored, hin⟩ := hfound name hname
  obtain ⟨group', hgroup', hstored', hin'⟩ := hfound other hother
  obtain rfl : group = group' :=
    List.inj_on_of_nodup_map hnodup hgroup hgroup' (by rw [hstored, hstored', hsame])
  have hone : group.2.length ≤ 1 := by
    by_contra hmore
    have hcollides : name ∈ getCollisions names :=
      List.mem_flatMap.mpr ⟨group, List.mem_filter.mpr ⟨hgroup, by simpa using hmore⟩, hin⟩
    rw [h] at hcollides
    cases hcollides
  have hsome := List.length_pos_of_mem hin
  obtain ⟨only, honly⟩ := List.length_eq_one_iff.mp (show group.2.length = 1 by omega)
  rw [honly, List.mem_singleton] at hin hin'
  rw [hin, hin']

theorem name_mem_indexNames {target : TableRepository} {x : DatabaseObject}
    (h : x ∈ indexObjects target) :
    x.name ∈ target.values.flatMap fun (_, t) => indexNames t.name t.indexes := by
  obtain ⟨⟨table, t⟩, ht, h⟩ := List.mem_flatMap.mp h
  obtain ⟨⟨key, index⟩, hindex, rfl⟩ := List.mem_map.mp h
  exact List.mem_flatMap.mpr ⟨(table, t), ht, List.mem_map.mpr ⟨(key, index), hindex, rfl⟩⟩

theorem name_mem_constraintNames {target : TableRepository} {x : DatabaseObject}
    (h : x ∈ constraintObjects target) : x.name ∈ target.values.flatMap fun (_, t) =>
      primaryNames t.name t.indexes ++ relationNames t.name t.relations ++
        checkNames t.name t.columns := by
  obtain ⟨⟨table, t⟩, ht, h⟩ := List.mem_flatMap.mp h
  refine List.mem_flatMap.mpr ⟨(table, t), ht, ?_⟩
  rcases List.mem_append.mp h with h | h
  · refine List.mem_append_left _ ?_
    rcases List.mem_append.mp h with h | h
    · obtain ⟨⟨key, index⟩, hindex, rfl⟩ := List.mem_map.mp h
      exact List.mem_append_left _ (List.mem_map.mpr ⟨(key, index), hindex, rfl⟩)
    · obtain ⟨⟨targetAlias, relation⟩, hrelation, rfl⟩ := List.mem_map.mp h
      exact List.mem_append_right _ (List.mem_map.mpr ⟨(targetAlias, relation), hrelation, rfl⟩)
  · obtain ⟨⟨columnName, schema⟩, hschema, rfl⟩ := List.mem_map.mp h
    exact List.mem_append_right _ (List.mem_map.mpr ⟨(columnName, schema), hschema, rfl⟩)

/-- What an accepted repository keeps apart: the different names. -/
theorem eq_of_validateNames {target : TableRepository} (h : validateNames target = .ok ()) :
    (∀ x ∈ indexObjects target, ∀ y ∈ indexObjects target,
      getStoredName x.name = getStoredName y.name → x.name = y.name) ∧
    ∀ x ∈ constraintObjects target, ∀ y ∈ constraintObjects target,
      getStoredName x.name = getStoredName y.name → x.name = y.name := by
  unfold validateNames at h
  dsimp only at h
  split at h
  · rename_i hnone
    obtain ⟨hindexes, hconstraints⟩ := List.append_eq_nil_iff.mp (List.isEmpty_iff.mp hnone)
    exact ⟨fun x hx y hy => eq_of_getCollisions hindexes (name_mem_indexNames hx)
        (name_mem_indexNames hy),
      fun x hx y hy => eq_of_getCollisions hconstraints (name_mem_constraintNames hx)
        (name_mem_constraintNames hy)⟩
  · cases h

/-! ## Stored names -/

theorem storedAs_units (name : List Char) : storedAs (units name) = cut maxNameSize name := by
  rw [storedAs, decode_units]

/-- Different names that the code stores apart and Postgres doesn't. -/
theorem splitsApart_of_storedAs {name other : String}
    (hcode : getStoredName name ≠ getStoredName other)
    (hsame : storedAs (units name.toList) = storedAs (units other.toList)) :
    SplitsApart name other := by
  rw [storedAs_units, storedAs_units] at hsame
  refine cut_eq_and_half_ne_iff.mp ⟨hsame, fun hhalf => hcode ?_⟩
  exact clip_units_inj.mpr ⟨hsame, hhalf⟩

theorem storedAs_of_splitsApart {name other : String} (h : SplitsApart name other) :
    storedAs (units name.toList) = storedAs (units other.toList) := by
  rw [storedAs_units, storedAs_units]
  exact (cut_eq_and_half_ne_iff.mpr h).1

/-! ## Temporary names -/

theorem size_shortened_le {limit : Nat} (text : List Char) : size (shortened limit text) ≤ limit := by
  rw [shortened, size_append]
  cases hhalf : half limit text with
  | none => exact size_cut_le limit text
  | some unit => exact Nat.le_of_eq (size_cut_of_half hhalf)

/-- What a shortened name with its marker is, as it is encoded. -/
theorem decode_shortened (limit : Nat) (text marker : List Char) :
    decode (units (cut limit text) ++ (half limit text).toList ++ units ('_' :: marker)) =
      shortened limit text ++ '_' :: marker := by
  have hmarker : decode (units ('_' :: marker)) = '_' :: marker := decode_units _
  rw [decode] at hmarker ⊢
  rw [List.append_assoc, read_units, List.map_append, List.map_map, shortened, List.append_assoc]
  refine congrArg₂ (· ++ ·) (List.map_id _) ?_
  cases hhalf : half limit text with
  | none => exact hmarker
  | some unit =>
    obtain ⟨c, rfl⟩ := exists_of_half_eq hhalf
    have hread : read (highSurrogate c :: units ('_' :: marker)) =
        .inr (highSurrogate c) :: read (units ('_' :: marker)) :=
      read_highSurrogate c (by decide) (units marker)
    change (read (highSurrogate c :: units ('_' :: marker))).map _ = _
    rw [hread, List.map_cons, hmarker]
    rfl

/-- A temporary name is the stored name of another object if that is built so. -/
theorem isBuiltUnder_iff {hashData : String → String} {name other : String} :
    (∃ temporaryName, getTemporaryName hashData name = some temporaryName ∧
      storedAs temporaryName = storedAs (units other.toList)) ↔ IsBuiltUnder hashData name other := by
  rw [storedAs_units]
  unfold getTemporaryName IsBuiltUnder
  obtain ⟨beforeLast, suffix⟩ := splitName name.toList
  have hbytes : ∀ text, byteLength (units text) = size text := by
    intro text
    simpa [byteLength] using byteLength_units text []
  dsimp only
  rw [hbytes, hbytes]
  by_cases hshort : size (beforeLast ++ "_tmp".toList ++ suffix) ≤ maxNameSize
  · rw [if_pos hshort, if_pos hshort]
    have hstored : storedAs (units (beforeLast ++ "_tmp".toList ++ suffix)) =
        beforeLast ++ "_tmp".toList ++ suffix := by
      rw [storedAs_units, cut_of_size_le hshort]
    constructor
    · rintro ⟨_, htemporary, hsame⟩
      obtain rfl := Option.some.inj htemporary
      exact hsame.symm.trans hstored
    · exact fun hsame => ⟨_, rfl, hstored.trans hsame.symm⟩
  · rw [if_neg hshort, if_neg hshort]
    generalize hmarker : temporaryMarker hashData name suffix = marker
    unfold clipName
    by_cases hfits : size marker ≤ maxNameSize
    · have hlimit : ((maxNameSize : Int) - (size marker : Int)).toNat = maxNameSize - size marker := by
        omega
      rw [if_neg (by omega), hlimit, Option.map_some]
      have hstored : storedAs (clip (maxNameSize - size marker) (units beforeLast).length
          (units beforeLast) ++ units marker) =
          shortened (maxNameSize - size marker) beforeLast ++ marker := by
        have hdecode : decode (clip (maxNameSize - size marker) (units beforeLast).length
            (units beforeLast) ++ units marker) =
            shortened (maxNameSize - size marker) beforeLast ++ marker := by
          rw [clip_units, ← hmarker]
          exact decode_shortened _ _ _
        have hle := @size_shortened_le (maxNameSize - size marker) beforeLast
        rw [storedAs, hdecode, cut_of_size_le]
        rw [size_append]
        omega
      constructor
      · rintro ⟨_, htemporary, hsame⟩
        obtain rfl := Option.some.inj htemporary
        exact ⟨hfits, hsame.symm.trans hstored⟩
      · rintro ⟨-, hsame⟩
        exact ⟨_, rfl, hstored.trans hsame.symm⟩
    · rw [if_pos (by omega)]
      constructor
      · rintro ⟨_, htemporary, -⟩
        cases htemporary
      · rintro ⟨hfits', -⟩
        exact absurd hfits' hfits

/-! ## Accepted repositories -/

/-- **Where different names are stored apart, what is left is whether the names differ.** -/
theorem namesApart_iff {hashData : String → String} {objects : List DatabaseObject}
    (h : ∀ x ∈ objects, ∀ y ∈ objects, getStoredName x.name = getStoredName y.name →
      x.name = y.name) : NamesApart hashData objects ↔ NamesDiffer hashData objects := by
  constructor
  · intro hapart x hx y hy hne
    refine ⟨fun hname => hapart.stored x hx y hy hne (by rw [hname]),
      fun hsplits => hapart.stored x hx y hy hne (storedAs_of_splitsApart hsplits),
      fun hbuilt => ?_⟩
    obtain ⟨temporaryName, htemporary, hsame⟩ := isBuiltUnder_iff.mpr hbuilt
    exact hapart.temporary x hx y hy hne temporaryName htemporary hsame
  · intro hdiffer
    refine ⟨fun x hx y hy hne hsame => ?_, fun x hx y hy hne temporaryName htemporary hsame => ?_⟩
    · obtain ⟨hname, hsplits, -⟩ := hdiffer x hx y hy hne
      exact hsplits (splitsApart_of_storedAs (fun hcode => hname (h x hx y hy hcode)) hsame)
    · exact (hdiffer x hx y hy hne).2.2 (isBuiltUnder_iff.mp ⟨temporaryName, htemporary, hsame⟩)

theorem validateNames_of_validateRepository {target : TableRepository}
    (h : validateRepository target = .ok ()) : validateNames target = .ok () := by
  have hbind : ∀ {x : Validated} {next : Unit → Validated},
      (x >>= next) = .ok () → next () = .ok () := by
    intro x next hnext
    cases x with
    | error e => cases hnext
    | ok => exact hnext
  exact hbind (hbind (hbind h))

/-- **An accepted repository has no two objects under one name if and only if no two objects
were given one name, no two names part at a character that the limit cuts in two, and no
object has the temporary name of another one.** -/
theorem accepted_namesApart_iff (hashData : String → String) {target : TableRepository}
    (h : validateRepository target = .ok ()) :
    (NamesApart hashData (indexObjects target) ∧ NamesApart hashData (constraintObjects target)) ↔
      (NamesDiffer hashData (indexObjects target) ∧
        NamesDiffer hashData (constraintObjects target)) := by
  obtain ⟨hindexes, hconstraints⟩ := eq_of_validateNames (validateNames_of_validateRepository h)
  exact and_congr (namesApart_iff hindexes) (namesApart_iff hconstraints)

/-! ## Samples -/

instance decidableWideUnfit (limit : Nat) (text : List Char) : Decidable (WideUnfit limit text) :=
  decidable_of_iff ((unfit limit text).all isWide = true) <| by
    unfold WideUnfit
    cases unfit limit text with
    | none => simp
    | some c => simp

instance decidableSplitsApart (name other : String) : Decidable (SplitsApart name other) :=
  inferInstanceAs (Decidable (_ ∧ _))

instance decidableIsBuiltUnder (hashData : String → String) (name other : String) :
    Decidable (IsBuiltUnder hashData name other) := by
  unfold IsBuiltUnder
  exact inferInstance

instance decidableNamesDiffer (hashData : String → String) (objects : List DatabaseObject) :
    Decidable (NamesDiffer hashData objects) :=
  inferInstanceAs (Decidable (∀ x ∈ objects, ∀ y ∈ objects, _ → _))

theorem noRest_keys : ∀ k ∈ keysOf ([] : Fields), k ∉ ["type", "properties"] := by decide

theorem noRest_defined : Defined ([] : Fields) := ⟨by decide, by simp⟩

/-- A repository of one table with string columns. -/
def ordersWith (columns : List String) (indexes : List TableIndex) : TableRepository :=
  (∅ : TableRepository).set ("orders",
    { name := "orders"
      indexes := indexes.foldl (fun r index => r.set (index.name, index)) ∅
      schema :=
        { properties := columns.foldl (fun r c =>
            r.set (c, { type := .string, rest_defined := noRest_defined })) ∅
          rest_keys := noRest_keys
          rest_defined := noRest_defined } })

/-- A primary key, a unique key and a secondary one. -/
def ordersRepository : TableRepository :=
  ordersWith ["id", "number", "user_id"]
    [{ name := "id", columns := ["id"], type := .primary },
      { name := "number", columns := ["number"], type := .unique },
      { name := "user_id:number", columns := ["user_id", "number"], type := .secondary }]

/-- No two objects of that repository are under one name, whatever the hash is. -/
theorem ordersRepository_namesApart :
    NamesApart (fun _ => "00000000") (indexObjects ordersRepository) ∧
      NamesApart (fun _ => "00000000") (constraintObjects ordersRepository) :=
  (accepted_namesApart_iff _ (by decide +kernel)).mpr (by decide +kernel)

/-- An index on a column, and one on two columns whose names join to that of the first. -/
def joinedRepository : TableRepository :=
  ordersWith ["user", "id", "user_id"]
    [{ name := "user_id", columns := ["user_id"], type := .secondary },
      { name := "user:id", columns := ["user", "id"], type := .secondary }]

theorem joinedRepository_collides : validateRepository joinedRepository = .ok () ∧
    ¬ (NamesApart (fun _ => "00000000") (indexObjects joinedRepository) ∧
      NamesApart (fun _ => "00000000") (constraintObjects joinedRepository)) := by
  have haccepted : validateRepository joinedRepository = .ok () := by decide +kernel
  refine ⟨haccepted, fun h => ?_⟩
  have hobjects : indexObjects joinedRepository =
      [⟨.index "orders" "user_id", "orders_user_id_sk"⟩,
        ⟨.index "orders" "user:id", "orders_user_id_sk"⟩] := by decide +kernel
  rw [hobjects] at h
  exact h.1.stored _ List.mem_cons_self _ (List.mem_cons_of_mem _ List.mem_cons_self)
    (by decide) rfl

end Ez4.Migration

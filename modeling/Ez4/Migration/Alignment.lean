import Ez4.Migration.ColumnChanges

/-! # The source under the names of the target

What `getTableRepositoryChanges` makes of the source: each table of the target
finds under its own name the table it was, with the declared renames made
(`alignSource`) and then the guessed ones. -/

namespace Ez4.Migration
open Ez4.Library Ez4.Utils

/-- What the metadata checks of the declared renames of columns: a previous
column is no column of the table, which has the new one, and is claimed once. -/
structure ColumnRenamesChecked (target : TableMetadata) : Prop where
  free : ∀ c p, (c, p) ∈ declaredColumns target →
    target.columns.has c = true ∧ target.columns.find p = none
  once : ∀ c d p, (c, p) ∈ declaredColumns target → (d, p) ∈ declaredColumns target → c = d

/-- What the metadata checks of declared renames: a previous table is no table
of the target and is claimed once. -/
structure RenamesChecked (target : TableRepository) : Prop where
  table_free : ∀ t m p, target.find t = some m → m.renamedFrom.bind (·.table) = some p → p ≠ "" →
    target.find p = none
  table_once : ∀ t u m n p, target.find t = some m → target.find u = some n →
    m.renamedFrom.bind (·.table) = some p → n.renamedFrom.bind (·.table) = some p → p ≠ "" → t = u
  columns : ∀ t m, target.find t = some m → ColumnRenamesChecked m

/-- The source table that a table of the target is declared to be renamed
from, when it hasn't been yet. -/
def declaredFrom (source : TableRepository) (table : String) (target : TableMetadata) :
    Option String :=
  match target.renamedFrom.bind (·.table) with
  | some p => if p ≠ "" ∧ source.has table = false ∧ source.has p = true then some p else none
  | none => none

/-- The source table that a table of the target was, before any guess. -/
def declaredTable (source : TableRepository) (table : String) (target : TableMetadata) :
    Option TableMetadata :=
  source.find ((declaredFrom source table target).getD table)

/-- A source table with the declared column renames made. -/
def renamedTable (target source : TableMetadata) : TableMetadata :=
  renameColumns source (getColumnRenames target source)

/-- The declared rename of a table. -/
def declaredRename (source : TableRepository) (f : String × TableMetadata) :
    Option (String × String) :=
  (declaredFrom source f.1 f.2).map (·, f.1)

/-- The declared column renames of a table, if there are any. -/
def declaredColumnRenames (source : TableRepository) (f : String × TableMetadata) :
    Option (String × List (String × String)) :=
  (declaredTable source f.1 f.2).bind fun s =>
    if getColumnRenames f.2 s = [] then none else some (f.1, getColumnRenames f.2 s)

theorem renameColumns_nil (table : TableMetadata) : renameColumns table [] = table := rfl

section Align

variable {target source : TableRepository}

theorem declaredFrom_some {table p : String} {m : TableMetadata}
    (h : declaredFrom source table m = some p) :
    m.renamedFrom.bind (·.table) = some p ∧ p ≠ "" ∧ source.has table = false ∧
      source.has p = true := by
  unfold declaredFrom at h
  split at h
  · rename_i q hq
    rw [Option.ite_none_right_eq_some, Option.some.injEq] at h
    obtain ⟨hc, rfl⟩ := h
    exact ⟨hq, hc⟩
  · simp at h

theorem Record.find_eq_none {α : Type} {r : Record α} {k : String} :
    r.find k = none ↔ k ∉ keysOf r.values := Utils.find_eq_none

theorem Record.mem_keysOf {α : Type} {r : Record α} {k : String} :
    k ∈ keysOf r.values ↔ ∃ a, r.find k = some a := mem_keysOf_iff

theorem Record.has_eq_true {α : Type} {r : Record α} {k : String} :
    r.has k = true ↔ ∃ a, r.find k = some a := Option.isSome_iff_exists

theorem Record.has_eq_false {α : Type} {r : Record α} {k : String} :
    r.has k = false ↔ r.find k = none := by simp [Record.has]

/-- The body of the loop, by the declared rename of the table. -/
theorem Alignment.step_eq (a : Alignment) (table : String) (m : TableMetadata) :
    a.step source table m =
      let a := match declaredFrom source table m, declaredTable source table m with
        | some p, some s =>
          { a with
            tableRenames := assign a.tableRenames p table
            source := (a.source.set (table, s)).erase p }
        | _, _ => a
      match a.source.find table with
      | some s =>
        if getColumnRenames m s = [] then a
        else
          { a with
            columnRenames := assign a.columnRenames table (getColumnRenames m s)
            source := a.source.set (table, renamedTable m s) }
      | none => a := by
  unfold Alignment.step declaredTable declaredFrom renamedTable
  cases hr : m.renamedFrom.bind (·.table) with
  | none => rfl
  | some p =>
    cases hs : source.find p with
    | none =>
      simp only [Record.has, hs, Option.isSome_none, Bool.false_eq_true, and_false,
        if_false]
      all_goals rfl
    | some s =>
      by_cases hc : p ≠ "" ∧ source.has table = false
      · have hp : source.has p = true := Record.has_eq_true.mpr ⟨s, hs⟩
        simp only [ne_eq, Bool.not_eq_true', hc.1, not_false_eq_true, hc.2, and_self, if_true, hp,
          Option.getD_some, hs]
        all_goals rfl
      · have hc' : ¬ (p ≠ "" ∧ source.has table = false ∧ source.has p = true) := fun h =>
          hc ⟨h.1, h.2.1⟩
        simp only [hc', if_false, Bool.not_eq_true', hc, hs]
        all_goals rfl

/-- The alignment once the loop has been through the part `pre` of the target. -/
structure Aligned (source : TableRepository) (pre : List (String × TableMetadata))
    (a : Alignment) : Prop where
  tables : a.tableRenames = pre.filterMap (declaredRename source)
  columns : a.columnRenames = pre.filterMap (declaredColumnRenames source)
  found : ∀ t m, find pre t = some m →
    a.source.find t = (declaredTable source t m).map (renamedTable m)
  other : ∀ k, k ∉ keysOf pre → a.source.find k =
    if k ∈ (pre.filterMap (declaredRename source)).map Prod.fst then none else source.find k

/-- Tables the loop hasn't come to are found as in the source. -/
theorem Aligned.find_of_target {pre : List (String × TableMetadata)} {a : Alignment}
    (hr : RenamesChecked target) (h : Aligned source pre a)
    (hpre : ∀ f ∈ pre, target.find f.1 = some f.2) {t : String} {m : TableMetadata}
    (ht : target.find t = some m) (hn : t ∉ keysOf pre) : a.source.find t = source.find t := by
  rw [h.other t hn, if_neg]
  intro hm
  obtain ⟨⟨p, u⟩, hpu, rfl⟩ := List.mem_map.mp hm
  obtain ⟨⟨u', n⟩, hu, hd⟩ := List.mem_filterMap.mp hpu
  obtain ⟨q, hq, he⟩ := Option.map_eq_some_iff.mp hd
  obtain ⟨rfl, rfl⟩ := Prod.mk.inj he
  obtain ⟨hn', hq', -⟩ := declaredFrom_some hq
  have := hr.table_free u' n q (hpre _ hu) hn' hq'
  simp [ht] at this

/-- The first half of the body: the table takes the place of the one it was. -/
def Alignment.move (source : TableRepository) (a : Alignment) (table : String)
    (m : TableMetadata) : Alignment :=
  match declaredFrom source table m, declaredTable source table m with
  | some p, some s =>
    { a with
      tableRenames := assign a.tableRenames p table
      source := (a.source.set (table, s)).erase p }
  | _, _ => a

theorem Alignment.move_some {a : Alignment} {table p : String} {m s : TableMetadata}
    (hd : declaredFrom source table m = some p) (hs : source.find p = some s) :
    a.move source table m =
      { a with
        tableRenames := assign a.tableRenames p table
        source := (a.source.set (table, s)).erase p } := by
  simp [move, declaredTable, hd, hs]

theorem Alignment.move_none {a : Alignment} {table : String} {m : TableMetadata}
    (hd : declaredFrom source table m = none) : a.move source table m = a := by
  simp [move, hd]

theorem Alignment.move_columnRenames (source : TableRepository) (a : Alignment) (table : String)
    (m : TableMetadata) : (a.move source table m).columnRenames = a.columnRenames := by
  unfold move
  split <;> rfl

/-- The second half: the columns take the place of the ones they were. -/
theorem Alignment.step_of_move {a : Alignment} {table : String} {m : TableMetadata}
    {s : Option TableMetadata} (hs : (a.move source table m).source.find table = s) :
    (a.step source table m).tableRenames = (a.move source table m).tableRenames ∧
    (a.step source table m).columnRenames =
      (match s.bind fun s => if getColumnRenames m s = [] then none else some (getColumnRenames m s) with
        | some renames => assign a.columnRenames table renames
        | none => a.columnRenames) ∧
    (∀ k, (a.step source table m).source.find k =
      if k = table then s.map (renamedTable m) else (a.move source table m).source.find k) := by
  have he : a.step source table m =
      match (a.move source table m).source.find table with
      | some s =>
        if getColumnRenames m s = [] then a.move source table m
        else
          { a.move source table m with
            columnRenames :=
              assign (a.move source table m).columnRenames table (getColumnRenames m s)
            source := (a.move source table m).source.set (table, renamedTable m s) }
      | none => a.move source table m := by
    rw [Alignment.step_eq]; rfl
  have hcol := a.move_columnRenames source table m
  generalize a.move source table m = b at hs he hcol ⊢
  rw [he, hs]
  cases s with
  | none =>
    refine ⟨rfl, hcol, fun k => ?_⟩
    by_cases hk : k = table
    · simp [hk, hs]
    · simp [hk]
  | some s =>
    by_cases hr : getColumnRenames m s = []
    · simp only [Option.bind_some, hr, if_true]
      refine ⟨trivial, hcol, fun k => ?_⟩
      by_cases hk : k = table
      · rw [if_pos hk, hk, hs, Option.map_some, renamedTable, hr, renameColumns_nil]
      · rw [if_neg hk]
    · simp only [Option.bind_some, hr, if_false]
      refine ⟨trivial, by rw [hcol], fun k => ?_⟩
      rw [Record.find_set]
      by_cases hk : k = table
      · simp [hk]
      · simp [hk, Ne.symm hk]

theorem aligned_step (hr : RenamesChecked target) {pre : List (String × TableMetadata)}
    {a : Alignment} (h : Aligned source pre a) (hpre : ∀ f ∈ pre, target.find f.1 = some f.2)
    {t : String} {m : TableMetadata} (ht : target.find t = some m) (hn : t ∉ keysOf pre) :
    Aligned source (pre ++ [(t, m)]) (a.step source t m) := by
  have hfind := h.find_of_target hr hpre ht hn
  have htables : ∀ p, declaredFrom source t m = some p → p ∉ keysOf a.tableRenames := by
    intro p hp hm
    rw [h.tables] at hm
    obtain ⟨⟨q, u⟩, hqu, rfl⟩ := List.mem_map.mp hm
    obtain ⟨⟨u', n⟩, hu, hd⟩ := List.mem_filterMap.mp hqu
    obtain ⟨q', hq, he⟩ := Option.map_eq_some_iff.mp hd
    obtain ⟨rfl, rfl⟩ := Prod.mk.inj he
    obtain ⟨hp', hne, -⟩ := declaredFrom_some hp
    have heq := hr.table_once t u' m n q' ht (hpre _ hu) hp' (declaredFrom_some hq).1 hne
    exact hn (heq ▸ List.mem_map_of_mem (f := Prod.fst) hu)
  have hcolumns : t ∉ keysOf a.columnRenames := by
    rw [h.columns]
    refine fun hm => hn (keysOf_filterMap_subset (fun f g hg => ?_) hm)
    obtain ⟨s, -, hs⟩ := Option.bind_eq_some_iff.mp hg
    simp only [Option.ite_none_left_eq_some, Option.some.injEq] at hs
    exact hs.2 ▸ rfl
  have htarget : ∀ p, declaredFrom source t m = some p → target.find p = none := fun p hp =>
    hr.table_free t m p ht (declaredFrom_some hp).1 (declaredFrom_some hp).2.1
  -- What the first half leaves under each name.
  have hmove : (a.move source t m).source.find t = declaredTable source t m ∧
      (∀ k, k ≠ t → (a.move source t m).source.find k =
        if declaredFrom source t m = some k then none else a.source.find k) ∧
      (a.move source t m).tableRenames =
        a.tableRenames ++ ((declaredFrom source t m).map (·, t)).toList := by
    cases hd : declaredFrom source t m with
    | none =>
      rw [Alignment.move_none hd]
      refine ⟨by rw [hfind, declaredTable, hd]; rfl, fun k _ => by simp, by simp⟩
    | some p =>
      obtain ⟨-, -, hst, hsp⟩ := declaredFrom_some hd
      obtain ⟨s, hs⟩ := Record.has_eq_true.mp hsp
      have hne : t ≠ p := by rintro rfl; simp [hst] at hsp
      rw [Alignment.move_some hd hs]
      refine ⟨by simp [hne, declaredTable, hd, hs], fun k hk => ?_, ?_⟩
      · simp [Ne.symm hk, eq_comm]
      · rw [assign_of_not_mem (htables p hd)]; rfl
  obtain ⟨hmt, hmk, hmr⟩ := hmove
  obtain ⟨h₁, h₂, h₃⟩ := Alignment.step_of_move hmt
  refine ⟨?_, ?_, fun u n hu => ?_, fun k hk => ?_⟩
  · rw [h₁, hmr, h.tables, List.filterMap_append]
    cases hd : declaredFrom source t m <;> simp [declaredRename, hd]
  · rw [h₂, List.filterMap_append, ← h.columns]
    cases hs : declaredTable source t m with
    | none => simp [declaredColumnRenames, hs]
    | some s =>
      by_cases hc : getColumnRenames m s = []
      · simp [declaredColumnRenames, hs, hc]
      · simp [declaredColumnRenames, hs, hc, assign_of_not_mem hcolumns]
  · rw [h₃]
    by_cases hut : u = t
    · subst hut
      rw [find_append, find_eq_none.mpr hn, Option.none_or, find_cons, if_pos rfl,
        Option.some.injEq] at hu
      obtain rfl : m = n := hu
      exact if_pos rfl
    · rw [find_append, find_cons, if_neg (Ne.symm hut), find_nil, Option.or_none] at hu
      have hnot : declaredFrom source t m ≠ some u := fun hd => by
        have := htarget u hd
        rw [hpre _ (mem_of_find hu)] at this
        simp at this
      rw [if_neg hut, hmk u hut, if_neg hnot]
      exact h.found u n hu
  · rw [keysOf_append, List.mem_append, not_or] at hk
    have hkt : k ≠ t := fun he => hk.2 (by simp [keysOf, he])
    rw [h₃, if_neg hkt, hmk k hkt, h.other k hk.1, List.filterMap_append, List.map_append]
    have hlast : k ∈ ([(t, m)].filterMap (declaredRename source)).map Prod.fst ↔
        declaredFrom source t m = some k := by
      cases hd : declaredFrom source t m <;> simp [declaredRename, hd, eq_comm]
    simp only [List.mem_append, hlast]
    by_cases hd : declaredFrom source t m = some k
    · rw [if_pos hd, if_pos (Or.inr hd)]
    · simp only [hd, if_false, or_false]

theorem aligned_foldl (hr : RenamesChecked target) {pre post : List (String × TableMetadata)}
    (hT : pre ++ post = target.values) {a : Alignment} (h : Aligned source pre a) :
    Aligned source target.values
      (post.foldl (fun a (table, metadata) => a.step source table metadata) a) := by
  induction post generalizing pre a with
  | nil => rw [List.append_nil] at hT; exact hT ▸ h
  | cons f post ih =>
    obtain ⟨t, m⟩ := f
    have hfind : ∀ g ∈ target.values, target.find g.1 = some g.2 := fun g hg =>
      find_of_mem target.nodup hg
    have hn : t ∉ keysOf pre := fun hm => by
      have hnodup := target.nodup
      rw [← hT, List.map_append, List.nodup_append] at hnodup
      exact hnodup.2.2 t hm t (by simp) rfl
    have hT' : (pre ++ [(t, m)]) ++ post = target.values := by
      rw [List.append_assoc, List.singleton_append]; exact hT
    rw [List.foldl_cons]
    refine ih hT' ?_
    have hpre : ∀ g ∈ pre, target.find g.1 = some g.2 := fun g hg =>
      hfind g (by rw [← hT]; exact List.mem_append_left _ hg)
    exact aligned_step hr h hpre (hfind (t, m) (by rw [← hT]; simp)) hn

/-- The source, with the declared renames made. -/
theorem aligned_alignSource (source : TableRepository) (hr : RenamesChecked target) :
    Aligned source target.values (alignSource target source) :=
  aligned_foldl hr (List.nil_append _) ⟨rfl, rfl, by simp, fun k _ => by simp⟩

end Align

/-! ## Repositories as objects -/

theorem keysOf_toFields {α : Type} (r : Record α) (toValue : α → Value) :
    keysOf (r.toFields toValue) = keysOf r.values := by
  rw [keysOf, Record.toFields, List.map_map]
  rfl

theorem find_toFields {α : Type} (r : Record α) (toValue : α → Value) (k : String) :
    find (r.toFields toValue) k = (r.find k).map toValue := by
  unfold Record.toFields Record.find
  induction r.values with
  | nil => rfl
  | cons f rest ih =>
    rw [List.map_cons, find_cons, find_cons, ih]
    split <;> rfl

theorem defined_toFields {α : Type} (r : Record α) {toValue : α → Value}
    (h : ∀ a, (toValue a).isUndefined = false) : Defined (r.toFields toValue) where
  nodup := by rw [keysOf_toFields]; exact r.nodup
  value k v hm := by
    obtain ⟨f, -, hf⟩ := List.mem_map.mp hm
    obtain ⟨-, rfl⟩ := Prod.mk.inj hf
    exact h f.2

theorem defined_withoutRenames (repository : TableRepository) :
    Defined (Migration.withoutRenames repository) :=
  defined_toFields repository fun _ => rfl

/-- The columns of a table, as an object. -/
def TableMetadata.columnFields (t : TableMetadata) : Fields :=
  t.columns.toFields AnySchema.toValue

theorem TableMetadata.defined_columnFields (t : TableMetadata) : Defined t.columnFields :=
  defined_toFields t.columns fun _ => rfl

theorem ObjectSchema.find_properties (s : ObjectSchema) :
    find s.toFields "properties" = some (.obj (s.properties.toFields AnySchema.toValue)) := by
  simp [ObjectSchema.toFields, find_cons]

theorem ObjectSchema.defined (s : ObjectSchema) : Defined s.toFields := by
  refine defined_append ["type", "properties"] (by decide) (List.Sublist.refl _) s.rest_defined
    s.rest_keys ?_
  intro k v h
  simp only [List.mem_cons, Prod.mk.injEq, List.not_mem_nil, or_false] at h
  rcases h with ⟨-, rfl⟩ | ⟨-, rfl⟩ <;> rfl

namespace TableMetadata

variable (t : TableMetadata)

theorem find_schema : find t.withoutRenames "schema" = some (.obj t.schema.toFields) := by
  simp [withoutRenames, find_cons]

theorem defined : Defined t.withoutRenames where
  nodup := by
    rw [withoutRenames, keysOf_append]
    cases t.timestamps <;> simp [keysOf, field]
  value k v h := by
    simp only [withoutRenames, List.mem_append, mem_field, Prod.mk.injEq, List.mem_cons,
      List.not_mem_nil, or_false, Option.map_eq_some_iff] at h
    rcases h with (⟨-, rfl⟩ | ⟨-, rfl⟩ | ⟨-, rfl⟩ | ⟨-, rfl⟩) | ⟨w, ⟨u, -, rfl⟩, -, rfl⟩ <;> rfl

end TableMetadata

end Ez4.Migration

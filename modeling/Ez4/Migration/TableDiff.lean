import Ez4.Migration.Alignment

/-! # The columns of a table and of the one it was

The source table `previous` that a table of the target was, before any rename.
Its columns are renamed as declared, compared with those of the target, and
renamed as guessed. -/

namespace Ez4.Migration
open Ez4.Library Ez4.Utils

variable {target previous : TableMetadata}

/-! ## Declared renames of columns -/

theorem nodup_declaredColumns (target : TableMetadata) :
    ((declaredColumns target).map Prod.fst).Nodup := by
  unfold declaredColumns
  split
  · rename_i columns _
    exact columns.nodup
  · simp

theorem nodup_previousColumns (h : ColumnRenamesChecked target) :
    ((declaredColumns target).map Prod.snd).Nodup := by
  refine List.Nodup.map_on (fun f hf g hg he => ?_) (nodup_declaredColumns target).of_map
  exact Prod.ext (h.once f.1 g.1 g.2 (he ▸ hf) hg) he

/-- A declared rename that the table hasn't gone through yet. -/
def pendingRename (previous : TableMetadata) (f : String × String) : Option (String × String) :=
  if previous.columns.has f.2 && !previous.columns.has f.1 then some (f.2, f.1) else none

theorem pendingRename_eq_some {f r : String × String} :
    pendingRename previous f = some r ↔
      r = (f.2, f.1) ∧ previous.columns.has f.2 = true ∧ previous.columns.has f.1 = false := by
  simp only [pendingRename, Option.ite_none_right_eq_some, Bool.and_eq_true, Bool.not_eq_true',
    Option.some.injEq]
  tauto

/-- No declared rename is written over. -/
theorem foldl_pendingRename {l acc : List (String × String)} (hn : (l.map Prod.snd).Nodup)
    (hacc : ∀ p ∈ l.map Prod.snd, p ∉ keysOf acc) :
    l.foldl (fun renames (column, previousColumn) =>
        if previous.columns.has previousColumn && !previous.columns.has column then
          assign renames previousColumn column
        else renames) acc =
      acc ++ l.filterMap (pendingRename previous) := by
  induction l generalizing acc with
  | nil => simp
  | cons f rest ih =>
    obtain ⟨c, p⟩ := f
    rw [List.map_cons, List.nodup_cons] at hn
    simp only [List.map_cons, List.mem_cons, forall_eq_or_imp] at hacc
    rw [List.foldl_cons, List.filterMap_cons]
    by_cases hc : (previous.columns.has p && !previous.columns.has c) = true
    · have hnot : ∀ q ∈ rest.map Prod.snd, q ∉ keysOf (acc ++ [(p, c)]) := by
        intro q hq
        rw [keysOf_append, List.mem_append, not_or]
        refine ⟨hacc.2 q hq, fun hm => ?_⟩
        obtain rfl : q = p := by simpa [keysOf] using hm
        exact hn.1 hq
      simp only [pendingRename, hc, if_true]
      rw [assign_of_not_mem hacc.1, ih hn.2 hnot, List.append_assoc]
      rfl
    · simp only [pendingRename, hc, Bool.false_eq_true, if_false]
      exact ih hn.2 hacc.2

theorem getColumnRenames_eq (h : ColumnRenamesChecked target) (previous : TableMetadata) :
    getColumnRenames target previous =
      (declaredColumns target).filterMap (pendingRename previous) :=
  foldl_pendingRename (nodup_previousColumns h) (by simp [keysOf])

theorem mem_getColumnRenames (h : ColumnRenamesChecked target) {p c : String} :
    (p, c) ∈ getColumnRenames target previous ↔ (c, p) ∈ declaredColumns target ∧
      previous.columns.has p = true ∧ previous.columns.has c = false := by
  simp only [getColumnRenames_eq h, List.mem_filterMap, pendingRename_eq_some, Prod.mk.injEq]
  constructor
  · rintro ⟨f, hf, ⟨rfl, rfl⟩, hc⟩
    exact ⟨hf, hc⟩
  · rintro ⟨hf, hc⟩
    exact ⟨(c, p), hf, ⟨rfl, rfl⟩, hc⟩

theorem renaming_getColumnRenames (h : ColumnRenamesChecked target) (previous : TableMetadata) :
    Renaming (getColumnRenames target previous) where
  from_nodup := by
    rw [getColumnRenames_eq h]
    refine (nodup_previousColumns h).sublist (sublist_map_filterMap (fun f r hr => ?_) _)
    rw [(pendingRename_eq_some.mp hr).1]
  to_nodup := by
    rw [getColumnRenames_eq h]
    refine (nodup_declaredColumns target).sublist (sublist_map_filterMap (fun f r hr => ?_) _)
    rw [(pendingRename_eq_some.mp hr).1]
  disjoint k hf ht := by
    obtain ⟨⟨p, c⟩, hp, rfl⟩ := List.mem_map.mp hf
    obtain ⟨⟨q, d⟩, hd, hk : d = p⟩ := List.mem_map.mp ht
    have h₁ := ((mem_getColumnRenames h).mp hp).2.1
    have h₂ := ((mem_getColumnRenames h).mp hd).2.2
    simp [hk, h₁] at h₂

/-! ## The table with the declared renames made -/

theorem find_renameColumn {columns : Record AnySchema} {r : String × String} (hne : r.1 ≠ r.2)
    (hp : (columns.find r.1).isSome) :
    (renameColumn columns r).find = move columns.find r := by
  obtain ⟨s, hs⟩ := Option.isSome_iff_exists.mp hp
  funext k
  simp only [renameColumn, hs, Record.find_erase, Record.find_set, move, put_apply]
  by_cases hf : k = r.1
  · subst hf; simp [hne]
  · by_cases ht : k = r.2
    · subst ht; simp [hf]
    · simp [hf, ht, Ne.symm ht]

theorem find_foldl_renameColumn {renames : List (String × String)} (h : Renaming renames)
    {columns : Record AnySchema} (hp : ∀ r ∈ renames, (columns.find r.1).isSome) :
    (renames.foldl renameColumn columns).find = renames.foldl move columns.find := by
  induction renames generalizing columns with
  | nil => rfl
  | cons r rest ih =>
    have hne : r.1 ≠ r.2 := fun he =>
      h.disjoint r.1 List.mem_cons_self (he ▸ List.mem_cons_self)
    have hr := find_renameColumn hne (hp r List.mem_cons_self)
    rw [List.foldl_cons, List.foldl_cons, ← hr]
    refine ih h.tail fun q hq => ?_
    obtain ⟨h₁, h₂, -, -⟩ := h.ne_of_mem_tail (f := q.1) (g := q.2) hq
    rw [hr, move_of_ne _ h₁ h₂]
    exact hp q (List.mem_cons_of_mem _ hq)

theorem find_renamedTable (h : ColumnRenamesChecked target) (previous : TableMetadata) :
    (renamedTable target previous).columns.find =
      (getColumnRenames target previous).foldl move previous.columns.find :=
  find_foldl_renameColumn (renaming_getColumnRenames h previous) fun _ hr =>
    ((mem_getColumnRenames h).mp hr).2.1

@[simp] theorem renamedTable_name : (renamedTable target previous).name = previous.name := rfl

/-! ## The columns compared -/

theorem TableMetadata.find_columnFields (t : TableMetadata) (k : String) :
    find t.columnFields k = (t.columns.find k).map AnySchema.toValue :=
  find_toFields t.columns _ k

theorem TableMetadata.mem_columnFields {t : TableMetadata} {k : String} :
    k ∈ keysOf t.columnFields ↔ ∃ s, t.columns.find k = some s := by
  rw [TableMetadata.columnFields, keysOf_toFields]
  exact Record.mem_keysOf

theorem TableMetadata.not_mem_columnFields {t : TableMetadata} {k : String} :
    k ∉ keysOf t.columnFields ↔ t.columns.find k = none := by
  rw [TableMetadata.columnFields, keysOf_toFields]
  exact Record.find_eq_none.symm

/-- The changes of the columns, with the declared renames made. -/
def columnComparison (target previous : TableMetadata) : ObjectComparison :=
  deepCompareObject repositoryOptions target.columnFields
    (renamedTable target previous).columnFields

theorem compared_columns (target previous : TableMetadata) :
    Compared repositoryOptions target.columnFields (renamedTable target previous).columnFields
      (columnComparison target previous) :=
  compared_repository target.defined_columnFields (renamedTable target previous).defined_columnFields

/-- The renames guessed of the columns, and those declared. -/
def allRenames (target previous : TableMetadata) : List (String × String) :=
  (columnComparison target previous).rename ++ getColumnRenames target previous

/-- All the changes of the columns of a table, the declared renames included. -/
def columnDiff (target previous : TableMetadata) : ObjectComparison :=
  { columnComparison target previous with rename := allRenames target previous }

section Renames

variable {c f g : String}

/-- A column of the target that the previous table has by that name is not renamed. -/
theorem find_renamedTable_of_kept (h : ColumnRenamesChecked target)
    (ht : target.columns.has c = true) (hp : previous.columns.has c = true) :
    (renamedTable target previous).columns.find c = previous.columns.find c := by
  rw [find_renamedTable h, Renaming.foldl_move_of_not_mem]
  · intro hm
    obtain ⟨⟨p, d⟩, hd, rfl⟩ := List.mem_map.mp hm
    have := (h.free d p ((mem_getColumnRenames h).mp hd).1).2
    rw [Record.has_eq_true, this] at ht
    simp at ht
  · intro hm
    obtain ⟨⟨p, d⟩, hd, rfl⟩ := List.mem_map.mp hm
    have := ((mem_getColumnRenames h).mp hd).2.2
    simp [hp] at this

/-- A column the target has not is as it was, or renamed. -/
theorem find_renamedTable_of_gone (h : ColumnRenamesChecked target) (previous : TableMetadata)
    (ht : target.columns.find c = none) :
    (renamedTable target previous).columns.find c =
      if c ∈ (getColumnRenames target previous).map Prod.fst then none
      else previous.columns.find c := by
  rw [find_renamedTable h]
  split
  · rename_i hm
    exact (renaming_getColumnRenames h previous).foldl_move_from _ hm
  · rename_i hm
    refine Renaming.foldl_move_of_not_mem _ hm fun hto => ?_
    obtain ⟨⟨p, d⟩, hd, rfl⟩ := List.mem_map.mp hto
    have := (h.free d p ((mem_getColumnRenames h).mp hd).1).1
    rw [Record.has_eq_true, ht] at this
    simp at this

theorem guessed_from (h : ColumnRenamesChecked target)
    (hm : (f, g) ∈ (columnComparison target previous).rename) :
    target.columns.find f = none ∧ f ∉ (getColumnRenames target previous).map Prod.fst ∧
      (renamedTable target previous).columns.find f = previous.columns.find f ∧
      ∃ s, previous.columns.find f = some s := by
  have ho := (compared_columns target previous).from_only f g hm
  rw [keysOf_only, List.mem_filter, decide_eq_true_eq, TableMetadata.not_mem_columnFields,
    TableMetadata.mem_columnFields] at ho
  obtain ⟨⟨s, hs⟩, ht⟩ := ho
  have hgone := find_renamedTable_of_gone h previous ht
  rw [hs] at hgone
  split at hgone
  · simp at hgone
  · rename_i hnot
    exact ⟨ht, hnot, hs.trans hgone, s, hgone.symm⟩

theorem guessed_to (h : ColumnRenamesChecked target)
    (hm : (f, g) ∈ (columnComparison target previous).rename) :
    target.columns.has g = true ∧ (renamedTable target previous).columns.find g = none ∧
      previous.columns.find g = none := by
  have ho := (compared_columns target previous).to_only f g hm
  rw [keysOf_only, List.mem_filter, decide_eq_true_eq, TableMetadata.not_mem_columnFields,
    TableMetadata.mem_columnFields] at ho
  obtain ⟨ht, hs⟩ := ho
  have hg := Record.has_eq_true.mpr ht
  refine ⟨hg, hs, ?_⟩
  by_contra hp
  have hkept := find_renamedTable_of_kept h hg (Option.isSome_iff_ne_none.mpr hp)
  exact hp (hkept.symm.trans hs)

theorem mem_allRenames (h : ColumnRenamesChecked target)
    (hm : (f, g) ∈ allRenames target previous) :
    (∃ s, previous.columns.find f = some s) ∧ target.columns.find f = none ∧
      target.columns.has g = true ∧ previous.columns.find g = none := by
  rcases List.mem_append.mp hm with hm | hm
  · obtain ⟨hf, -, -, hs⟩ := guessed_from h hm
    obtain ⟨hg, -, hp⟩ := guessed_to h hm
    exact ⟨hs, hf, hg, hp⟩
  · obtain ⟨hd, hf, hg⟩ := (mem_getColumnRenames h).mp hm
    obtain ⟨ht, hn⟩ := h.free g f hd
    exact ⟨Record.has_eq_true.mp hf, hn, ht, Record.has_eq_false.mp hg⟩

theorem renaming_allRenames (h : ColumnRenamesChecked target) (previous : TableMetadata) :
    Renaming (allRenames target previous) where
  from_nodup := by
    rw [allRenames, List.map_append, List.nodup_append]
    refine ⟨(compared_columns target previous).from_nodup,
      (renaming_getColumnRenames h previous).from_nodup, ?_⟩
    rintro f hf g hg rfl
    obtain ⟨⟨f, g⟩, hm, rfl⟩ := List.mem_map.mp hf
    exact (guessed_from h hm).2.1 hg
  to_nodup := by
    rw [allRenames, List.map_append, List.nodup_append]
    refine ⟨(compared_columns target previous).to_nodup,
      (renaming_getColumnRenames h previous).to_nodup, ?_⟩
    rintro f hf g hg rfl
    obtain ⟨⟨f, g⟩, hm, rfl⟩ := List.mem_map.mp hf
    obtain ⟨⟨p, c⟩, hd, rfl : c = g⟩ := List.mem_map.mp hg
    -- The column declared to be renamed is one the renamed table has.
    obtain ⟨hc, hp, -⟩ := (mem_getColumnRenames h).mp hd
    have hto := (renaming_getColumnRenames h previous).foldl_move_to previous.columns.find hd
    rw [← find_renamedTable h, (guessed_to h hm).2.1] at hto
    rw [Record.has, ← hto] at hp
    simp at hp
  disjoint k hf ht := by
    obtain ⟨⟨f, g⟩, hm, rfl⟩ := List.mem_map.mp hf
    obtain ⟨⟨p, c⟩, hd, hk : c = f⟩ := List.mem_map.mp ht
    obtain ⟨⟨s, hs⟩, -, -, -⟩ := mem_allRenames h hm
    obtain ⟨-, -, -, hc⟩ := mem_allRenames h hd
    simp [hk, hs] at hc

end Renames

end Ez4.Migration

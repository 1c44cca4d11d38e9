import Ez4.Migration.TableDiff

/-! # Running the statements of one table

What the statements on the columns of a table do to them in each step, and the
columns the table ends with. -/

namespace Ez4.Migration
open Ez4.Library Ez4.Utils

/-! ## Statements that alter one table -/

/-- The table whose columns a query alters. -/
def Query.altered : Query → Option String
  | addColumns table _ | alterColumn table _ _ | renameColumn table _ _ | dropColumns table _ =>
    some table
  | createTable _ _ | renameTable _ _ | dropTable _ => none

/-- The statement looks at the columns of a table, and at nothing else. -/
structure Statement.Alters (s : Statement) (table : String) : Prop where
  query : s.query.altered = some table
  check : ∀ t column, s.check = some (.columnMissing t column) → t = table

/-- What the statement does to the columns of the table it alters. -/
def Statement.alter (s : Statement) (columns : Columns) : Option Columns :=
  match s.check with
  | some (.columnMissing _ column) =>
    if (columns column).isNone then some columns else s.query.alter columns
  | none => s.query.alter columns

def alterAll (statements : List Statement) (columns : Columns) : Option Columns :=
  statements.foldlM (fun columns s => s.alter columns) columns

theorem alterAll_append (statements rest : List Statement) (columns : Columns) :
    alterAll (statements ++ rest) columns = (alterAll statements columns).bind (alterAll rest) :=
  List.foldlM_append

theorem Query.exec_of_altered {q : Query} {table : String} (h : q.altered = some table)
    {catalog : Catalog} {columns : Columns} (hc : catalog table = some columns) :
    q.exec catalog = (q.alter columns).map fun c => put catalog table (some c) := by
  cases q <;> simp only [altered, Option.some.injEq, reduceCtorEq] at h <;>
    subst h <;> simp only [exec, hc]

theorem Statement.exec_of_alters {s : Statement} {table : String} (h : s.Alters table)
    {catalog : Catalog} {columns : Columns} (hc : catalog table = some columns) :
    s.exec catalog = (s.alter columns).map fun c => put catalog table (some c) := by
  have hquery := Query.exec_of_altered h.query hc
  unfold exec alter
  cases hs : s.check with
  | none => exact hquery
  | some check =>
    obtain ⟨t, column⟩ := check
    obtain rfl : t = table := h.check t column hs
    simp only [Check.finds, hc, Option.bind_some]
    split
    · rw [Option.map_some, ← hc, put_eq_self]
    · exact hquery

theorem runStatements_cons (s : Statement) (rest : List Statement) (catalog : Catalog) :
    runStatements (s :: rest) catalog = (s.exec catalog).bind (runStatements rest) := rfl

theorem runStatements_append (statements rest : List Statement) (catalog : Catalog) :
    runStatements (statements ++ rest) catalog =
      (runStatements statements catalog).bind (runStatements rest) := List.foldlM_append

/-- Statements that alter one table leave the others as they are. -/
theorem runStatements_of_alters {statements : List Statement} {table : String}
    (h : ∀ s ∈ statements, s.Alters table) {catalog : Catalog} {columns : Columns}
    (hc : catalog table = some columns) :
    runStatements statements catalog =
      (alterAll statements columns).map fun c => put catalog table (some c) := by
  induction statements generalizing catalog columns with
  | nil =>
    change some catalog = some (put catalog table (some columns))
    rw [← hc, put_eq_self]
  | cons s rest ih =>
    have hs := Statement.exec_of_alters (h s List.mem_cons_self) hc
    rw [runStatements_cons, hs]
    change _ = Option.map _ ((s.alter columns).bind (alterAll rest))
    cases s.alter columns with
    | none => rfl
    | some c =>
      rw [Option.map_some, Option.bind_some, Option.bind_some,
        ih (fun s hs => h s (List.mem_cons_of_mem _ hs)) (put_self catalog table (some c))]
      simp only [put_put]

/-! ## Each kind of statement -/

/-- The columns that a table describes. -/
def TableMetadata.described (t : TableMetadata) : Columns :=
  fun c => (t.columns.find c).map AnySchema.column

theorem columnDefinition_column (indexes : Record TableIndex)
    (timestamps : Option TableTimestamps) (f : String × AnySchema) :
    (columnDefinition indexes timestamps f).column = f.2.column := by
  simp [columnDefinition, ColumnDefinition.column, stored_getColumnType, AnySchema.column]

/-- Columns created under free names are the ones described. -/
theorem foldl_addColumn (indexes : Record TableIndex) (timestamps : Option TableTimestamps)
    {l : List (String × AnySchema)} (hn : (keysOf l).Nodup) {columns : Columns}
    (hfree : ∀ k ∈ keysOf l, columns k = none) (k : String) :
    (l.map (columnDefinition indexes timestamps)).foldl addColumn columns k =
      ((find l k).map AnySchema.column).or (columns k) := by
  induction l generalizing columns with
  | nil => rfl
  | cons f rest ih =>
    simp only [keysOf, List.map_cons, List.nodup_cons, List.mem_cons, forall_eq_or_imp] at hn hfree
    have hadd : addColumn columns (columnDefinition indexes timestamps f) =
        put columns f.1 (some f.2.column) := by
      rw [addColumn, columnDefinition_column]
      exact if_neg (by rw [columnDefinition, hfree.1]; simp)
    rw [List.map_cons, List.foldl_cons, hadd, ih hn.2, find_cons, put_apply]
    · by_cases hk : f.1 = k
      · subst hk
        rw [find_eq_none.mpr hn.1, if_pos rfl, if_pos rfl]
        rfl
      · rw [if_neg hk, if_neg (Ne.symm hk)]
    · intro j hj
      have hne : j ≠ f.1 := by rintro rfl; exact hn.1 hj
      rw [put_of_ne _ _ _ hne]
      exact hfree.2 j hj

/-- Renames from columns there to free names are all made. -/
theorem alterAll_prepareRename (table : String) {renames : List (String × String)}
    (h : Renaming renames) {columns : Columns}
    (hr : ∀ r ∈ renames, (∃ c, columns r.1 = some c) ∧ columns r.2 = none) :
    alterAll (ColumnQuery.prepareRename table renames) columns =
      some (renames.foldl move columns) := by
  induction renames generalizing columns with
  | nil => rfl
  | cons r rest ih =>
    obtain ⟨⟨c, hc⟩, hfree⟩ := hr r List.mem_cons_self
    have hs : (⟨some (.columnMissing table r.1), .renameColumn table r.1 r.2⟩ : Statement).alter
        columns = some (move columns r) := by
      simp [Statement.alter, Query.alter, hc, hfree, move]
    change Option.bind (Statement.alter _ columns)
      (alterAll (ColumnQuery.prepareRename table rest)) = _
    rw [hs, Option.bind_some, List.foldl_cons]
    refine ih h.tail fun q hq => ?_
    obtain ⟨h₁, h₂, h₃, h₄⟩ := h.ne_of_mem_tail (f := q.1) (g := q.2) hq
    rw [move_of_ne _ h₁ h₂, move_of_ne _ h₃ h₄]
    exact hr q (List.mem_cons_of_mem _ hq)

/-- The update of a column of the table, if there is one. -/
def columnUpdate (t : TableMetadata) (changes : List (String × ObjectComparison)) (k : String) :
    Option ColumnAlteration :=
  (find changes k).bind fun c => (t.columns.find k).map fun schema =>
    ColumnQuery.alteration t.indexes t.timestamps k schema c

/-- The columns with their updates made. -/
def updatedColumns (t : TableMetadata) (changes : List (String × ObjectComparison))
    (columns : Columns) : Columns := fun k =>
  match columnUpdate t changes k with
  | some a => (columns k).map a.apply
  | none => columns k

theorem columnUpdate_nil (t : TableMetadata) (k : String) : columnUpdate t [] k = none := rfl

theorem columnUpdate_cons (t : TableMetadata) (f : String × ObjectComparison)
    (rest : List (String × ObjectComparison)) (k : String) :
    columnUpdate t (f :: rest) k =
      if f.1 = k then columnUpdate t [f] k else columnUpdate t rest k := by
  simp only [columnUpdate, find_cons, find_nil]
  split <;> rfl

theorem columnUpdate_of_not_mem (t : TableMetadata) {changes : List (String × ObjectComparison)}
    {k : String} (h : k ∉ keysOf changes) : columnUpdate t changes k = none := by
  rw [columnUpdate, find_eq_none.mpr h]
  rfl

theorem updatedColumns_cons (t : TableMetadata) {f : String × ObjectComparison}
    {rest : List (String × ObjectComparison)} (hf : f.1 ∉ keysOf rest) (columns : Columns) :
    updatedColumns t (f :: rest) columns = updatedColumns t rest (updatedColumns t [f] columns) := by
  funext k
  unfold updatedColumns
  by_cases hk : f.1 = k
  · subst hk
    rw [columnUpdate_cons, if_pos rfl, columnUpdate_of_not_mem t hf]
  · rw [columnUpdate_cons, if_neg hk, columnUpdate_cons t f [], if_neg hk,
      columnUpdate_nil]

/-- The update of one column, at that column. -/
theorem updatedColumns_singleton (t : TableMetadata) (f : String × ObjectComparison)
    (columns : Columns) :
    updatedColumns t [f] columns = match t.columns.find f.1 with
      | some schema => put columns f.1 ((columns f.1).map
        (ColumnQuery.alteration t.indexes t.timestamps f.1 schema f.2).apply)
      | none => columns := by
  funext k
  unfold updatedColumns
  rw [columnUpdate_cons]
  by_cases hk : f.1 = k
  · subst hk
    cases hs : t.columns.find f.1 <;> simp [columnUpdate, find_cons, hs]
  · rw [if_neg hk, columnUpdate_nil]
    cases t.columns.find f.1 <;> simp [put_apply, Ne.symm hk]

/-- A column without a statement needs none. -/
theorem updatedColumns_of_empty (t : TableMetadata) {f : String × ObjectComparison}
    {schema : AnySchema} (hs : t.columns.find f.1 = some schema)
    (h : (ColumnQuery.alteration t.indexes t.timestamps f.1 schema f.2).empty = true)
    (columns : Columns) : updatedColumns t [f] columns = columns := by
  rw [updatedColumns_singleton, hs]
  have hid : (ColumnQuery.alteration t.indexes t.timestamps f.1 schema f.2).apply = id :=
    funext (apply_of_empty h)
  simp only [hid, Option.map_id, id, put_eq_self]

theorem alter_alterColumn (table column : String) (a : ColumnAlteration) (columns : Columns) :
    (⟨some (.columnMissing table column), .alterColumn table column a⟩ : Statement).alter columns =
      some (put columns column ((columns column).map a.apply)) := by
  cases hc : columns column with
  | none =>
    simp only [Statement.alter, hc, Option.isNone_none, if_true, Option.map_none]
    rw [← hc, put_eq_self]
  | some c => simp [Statement.alter, Query.alter, hc]

/-- Each update alters the column of its name. -/
theorem alterAll_prepareUpdate (table : String) (t : TableMetadata)
    {changes : List (String × ObjectComparison)} (hn : (keysOf changes).Nodup) (columns : Columns) :
    alterAll (ColumnQuery.prepareUpdate table t.schema t.indexes changes t.timestamps) columns =
      some (updatedColumns t changes columns) := by
  induction changes generalizing columns with
  | nil => rfl
  | cons f rest ih =>
    simp only [keysOf, List.map_cons, List.nodup_cons] at hn
    rw [updatedColumns_cons t hn.1, ← ih hn.2]
    unfold ColumnQuery.prepareUpdate
    rw [List.filterMap_cons]
    cases hs : t.columns.find f.1 with
    | none =>
      rw [updatedColumns_singleton, hs]
      simp only [hs, Option.bind_none]
    | some schema =>
      by_cases he : (ColumnQuery.alteration t.indexes t.timestamps f.1 schema f.2).empty = true
      · rw [updatedColumns_of_empty t hs he]
        simp only [hs, Option.bind_some, he, if_true]
      · simp only [hs, Option.bind_some, he, Bool.false_eq_true, if_false]
        change Option.bind (Statement.alter _ columns) _ = _
        rw [alter_alterColumn, Option.bind_some, updatedColumns_singleton, hs]
        rfl

/-! ## The columns step by step -/

variable (target previous : TableMetadata)

/-- The columns after `prepare`. -/
def preparedColumns : Columns := fun k =>
  if k ∈ keysOf (columnComparison target previous).create then target.described k
  else previous.described k

/-- The columns after `rollout`. -/
def rolledColumns : Columns :=
  updatedColumns target (columnComparison target previous).nested
    ((allRenames target previous).foldl move (preparedColumns target previous))

/-- The columns after `cleanup`. -/
def cleanedColumns : Columns := fun k =>
  if k ∈ keysOf (columnComparison target previous).remove then none
  else rolledColumns target previous k

/-- The columns created are those that neither table had, by any name. -/
theorem mem_created {k : String} :
    k ∈ keysOf (columnComparison target previous).create ↔ target.columns.has k = true ∧
      (renamedTable target previous).columns.find k = none ∧
      k ∉ (columnComparison target previous).rename.map Prod.snd := by
  rw [(compared_columns target previous).mem_create, TableMetadata.mem_columnFields,
    TableMetadata.not_mem_columnFields, Record.has_eq_true]

variable {target previous}

theorem previous_of_created (h : ColumnRenamesChecked target) {k : String}
    (hk : k ∈ keysOf (columnComparison target previous).create) :
    previous.columns.find k = none := by
  obtain ⟨ht, hs, -⟩ := (mem_created target previous).mp hk
  by_contra hp
  exact hp ((find_renamedTable_of_kept h ht (Option.isSome_iff_ne_none.mpr hp)).symm.trans hs)

theorem alterAll_prepare (h : ColumnRenamesChecked target) (table : String)
    (source : TableMetadata) :
    alterAll (columnSteps table target source (columnDiff target previous)).prepare
      previous.described = some (preparedColumns target previous) := by
  have hfind : ∀ k, find (declared target.schema (columnComparison target previous).create) k =
      if k ∈ keysOf (columnComparison target previous).create then target.columns.find k
      else none := by
    intro k
    rw [declared, find_filter_keys _ fun j =>
      decide (j ∈ keysOf (columnComparison target previous).create)]
    simp only [decide_eq_true_eq]
    rfl
  have hn : (keysOf (declared target.schema (columnComparison target previous).create)).Nodup := by
    rw [declared, keysOf_filter _ fun j =>
      decide (j ∈ keysOf (columnComparison target previous).create)]
    exact target.schema.properties.nodup.filter _
  unfold columnSteps
  by_cases hc : (columnDiff target previous).create = []
  · have hnone : (columnComparison target previous).create = [] := hc
    simp only [hc, if_true]
    change some _ = some _
    rw [Option.some.injEq]
    funext k
    simp [preparedColumns, hnone, keysOf]
  · simp only [hc, if_false]
    change some _ = some _
    rw [Option.some.injEq]
    funext k
    refine (foldl_addColumn _ _ hn (fun j hj => ?_) k).trans ?_
    · obtain ⟨s, hs⟩ := mem_keysOf_iff.mp hj
      rw [hfind, Option.ite_none_right_eq_some] at hs
      rw [TableMetadata.described, previous_of_created h hs.1]
      rfl
    · rw [hfind, preparedColumns]
      split
      · rename_i hk
        rw [TableMetadata.described, TableMetadata.described, previous_of_created h hk]
        exact Option.or_none
      · rfl

/-- Each column renamed is there, and its new name is free. -/
theorem preparedColumns_of_rename (h : ColumnRenamesChecked target) {f g : String}
    (hm : (f, g) ∈ allRenames target previous) :
    preparedColumns target previous f = previous.described f ∧
      (∃ c, preparedColumns target previous f = some c) ∧
      preparedColumns target previous g = none := by
  obtain ⟨⟨s, hs⟩, hf, hg, hp⟩ := mem_allRenames h hm
  have hfrom : preparedColumns target previous f = previous.described f := by
    rw [preparedColumns, if_neg]
    intro hk
    have := ((mem_created target previous).mp hk).1
    rw [Record.has_eq_true, hf] at this
    simp at this
  have hto : g ∉ keysOf (columnComparison target previous).create := by
    rw [mem_created]
    rintro ⟨-, hn, hr⟩
    rcases List.mem_append.mp hm with hm | hm
    · exact hr (List.mem_map_of_mem hm)
    · have := (renaming_getColumnRenames h previous).foldl_move_to previous.columns.find hm
      rw [← find_renamedTable h, hn, hs] at this
      simp at this
  refine ⟨hfrom, ⟨s.column, ?_⟩, ?_⟩
  · rw [hfrom, TableMetadata.described, hs, Option.map_some]
  · rw [preparedColumns, if_neg hto, TableMetadata.described, hp, Option.map_none]

theorem alterAll_rollout (h : ColumnRenamesChecked target) (table : String)
    (source : TableMetadata) :
    alterAll (columnSteps table target source (columnDiff target previous)).rollout
      (preparedColumns target previous) = some (rolledColumns target previous) := by
  have hrename : alterAll (ColumnQuery.prepareRename table (allRenames target previous))
      (preparedColumns target previous) = _ :=
    alterAll_prepareRename table (renaming_allRenames h previous) fun r hr =>
      (preparedColumns_of_rename h hr).2
  have hn := (compared_columns target previous).nodup_nested target.defined_columnFields
  change alterAll (ColumnQuery.prepareRename table (allRenames target previous) ++
    ColumnQuery.prepareUpdate table target.schema target.indexes
      (columnComparison target previous).nested target.timestamps) _ = _
  rw [alterAll_append, hrename, Option.bind_some, alterAll_prepareUpdate table target hn]
  rfl

theorem alterAll_cleanup (table : String) (source : TableMetadata) :
    alterAll (columnSteps table target source (columnDiff target previous)).cleanup
      (rolledColumns target previous) = some (cleanedColumns target previous) := by
  unfold columnSteps
  by_cases hc : (columnDiff target previous).remove = []
  · have hnone : (columnComparison target previous).remove = [] := hc
    simp only [hc, if_true]
    change some _ = some _
    rw [Option.some.injEq]
    funext k
    simp [cleanedColumns, hnone, keysOf]
  · simp only [hc, if_false]
    rfl

/-! ## The columns at the end -/

/-- The column that a column of the target is guessed to be. -/
def guessedColumn (target previous : TableMetadata) (column : String) : Option AnySchema :=
  ((columnComparison target previous).rename.find? (·.2 = column)).bind fun r =>
    previous.columns.find r.1

/-- The column that a column of the target was by declaration, or by name. -/
def keptFrom (target previous : TableMetadata) (column : String) : Option AnySchema :=
  (renamedTable target previous).columns.find column

/-- What a column of the target becomes: a guessed rename leaves it as it was,
and only a column compared under its name is updated. -/
def endColumn (target previous : TableMetadata) (column : String) (schema : AnySchema) : Column :=
  match guessedColumn target previous column, keptFrom target previous column with
  | some old, _ => old.column
  | none, some old => keptColumn schema old (columnIsPrimary target.indexes column)
  | none, none => schema.column

theorem guessedColumn_of_mem {f g : String}
    (hm : (f, g) ∈ (columnComparison target previous).rename) :
    guessedColumn target previous g = previous.columns.find f := by
  have hfind : (columnComparison target previous).rename.find? (·.2 = g) = some (f, g) :=
    KeyedMap.find?_of_mem (compared_columns target previous).to_nodup hm
  rw [guessedColumn, hfind]
  rfl

theorem guessedColumn_of_not_mem {g : String}
    (hg : g ∉ (columnComparison target previous).rename.map Prod.snd) :
    guessedColumn target previous g = none := by
  rw [guessedColumn, List.find?_eq_none.mpr, Option.bind_none]
  rintro r hr he
  exact hg (of_decide_eq_true he ▸ List.mem_map_of_mem hr)

/-- The columns once renamed, at a column that is not renamed. -/
theorem foldl_move_kept {k : String} (hf : k ∉ (allRenames target previous).map Prod.fst)
    (ht : k ∉ (allRenames target previous).map Prod.snd) :
    (allRenames target previous).foldl move (preparedColumns target previous) k =
      preparedColumns target previous k := Renaming.foldl_move_of_not_mem _ hf ht

theorem foldl_move_renamed (h : ColumnRenamesChecked target) {f g : String}
    (hm : (f, g) ∈ allRenames target previous) :
    (allRenames target previous).foldl move (preparedColumns target previous) g =
      previous.described f := by
  rw [(renaming_allRenames h previous).foldl_move_to _ hm, (preparedColumns_of_rename h hm).1]

theorem not_renamed_of_target (h : ColumnRenamesChecked target) {k : String}
    (ht : target.columns.has k = true) : k ∉ (allRenames target previous).map Prod.fst := by
  intro hm
  obtain ⟨⟨f, g⟩, hfg, rfl⟩ := List.mem_map.mp hm
  rw [Record.has, (mem_allRenames h hfg).2.1] at ht
  simp at ht

/-- A column of the previous table kept, or renamed as declared, is there before its update. -/
theorem foldl_move_keptFrom (h : ColumnRenamesChecked target) {k : String} {old : AnySchema}
    (ht : target.columns.has k = true) (hg : k ∉ (columnComparison target previous).rename.map Prod.snd)
    (hk : keptFrom target previous k = some old) :
    (allRenames target previous).foldl move (preparedColumns target previous) k =
      some old.column := by
  have hold : (renamedTable target previous).columns.find k = some old := hk
  by_cases hd : k ∈ (getColumnRenames target previous).map Prod.snd
  · obtain ⟨⟨p, c⟩, hpc, rfl⟩ := List.mem_map.mp hd
    have hto := (renaming_getColumnRenames h previous).foldl_move_to previous.columns.find hpc
    rw [← find_renamedTable h, hold] at hto
    rw [foldl_move_renamed h (List.mem_append_right _ hpc), TableMetadata.described, ← hto]
    rfl
  · have hall : k ∉ (allRenames target previous).map Prod.snd := by
      rw [allRenames, List.map_append, List.mem_append, not_or]
      exact ⟨hg, hd⟩
    have hcreate : k ∉ keysOf (columnComparison target previous).create := by
      rw [mem_created, hold]
      simp
    have hp : previous.columns.find k = some old := by
      rw [find_renamedTable h, Renaming.foldl_move_of_not_mem _ _ hd] at hold
      · exact hold
      · exact fun hm => not_renamed_of_target h ht
          (by rw [allRenames, List.map_append]; exact List.mem_append_right _ hm)
    rw [foldl_move_kept (not_renamed_of_target h ht) hall, preparedColumns, if_neg hcreate,
      TableMetadata.described, hp]
    rfl

/-- The update of a column kept. -/
theorem updatedColumns_keptFrom {k : String} {new old : AnySchema} {columns : Columns}
    (ht : target.columns.find k = some new) (hk : keptFrom target previous k = some old)
    (hc : columns k = some old.column) :
    updatedColumns target (columnComparison target previous).nested columns k =
      some (keptColumn new old (columnIsPrimary target.indexes k)) := by
  have hnested := (compared_columns target previous).find_nested_obj target.defined_columnFields
    (k := k) (t := new.toFields) (s := old.toFields)
    (by rw [TableMetadata.find_columnFields, ht]; rfl)
    (by rw [TableMetadata.find_columnFields]; exact congrArg _ hk)
  rw [at_repositoryOptions] at hnested
  change find _ k = if 0 < (new.changes old).counts then some (new.changes old) else none at hnested
  rw [updatedColumns, columnUpdate, hnested]
  by_cases hpos : 0 < (new.changes old).counts
  · rw [if_pos hpos, Option.bind_some, ht, Option.map_some]
    change (columns k).map _ = _
    rw [hc, Option.map_some, alteration_apply]
  · rw [if_neg hpos]
    change columns k = _
    rw [hc, keptColumn_of_counts new old hpos]

/-- A column that only one table has is not updated. -/
theorem updatedColumns_of_none {k : String} (columns : Columns)
    (hk : target.columns.find k = none ∨ keptFrom target previous k = none) :
    updatedColumns target (columnComparison target previous).nested columns k = columns k := by
  have hnested := (compared_columns target previous).find_nested_of_none
    target.defined_columnFields (k := k) (by
      rw [TableMetadata.find_columnFields, TableMetadata.find_columnFields, Option.map_eq_none_iff,
        Option.map_eq_none_iff]
      exact hk)
  rw [updatedColumns, columnUpdate, hnested]
  rfl

theorem mem_removed {k : String} :
    k ∈ keysOf (columnComparison target previous).remove ↔ target.columns.find k = none ∧
      k ∉ (columnComparison target previous).rename.map Prod.fst ∧
      ∃ s, (renamedTable target previous).columns.find k = some s := by
  rw [(compared_columns target previous).mem_remove, TableMetadata.mem_columnFields,
    TableMetadata.not_mem_columnFields]
  tauto

/-- **The table ends with the columns of the target.** -/
theorem cleanedColumns_eq (h : ColumnRenamesChecked target) (previous : TableMetadata) (k : String) :
    cleanedColumns target previous k =
      (target.columns.find k).map (endColumn target previous k) := by
  unfold cleanedColumns rolledColumns
  cases ht : target.columns.find k with
  | none =>
    rw [updatedColumns_of_none _ (Or.inl ht), Option.map_none]
    split
    · rfl
    · rename_i hr
      by_cases hf : k ∈ (allRenames target previous).map Prod.fst
      · exact (renaming_allRenames h previous).foldl_move_from _ hf
      · have hto : k ∉ (allRenames target previous).map Prod.snd := fun hm => by
          obtain ⟨⟨f, g⟩, hfg, rfl⟩ := List.mem_map.mp hm
          have := (mem_allRenames h hfg).2.2.1
          rw [Record.has_eq_true, ht] at this
          simp at this
        have hcreate : k ∉ keysOf (columnComparison target previous).create := by
          rw [mem_created, Record.has_eq_true, ht]
          simp
        rw [allRenames, List.map_append, List.mem_append, not_or] at hf
        have hgone := find_renamedTable_of_gone h previous ht
        rw [if_neg hf.2] at hgone
        rw [foldl_move_kept (by rw [allRenames, List.map_append, List.mem_append, not_or]; exact hf)
          hto, preparedColumns, if_neg hcreate, TableMetadata.described, ← hgone]
        rw [mem_removed] at hr
        simp only [ht, hf.1, not_false_eq_true, true_and, not_exists] at hr
        rw [Option.eq_none_iff_forall_ne_some.mpr hr, Option.map_none]
  | some new =>
    have hhas : target.columns.has k = true := Record.has_eq_true.mpr ⟨new, ht⟩
    have hr : k ∉ keysOf (columnComparison target previous).remove := by
      rw [mem_removed, ht]
      simp
    rw [if_neg hr, Option.map_some, endColumn]
    by_cases hg : k ∈ (columnComparison target previous).rename.map Prod.snd
    · -- The column is guessed to be another one.
      obtain ⟨⟨f, g⟩, hfg, rfl⟩ := List.mem_map.mp hg
      obtain ⟨-, hn, -⟩ := guessed_to h hfg
      obtain ⟨-, -, -, old, hold⟩ := guessed_from h hfg
      rw [updatedColumns_of_none _ (Or.inr hn), foldl_move_renamed h (List.mem_append_left _ hfg),
        TableMetadata.described, guessedColumn_of_mem hfg, hold]
      rfl
    · rw [guessedColumn_of_not_mem hg]
      cases hk : keptFrom target previous k with
      | some old => exact updatedColumns_keptFrom ht hk (foldl_move_keptFrom h hhas hg hk)
      | none =>
        -- The column is created.
        have hcreate : k ∈ keysOf (columnComparison target previous).create :=
          (mem_created target previous).mpr ⟨hhas, hk, hg⟩
        have hto : k ∉ (allRenames target previous).map Prod.snd := by
          rw [allRenames, List.map_append, List.mem_append, not_or]
          refine ⟨hg, fun hm => ?_⟩
          obtain ⟨⟨p, c⟩, hpc, rfl⟩ := List.mem_map.mp hm
          have := (renaming_getColumnRenames h previous).foldl_move_to previous.columns.find hpc
          rw [← find_renamedTable h] at this
          have hp := ((mem_getColumnRenames h).mp hpc).2.1
          rw [Record.has, ← this] at hp
          rw [keptFrom] at hk
          simp [hk] at hp
        rw [updatedColumns_of_none _ (Or.inr hk), foldl_move_kept (not_renamed_of_target h hhas) hto,
          preparedColumns, if_pos hcreate, TableMetadata.described, ht]
        rfl

/-! ## When that is what the target describes -/

/-- No column guessed to be renamed, and no column of the primary key, changes
whether it takes null. -/
structure NullityKept (target previous : TableMetadata) : Prop where
  guessed : ∀ c new old, target.columns.find c = some new →
    guessedColumn target previous c = some old → isOptionalColumn old = isOptionalColumn new
  primary : ∀ c new old, target.columns.find c = some new →
    keptFrom target previous c = some old → columnIsPrimary target.indexes c = true →
    isOptionalColumn old = isOptionalColumn new

/-- A guessed rename is one that `canRenameColumn` takes for a rename. -/
theorem guessedColumn_eq_some {k : String} {old : AnySchema} (h : ColumnRenamesChecked target)
    (hg : guessedColumn target previous k = some old) :
    ∃ f, (f, k) ∈ (columnComparison target previous).rename ∧
      (renamedTable target previous).columns.find f = some old := by
  obtain ⟨⟨f, g⟩, hr, hold⟩ := Option.bind_eq_some_iff.mp hg
  obtain rfl : g = k := by simpa using List.find?_some hr
  have hm := List.mem_of_find?_eq_some hr
  exact ⟨f, hm, (guessed_from h hm).2.2.1.trans hold⟩

theorem getColumnType_of_guessed (h : ColumnRenamesChecked target) {k : String}
    {new old : AnySchema} (ht : target.columns.find k = some new)
    (hg : guessedColumn target previous k = some old) :
    getColumnType old false = getColumnType new false := by
  obtain ⟨f, hm, hf⟩ := guessedColumn_eq_some h hg
  have ha := (compared_columns target previous).accepted f k hm canRename rfl
  rw [get_eq, get_eq, TableMetadata.find_columnFields, TableMetadata.find_columnFields, ht, hf] at ha
  exact getColumnType_of_canRename new old ha

theorem endColumn_eq_iff (h : ColumnRenamesChecked target) {k : String} {new : AnySchema}
    (ht : target.columns.find k = some new) :
    endColumn target previous k new = new.column ↔
      (∀ old, guessedColumn target previous k = some old →
        isOptionalColumn old = isOptionalColumn new) ∧
      (∀ old, keptFrom target previous k = some old → columnIsPrimary target.indexes k = true →
        isOptionalColumn old = isOptionalColumn new) := by
  unfold endColumn
  cases hg : guessedColumn target previous k with
  | some old =>
    have htype := getColumnType_of_guessed h ht hg
    obtain ⟨f, hm, -⟩ := guessedColumn_eq_some h hg
    have hk : keptFrom target previous k = none := (guessed_to h hm).2.1
    simp [AnySchema.column, htype, hk]
  | none =>
    cases hk : keptFrom target previous k with
    | none => simp
    | some old =>
      cases columnIsPrimary target.indexes k <;> simp [keptColumn, AnySchema.column]

/-- The table ends as described when the nullability is kept where no statement changes it. -/
theorem cleanedColumns_eq_described_iff (h : ColumnRenamesChecked target)
    (previous : TableMetadata) :
    cleanedColumns target previous = target.described ↔ NullityKept target previous := by
  have hk : ∀ k, cleanedColumns target previous k = target.described k ↔
      ∀ new, target.columns.find k = some new → endColumn target previous k new = new.column := by
    intro k
    rw [cleanedColumns_eq h, TableMetadata.described]
    cases target.columns.find k <;> simp
  rw [funext_iff]
  constructor
  · intro he
    refine ⟨fun c new old ht hg => ?_, fun c new old ht hc hp => ?_⟩
    · exact ((endColumn_eq_iff h ht).mp ((hk c).mp (he c) new ht)).1 old hg
    · exact ((endColumn_eq_iff h ht).mp ((hk c).mp (he c) new ht)).2 old hc hp
  · intro hn k
    refine (hk k).mpr fun new ht => (endColumn_eq_iff h ht).mpr ⟨fun old hg => ?_, fun old hc hp => ?_⟩
    · exact hn.guessed k new old ht hg
    · exact hn.primary k new old ht hc hp

end Ez4.Migration

import Ez4.Migration.TableSteps

/-! # Running a migration

The steps run one after the other on the tables of the source. Each statement
goes by the name the table has when it runs, as long as a table that is
renamed, or altered after its columns are created, is stored under its key
(`Addressed`). -/

namespace Ez4.Migration
open Ez4.Library Ez4.Utils

/-! ## Tables under their stored names -/

/-- The tables that a repository describes, under the names they are stored with. -/
def describedTables (repository : TableRepository) : Catalog := fun name =>
  (repository.values.find? fun f => f.2.name = name).map fun f => f.2.described

/-- No two tables of a repository are stored under one name. -/
def StoredOnce (repository : TableRepository) : Prop :=
  ∀ t u m n, repository.find t = some m → repository.find u = some n → m.name = n.name → t = u

/-- No statement renames, alters or drops a column of the table. -/
def Untouched (target previous : TableMetadata) : Prop :=
  ∀ c old, previous.columns.find c = some old → ∃ new, target.columns.find c = some new ∧
    (ColumnQuery.alteration target.indexes target.timestamps c new (new.changes old)).empty = true

/-- Every statement goes by a name of the table it is for. -/
structure Addressed (target source : TableRepository) : Prop where
  target_once : StoredOnce target
  source_once : StoredOnce source
  created : ∀ t m p s, target.find t = some m → tableBefore target source t m = none →
    source.find p = some s → s.name ≠ m.name
  renamed : ∀ t m p s, target.find t = some m → tableBefore target source t m = some (p, s) →
    p ≠ t → s.name = p ∧ m.name = t ∧ ∀ q r, source.find q = some r → r.name ≠ t
  kept : ∀ t m s, target.find t = some m → tableBefore target source t m = some (t, s) →
    m.name = s.name ∧ (m.name = t ∨ Untouched m s)

section Stored

variable {repository : TableRepository} {t : String} {m : TableMetadata}

theorem StoredOnce.nodup (h : StoredOnce repository) :
    (repository.values.map fun f => f.2.name).Nodup := by
  refine List.Nodup.map_on (fun f hf g hg he => ?_) repository.nodup.of_map
  have h₁ := find_of_mem repository.nodup hf
  have h₂ := find_of_mem repository.nodup hg
  have hk : f.1 = g.1 := h f.1 g.1 f.2 g.2 h₁ h₂ he
  exact Prod.ext hk (Option.some.inj (h₁.symm.trans (hk ▸ h₂)))

theorem describedTables_of_find (h : StoredOnce repository) (ht : repository.find t = some m) :
    describedTables repository m.name = some m.described := by
  have hfind : repository.values.find? (fun f => f.2.name = m.name) = some (t, m) :=
    KeyedMap.find?_of_mem h.nodup (mem_of_find ht)
  rw [describedTables, hfind]
  rfl

theorem describedTables_eq_none {name : String}
    (h : ∀ t m, repository.find t = some m → m.name ≠ name) :
    describedTables repository name = none := by
  rw [describedTables, Option.map_eq_none_iff, List.find?_eq_none]
  intro f hf he
  exact h f.1 f.2 (find_of_mem repository.nodup hf) (of_decide_eq_true he)

end Stored

/-! ## Statements one after the other -/

theorem runStatements_map {ι : Type} (l : List ι) (f : ι → Statement) (catalog : Catalog) :
    runStatements (l.map f) catalog = l.foldlM (fun catalog i => (f i).exec catalog) catalog :=
  List.foldlM_map

theorem runStatements_flatMap {ι : Type} (l : List ι) (f : ι → List Statement)
    (catalog : Catalog) :
    runStatements (l.flatMap f) catalog =
      l.foldlM (fun catalog i => runStatements (f i) catalog) catalog := by
  induction l generalizing catalog with
  | nil => rfl
  | cons i rest ih =>
    rw [List.flatMap_cons, runStatements_append, List.foldlM_cons]
    cases runStatements (f i) catalog with
    | none => rfl
    | some c => exact ih c

/-- Renames from tables there to free names are all made. -/
theorem runStatements_prepareRename {renames : List (String × String)} (h : Renaming renames)
    {catalog : Catalog}
    (hr : ∀ r ∈ renames, (∃ c, catalog r.1 = some c) ∧ catalog r.2 = none) :
    runStatements (renames.map fun r => TableQuery.prepareRename r.1 r.2) catalog =
      some (renames.foldl move catalog) := by
  induction renames generalizing catalog with
  | nil => rfl
  | cons r rest ih =>
    obtain ⟨⟨c, hc⟩, hfree⟩ := hr r List.mem_cons_self
    have hs : (TableQuery.prepareRename r.1 r.2).exec catalog = some (move catalog r) := by
      simp [Statement.exec, TableQuery.prepareRename, Query.exec, hc, hfree, move]
    rw [List.map_cons, runStatements_cons, hs, Option.bind_some, List.foldl_cons]
    refine ih h.tail fun q hq => ?_
    obtain ⟨h₁, h₂, h₃, h₄⟩ := h.ne_of_mem_tail (f := q.1) (g := q.2) hq
    rw [move_of_ne _ h₁ h₂, move_of_ne _ h₃ h₄]
    exact hr q (List.mem_cons_of_mem _ hq)

/-- A table created under a free name has the columns described. -/
theorem exec_prepareCreate (m : TableMetadata) {catalog : Catalog} (h : catalog m.name = none) :
    (TableQuery.prepareCreate m.name m.schema m.indexes m.timestamps).exec catalog =
      some (put catalog m.name (some m.described)) := by
  have hcolumns : (m.schema.properties.values.map (columnDefinition m.indexes m.timestamps)).foldl
      addColumn (fun _ => none) = m.described := by
    funext k
    rw [foldl_addColumn _ _ m.schema.properties.nodup (fun _ _ => rfl), Option.or_none]
    rfl
  simp [Statement.exec, TableQuery.prepareCreate, Query.exec, h, hcolumns]

/-! ## Tables and the ones they were -/

variable {target source : TableRepository}

theorem find_of_tableBefore {t p : String} {m s : TableMetadata}
    (h : tableBefore target source t m = some (p, s)) : source.find p = some s := by
  unfold tableBefore at h
  split at h
  · rename_i previous hd
    obtain ⟨rfl, rfl⟩ := Prod.mk.inj (Option.some.inj h)
    exact hd
  · obtain ⟨r, -, hr⟩ := Option.bind_eq_some_iff.mp h
    obtain ⟨s', hs, he⟩ := Option.map_eq_some_iff.mp hr
    obtain ⟨rfl, rfl⟩ := Prod.mk.inj he
    exact hs

/-- A table renamed is no table of the target. -/
theorem not_target_of_renamed (hr : RenamesChecked target) {p t : String}
    (h : (p, t) ∈ allTableRenames target source) : target.find p = none := by
  rcases List.mem_append.mp h with h | h
  · exact (guessedTables_from hr h).1
  · exact not_target_of_declared hr (List.mem_map_of_mem (f := Prod.fst) h)

/-- No two tables of the target were one table. -/
theorem tableBefore_once (hr : RenamesChecked target) {t u p : String} {m n s s' : TableMetadata}
    (hm : target.find t = some m) (hn : target.find u = some n)
    (ht : tableBefore target source t m = some (p, s))
    (hu : tableBefore target source u n = some (p, s')) : t = u := by
  have hrenamed : ∀ {v : String} {l r : TableMetadata}, target.find v = some l →
      tableBefore target source v l = some (p, r) → p ≠ v → (p, v) ∈ allTableRenames target source :=
    fun hl hb hne => (mem_allTableRenames hr).mpr ⟨_, _, hl, hb, hne⟩
  by_cases hpt : p = t <;> by_cases hpu : p = u
  · exact hpt.symm.trans hpu
  · have := not_target_of_renamed hr (hrenamed hn hu hpu)
    rw [hpt, hm] at this
    simp at this
  · have := not_target_of_renamed hr (hrenamed hm ht hpt)
    rw [hpu, hn] at this
    simp at this
  · have h₁ := find_of_mem (renaming_allTableRenames source hr).from_nodup (hrenamed hm ht hpt)
    have h₂ := find_of_mem (renaming_allTableRenames source hr).from_nodup (hrenamed hn hu hpu)
    exact Option.some.inj (h₁.symm.trans h₂)

theorem tablePair_once (hr : RenamesChecked target) (ha : Addressed target source) {t u : String}
    {m n s r : TableMetadata} (ht : tablePair target source t = some (m, s))
    (hu : tablePair target source u = some (n, r)) (he : s.name = r.name) : t = u := by
  obtain ⟨hm, p, hb⟩ := tablePair_eq_some.mp ht
  obtain ⟨hn, q, hc⟩ := tablePair_eq_some.mp hu
  obtain rfl : p = q :=
    ha.source_once p q s r (find_of_tableBefore hb) (find_of_tableBefore hc) he
  exact tableBefore_once hr hm hn hb hc

/-! ## The statements of one table -/

theorem alters_prepare {table : String} {m previous : TableMetadata} {c : ObjectComparison} :
    ∀ s ∈ (columnSteps table m previous c).prepare, s.Alters previous.name := by
  intro s hs
  unfold columnSteps at hs
  split at hs
  · simp at hs
  · obtain rfl := List.mem_singleton.mp hs
    exact ⟨rfl, fun _ _ h => by simp [ColumnQuery.prepareCreate] at h⟩

theorem alters_rollout {table : String} {m previous : TableMetadata} {c : ObjectComparison} :
    ∀ s ∈ (columnSteps table m previous c).rollout, s.Alters table := by
  intro s hs
  rcases List.mem_append.mp hs with hs | hs
  · obtain ⟨r, -, rfl⟩ := List.mem_map.mp hs
    exact ⟨rfl, fun t column h => by
      obtain ⟨rfl, -⟩ := Check.columnMissing.inj (Option.some.inj h); rfl⟩
  · obtain ⟨f, -, hf⟩ := List.mem_filterMap.mp hs
    obtain ⟨schema, -, hf⟩ := Option.bind_eq_some_iff.mp hf
    simp only [Option.ite_none_left_eq_some, Option.some.injEq] at hf
    obtain ⟨-, rfl⟩ := hf
    exact ⟨rfl, fun t column h => by
      obtain ⟨rfl, -⟩ := Check.columnMissing.inj (Option.some.inj h); rfl⟩

theorem alters_cleanup {table : String} {m previous : TableMetadata} {c : ObjectComparison} :
    ∀ s ∈ (columnSteps table m previous c).cleanup, s.Alters table := by
  intro s hs
  simp only [columnSteps] at hs
  split at hs
  · simp at hs
  · obtain rfl := List.mem_singleton.mp hs
    exact ⟨rfl, fun _ _ h => by simp [ColumnQuery.prepareDelete] at h⟩

/-- A table that keeps its columns as they are has only columns created. -/
theorem columnSteps_of_untouched {m previous : TableMetadata} (hm : ColumnRenamesChecked m)
    (h : Untouched m previous) (table : String) :
    (columnSteps table m (renamedTable m previous) (columnDiff m previous)).rollout = [] ∧
      (columnSteps table m (renamedTable m previous) (columnDiff m previous)).cleanup = [] := by
  have hrename : allRenames m previous = [] := by
    refine List.eq_nil_iff_forall_not_mem.mpr fun r hr => ?_
    obtain ⟨⟨old, hold⟩, hnone, -⟩ := mem_allRenames hm (f := r.1) (g := r.2) hr
    obtain ⟨new, hnew, -⟩ := h r.1 old hold
    simp [hnone] at hnew
  have hdeclared : getColumnRenames m previous = [] := (List.append_eq_nil_iff.mp hrename).2
  have hsame : renamedTable m previous = previous := by
    rw [renamedTable, hdeclared, renameColumns_nil]
  have hremove : (columnComparison m previous).remove = [] := by
    refine List.eq_nil_iff_forall_not_mem.mpr fun f hf => ?_
    obtain ⟨hnone, -, old, hold⟩ := mem_removed.mp (mem_keysOf_of_mem (k := f.1) (a := f.2) hf)
    rw [hsame] at hold
    obtain ⟨new, hnew, -⟩ := h f.1 old hold
    simp [hnone] at hnew
  refine ⟨?_, if_pos hremove⟩
  change ColumnQuery.prepareRename table (allRenames m previous) ++ _ = []
  rw [hrename]
  change ColumnQuery.prepareUpdate table m.schema m.indexes (columnComparison m previous).nested
    m.timestamps = []
  refine List.filterMap_eq_nil_iff.mpr fun f hf => ?_
  have hcompared := compared_columns m previous
  have hfind := find_of_mem (hcompared.nodup_nested m.defined_columnFields) hf
  rw [hsame] at hcompared
  change (m.columns.find f.1).bind _ = none
  cases hnew : m.columns.find f.1 with
  | none => rfl
  | some new =>
    cases hold : previous.columns.find f.1 with
    | none =>
      rw [hcompared.find_nested_of_none m.defined_columnFields
        (Or.inr (by rw [TableMetadata.find_columnFields, hold]; rfl))] at hfind
      simp at hfind
    | some old =>
      rw [hcompared.find_nested_obj m.defined_columnFields (t := new.toFields) (s := old.toFields)
        (by rw [TableMetadata.find_columnFields, hnew]; rfl)
        (by rw [TableMetadata.find_columnFields, hold]; rfl), Option.ite_none_right_eq_some,
        Option.some.injEq] at hfind
      obtain ⟨new', hnew', hempty⟩ := h f.1 old hold
      obtain rfl : new = new' := Option.some.inj (hnew.symm.trans hnew')
      have hchanges : new.changes old = f.2 := hfind.2
      rw [hchanges] at hempty
      simp only [Option.bind_some, hempty, if_true]

/-- A table altered under its key is stored under it. -/
theorem name_or_untouched (ha : Addressed target source) {t : String} {m previous : TableMetadata}
    (hp : tablePair target source t = some (m, previous)) :
    m.name = t ∨ Untouched m previous := by
  obtain ⟨hm, p, hb⟩ := tablePair_eq_some.mp hp
  by_cases hpt : p = t
  · exact (ha.kept t m previous hm (hpt ▸ hb)).2
  · exact Or.inl (ha.renamed t m p previous hm hb hpt).2.1

section Table

variable {t : String} {m previous : TableMetadata}

theorem columnRenamesChecked_of_pair (hr : RenamesChecked target)
    (hp : tablePair target source t = some (m, previous)) : ColumnRenamesChecked m :=
  hr.columns t m (tablePair_eq_some.mp hp).1

theorem tableStatements_eq (hp : tablePair target source t = some (m, previous)) :
    tableStatements target source t =
      columnSteps t m (renamedTable m previous) (columnDiff m previous) := by
  rw [tableStatements, hp]

theorem run_tablePrepare (hr : RenamesChecked target)
    (hp : tablePair target source t = some (m, previous)) {catalog : Catalog}
    (hc : catalog previous.name = some previous.described) :
    runStatements (tableStatements target source t).prepare catalog =
      some (put catalog previous.name (some (preparedColumns m previous))) := by
  have hc' : catalog (renamedTable m previous).name = some previous.described := hc
  rw [tableStatements_eq hp, runStatements_of_alters alters_prepare hc',
    alterAll_prepare (columnRenamesChecked_of_pair hr hp)]
  rfl

/-- A table is altered under the name it is stored with. -/
theorem tableStatements_alters (hr : RenamesChecked target) (ha : Addressed target source)
    (hp : tablePair target source t = some (m, previous)) :
    (∀ s ∈ (tableStatements target source t).rollout, s.Alters m.name) ∧
      ∀ s ∈ (tableStatements target source t).cleanup, s.Alters m.name := by
  rw [tableStatements_eq hp]
  rcases name_or_untouched ha hp with hname | huntouched
  · rw [hname]
    exact ⟨alters_rollout, alters_cleanup⟩
  · obtain ⟨h₁, h₂⟩ := columnSteps_of_untouched (columnRenamesChecked_of_pair hr hp) huntouched t
    rw [h₁, h₂]
    exact ⟨by simp, by simp⟩

theorem run_tableRollout (hr : RenamesChecked target) (ha : Addressed target source)
    (hp : tablePair target source t = some (m, previous)) {catalog : Catalog}
    (hc : catalog m.name = some (preparedColumns m previous)) :
    runStatements (tableStatements target source t).rollout catalog =
      some (put catalog m.name (some (rolledColumns m previous))) := by
  rw [runStatements_of_alters (tableStatements_alters hr ha hp).1 hc, tableStatements_eq hp,
    alterAll_rollout (columnRenamesChecked_of_pair hr hp)]
  rfl

theorem run_tableCleanup (hr : RenamesChecked target) (ha : Addressed target source)
    (hp : tablePair target source t = some (m, previous)) {catalog : Catalog}
    (hc : catalog m.name = some (rolledColumns m previous)) :
    runStatements (tableStatements target source t).cleanup catalog =
      some (put catalog m.name (some (cleanedColumns m previous))) := by
  rw [runStatements_of_alters (tableStatements_alters hr ha hp).2 hc, tableStatements_eq hp,
    alterAll_cleanup]
  rfl

/-- A table that isn't changed keeps its columns through every step. -/
theorem columns_of_not_changed (hr : RenamesChecked target)
    (hp : tablePair target source t = some (m, previous)) (ht : t ∉ changedTables target source) :
    preparedColumns m previous = previous.described ∧
      rolledColumns m previous = previous.described ∧
      cleanedColumns m previous = previous.described := by
  obtain ⟨hcreate, hrename, hnested, hremove⟩ := allRenames_of_not_changed hr hp ht
  have hprepared : preparedColumns m previous = previous.described := by
    funext k
    have hnone : (columnComparison m previous).create = [] := hcreate.symm
    rw [preparedColumns, hnone, if_neg (by simp [keysOf])]
  have hrolled : rolledColumns m previous = previous.described := by
    have hn : (columnComparison m previous).nested = [] := hnested.symm
    have hr' : allRenames m previous = [] := hrename.symm
    rw [rolledColumns, hn, hr', hprepared]
    rfl
  refine ⟨hprepared, hrolled, ?_⟩
  funext k
  have hnone : (columnComparison m previous).remove = [] := hremove.symm
  rw [cleanedColumns, hnone, hrolled, if_neg (by simp [keysOf])]

end Table

/-! ## The catalog after each step -/

theorem mem_createdTables (hr : RenamesChecked target) {f : String × TableMetadata} :
    f ∈ createdTables target source ↔
      target.find f.1 = some f.2 ∧ tableBefore target source f.1 f.2 = none := by
  rw [createdTables, List.mem_filter, decide_eq_true_eq, (tableChanges source hr).created]
  constructor
  · rintro ⟨hf, m, hm, hb⟩
    have hfind := find_of_mem target.nodup hf
    obtain rfl : f.2 = m := Option.some.inj (hfind.symm.trans hm)
    exact ⟨hfind, hb⟩
  · rintro ⟨hf, hb⟩
    exact ⟨mem_of_find hf, f.2, hf, hb⟩

/-- The catalog after `prepare`: what is new is there, under old names. -/
structure Prepared (target source : TableRepository) (c : Catalog) : Prop where
  created : ∀ t m, target.find t = some m → tableBefore target source t m = none →
    c m.name = some m.described
  changed : ∀ t m s, tablePair target source t = some (m, s) →
    c s.name = some (preparedColumns m s)
  other : ∀ n, (∀ t m, target.find t = some m → tableBefore target source t m = none →
      m.name ≠ n) →
    (∀ t m s, tablePair target source t = some (m, s) → s.name ≠ n) →
    c n = describedTables source n

theorem pair_of_changed (hr : RenamesChecked target) {t : String}
    (ht : t ∈ changedTables target source) :
    ∃ m s, tablePair target source t = some (m, s) := by
  obtain ⟨m, ⟨p, s⟩, hm, hb⟩ := (tableChanges source hr).nested_found t ht
  exact ⟨m, s, tablePair_eq_some.mpr ⟨hm, p, hb⟩⟩

/-- The name that a table changed is stored with in the source. -/
def nameBefore (target source : TableRepository) (t : String) : String :=
  ((tablePair target source t).map fun p => p.2.name).getD t

/-- The name that a table changed is stored with in the target. -/
def nameAfter (target source : TableRepository) (t : String) : String :=
  ((tablePair target source t).map fun p => p.1.name).getD t

theorem nodup_nameBefore (hr : RenamesChecked target) (ha : Addressed target source) :
    ((changedTables target source).map (nameBefore target source)).Nodup := by
  refine List.Nodup.map_on (fun t ht u hu he => ?_) (tableChanges source hr).nested_nodup
  obtain ⟨m, s, hp⟩ := pair_of_changed hr ht
  obtain ⟨n, r, hq⟩ := pair_of_changed hr hu
  simp only [nameBefore, hp, hq, Option.map_some, Option.getD_some] at he
  exact tablePair_once hr ha hp hq he

theorem nodup_nameAfter (hr : RenamesChecked target) (ha : Addressed target source) :
    ((changedTables target source).map (nameAfter target source)).Nodup := by
  refine List.Nodup.map_on (fun t ht u hu he => ?_) (tableChanges source hr).nested_nodup
  obtain ⟨m, s, hp⟩ := pair_of_changed hr ht
  obtain ⟨n, r, hq⟩ := pair_of_changed hr hu
  simp only [nameAfter, hp, hq, Option.map_some, Option.getD_some] at he
  exact ha.target_once t u m n (tablePair_eq_some.mp hp).1 (tablePair_eq_some.mp hq).1 he

/-- A table of the target is stored under the name of a source table only when
it was that table. -/
theorem source_name_ne_created (ha : Addressed target source) {t u : String}
    {m n s : TableMetadata} (ht : target.find t = some m)
    (hb : tableBefore target source t m = none) (hp : tablePair target source u = some (n, s)) :
    s.name ≠ m.name := by
  obtain ⟨-, p, hb'⟩ := tablePair_eq_some.mp hp
  exact ha.created t m p s ht hb (find_of_tableBefore hb')

theorem run_created (hr : RenamesChecked target) (ha : Addressed target source) :
    ∃ c, runStatements ((createdTables target source).map fun f =>
        TableQuery.prepareCreate f.2.name f.2.schema f.2.indexes f.2.timestamps)
        (describedTables source) = some c ∧
      (∀ f ∈ createdTables target source, c f.2.name = some f.2.described) ∧
      ∀ n, n ∉ (createdTables target source).map (fun f => f.2.name) →
        c n = describedTables source n := by
  rw [runStatements_map]
  refine foldlM_put (ha.target_once.nodup.sublist (List.filter_sublist.map _)) fun f hf c hc => ?_
  obtain ⟨hm, hb⟩ := (mem_createdTables hr).mp hf
  refine exec_prepareCreate f.2 (hc.trans (describedTables_eq_none fun p s hs => ?_))
  exact ha.created f.1 f.2 p s hm hb hs

theorem run_changed (hr : RenamesChecked target) {statements : String → List Statement}
    {name : String → String} {out : String → Columns}
    (hn : ((changedTables target source).map name).Nodup) {c : Catalog}
    (h : ∀ t m s, tablePair target source t = some (m, s) → ∀ n : Catalog,
      n (name t) = c (name t) → runStatements (statements t) n =
        some (put n (name t) (some (out t)))) :
    ∃ d, runStatements ((changedTables target source).flatMap statements) c = some d ∧
      (∀ t ∈ changedTables target source, d (name t) = some (out t)) ∧
      ∀ n, n ∉ (changedTables target source).map name → d n = c n := by
  rw [runStatements_flatMap]
  refine foldlM_put hn fun t ht n hc => ?_
  obtain ⟨m, s, hp⟩ := pair_of_changed hr ht
  exact h t m s hp n hc

/-- What the columns of a table changed become. -/
def changedColumns (columns : TableMetadata → TableMetadata → Columns)
    (target source : TableRepository) (t : String) : Columns :=
  match tablePair target source t with
  | some (m, s) => columns m s
  | none => fun _ => none

theorem run_prepare (hr : RenamesChecked target) (ha : Addressed target source) :
    ∃ c, runStatements (updateSteps target source).prepare (describedTables source) = some c ∧
      Prepared target source c := by
  obtain ⟨c, hc, hcreated, hother⟩ := run_created hr ha
  have hname : ∀ {t m s}, tablePair target source t = some (m, s) →
      nameBefore target source t = s.name := fun hp => by simp [nameBefore, hp]
  have hnot : ∀ {t m s}, tablePair target source t = some (m, s) → c s.name = some s.described := by
    intro t m s hp
    obtain ⟨-, p, hb⟩ := tablePair_eq_some.mp hp
    rw [hother, describedTables_of_find ha.source_once (find_of_tableBefore hb)]
    intro hm
    obtain ⟨f, hf, he⟩ := List.mem_map.mp hm
    obtain ⟨hm', hb'⟩ := (mem_createdTables hr).mp hf
    exact source_name_ne_created ha hm' hb' hp he.symm
  obtain ⟨d, hd, hchanged, hrest⟩ := run_changed hr (nodup_nameBefore hr ha)
    (c := c) fun t m s hp n hn =>
    show runStatements (tableStatements target source t).prepare n =
        some (put n _ (some (changedColumns preparedColumns target source t))) by
      rw [hname hp] at hn ⊢
      rw [run_tablePrepare hr hp (hn.trans (hnot hp))]
      simp [changedColumns, hp]
  refine ⟨d, ?_, fun t m ht hb => ?_, fun t m s hp => ?_, fun n hm hs => ?_⟩
  · change runStatements (_ ++ _) _ = _
    rw [runStatements_append, hc]
    exact hd
  · rw [hrest, hcreated (t, m) ((mem_createdTables hr).mpr ⟨ht, hb⟩)]
    intro hmem
    obtain ⟨u, hu, he⟩ := List.mem_map.mp hmem
    obtain ⟨n, s, hp⟩ := pair_of_changed hr hu
    rw [hname hp] at he
    exact source_name_ne_created ha ht hb hp he
  · by_cases ht : t ∈ changedTables target source
    · have := hchanged t ht
      rwa [hname hp, changedColumns, hp] at this
    · rw [hrest, hnot hp, (columns_of_not_changed hr hp ht).1]
      intro hmem
      obtain ⟨u, hu, he⟩ := List.mem_map.mp hmem
      obtain ⟨n, r, hq⟩ := pair_of_changed hr hu
      rw [hname hq] at he
      exact ht (tablePair_once hr ha hq hp he ▸ hu)
  · rw [hrest, hother]
    · intro hmem
      obtain ⟨f, hf, he⟩ := List.mem_map.mp hmem
      obtain ⟨hf₁, hf₂⟩ := (mem_createdTables hr).mp hf
      exact hm f.1 f.2 hf₁ hf₂ he
    · intro hmem
      obtain ⟨u, hu, he⟩ := List.mem_map.mp hmem
      obtain ⟨m, r, hq⟩ := pair_of_changed hr hu
      exact hs u m r hq ((hname hq).symm.trans he)

/-- The catalog after `rollout`: every table goes by its new name. -/
structure Rolled (target source : TableRepository) (c : Catalog) : Prop where
  created : ∀ t m, target.find t = some m → tableBefore target source t m = none →
    c m.name = some m.described
  changed : ∀ t m s, tablePair target source t = some (m, s) →
    c m.name = some (rolledColumns m s)
  renamed : ∀ t m s, tablePair target source t = some (m, s) →
    (∀ u n, target.find u = some n → n.name ≠ s.name) → c s.name = none
  other : ∀ n, (∀ t m, target.find t = some m → m.name ≠ n) →
    (∀ t m s, tablePair target source t = some (m, s) → s.name ≠ n) →
    c n = describedTables source n

/-- What a rename of a table says of it and of the one it was. -/
theorem renamed_spec (hr : RenamesChecked target) (ha : Addressed target source) {p t : String}
    (h : (p, t) ∈ allTableRenames target source) :
    ∃ m s, tablePair target source t = some (m, s) ∧ s.name = p ∧ m.name = t ∧ p ≠ t ∧
      ∀ q r, source.find q = some r → r.name ≠ t := by
  obtain ⟨m, s, hm, hb, hne⟩ := (mem_allTableRenames hr).mp h
  obtain ⟨h₁, h₂, h₃⟩ := ha.renamed t m p s hm hb hne
  exact ⟨m, s, tablePair_eq_some.mpr ⟨hm, p, hb⟩, h₁, h₂, hne, h₃⟩

theorem run_renamed (hr : RenamesChecked target) (ha : Addressed target source) {c : Catalog}
    (hc : Prepared target source c) :
    runStatements ((allTableRenames target source).map fun r =>
      TableQuery.prepareRename r.1 r.2) c = some ((allTableRenames target source).foldl move c) := by
  refine runStatements_prepareRename (renaming_allTableRenames source hr) fun r hm => ?_
  obtain ⟨m, s, hp, hs, ht, -, hfree⟩ := renamed_spec hr ha (p := r.1) (t := r.2) hm
  refine ⟨⟨_, hs ▸ hc.changed r.2 m s hp⟩, ?_⟩
  rw [hc.other r.2, describedTables_eq_none hfree]
  · rintro u n hn hb he
    obtain ⟨hm', q, hq⟩ := tablePair_eq_some.mp hp
    obtain rfl := ha.target_once u r.2 n m hn hm' (he.trans ht.symm)
    obtain rfl : n = m := Option.some.inj (hn.symm.trans hm')
    simp [hq] at hb
  · rintro u n s' hp' he
    obtain ⟨-, q, hq⟩ := tablePair_eq_some.mp hp'
    exact hfree q s' (find_of_tableBefore hq) he

/-- The names of the target are no old name of a table renamed. -/
theorem target_name_not_from (hr : RenamesChecked target) (ha : Addressed target source)
    {t : String} {m : TableMetadata} (ht : target.find t = some m) :
    m.name ∉ (allTableRenames target source).map Prod.fst := by
  intro hm
  obtain ⟨⟨p, u⟩, hpu, rfl : p = m.name⟩ := List.mem_map.mp hm
  obtain ⟨n, r, hq, hr', hn, hne, -⟩ := renamed_spec hr ha hpu
  obtain ⟨hu, q, hbq⟩ := tablePair_eq_some.mp hq
  cases hb : tableBefore target source t m with
  | none => exact source_name_ne_created ha ht hb hq hr'
  | some b =>
    obtain ⟨p, s⟩ := b
    have hp := tablePair_eq_some.mpr ⟨ht, p, hb⟩
    by_cases hpt : p = t
    · obtain ⟨hname, -⟩ := ha.kept t m s ht (hpt ▸ hb)
      obtain rfl := tablePair_once hr ha hq hp (hr'.trans hname)
      obtain rfl : n = m := Option.some.inj (hu.symm.trans ht)
      exact hne hn
    · obtain ⟨-, hmt, hfree⟩ := ha.renamed t m p s ht hb hpt
      exact hfree q r (find_of_tableBefore hbq) (hr'.trans hmt)

/-- A name of the target is a new name of a table renamed only if it is its name. -/
theorem target_name_to (hr : RenamesChecked target) (ha : Addressed target source) {t : String}
    {m : TableMetadata} (ht : target.find t = some m)
    (hm : m.name ∈ (allTableRenames target source).map Prod.snd) :
    ∃ p, (p, t) ∈ allTableRenames target source := by
  obtain ⟨⟨p, u⟩, hpu, rfl : u = m.name⟩ := List.mem_map.mp hm
  obtain ⟨n, r, hq, -, hn, -, -⟩ := renamed_spec hr ha hpu
  exact ⟨p, ha.target_once _ t n m (tablePair_eq_some.mp hq).1 ht hn ▸ hpu⟩

theorem foldl_move_created (hr : RenamesChecked target) (ha : Addressed target source) {t : String}
    {m : TableMetadata} (c : Catalog) (ht : target.find t = some m)
    (hb : tableBefore target source t m = none) :
    (allTableRenames target source).foldl move c m.name = c m.name := by
  refine Renaming.foldl_move_of_not_mem _ (target_name_not_from hr ha ht) fun hm => ?_
  obtain ⟨p, hp⟩ := target_name_to hr ha ht hm
  obtain ⟨n, s, hq, -⟩ := renamed_spec hr ha hp
  obtain ⟨hn, q, hbq⟩ := tablePair_eq_some.mp hq
  obtain rfl : n = m := Option.some.inj (hn.symm.trans ht)
  simp [hb] at hbq

/-- Each table that was one of the source goes by its new name. -/
theorem foldl_move_changed (hr : RenamesChecked target) (ha : Addressed target source) {t : String}
    {m s : TableMetadata} (c : Catalog) (hp : tablePair target source t = some (m, s)) :
    (allTableRenames target source).foldl move c m.name = c s.name := by
  obtain ⟨hm, p, hb⟩ := tablePair_eq_some.mp hp
  by_cases hpt : p = t
  · obtain ⟨hname, -⟩ := ha.kept t m s hm (hpt ▸ hb)
    rw [← hname]
    refine Renaming.foldl_move_of_not_mem _ (target_name_not_from hr ha hm) fun hto => ?_
    obtain ⟨q, hq⟩ := target_name_to hr ha hm hto
    obtain ⟨n, r, hn, hb', hne⟩ := (mem_allTableRenames hr).mp hq
    obtain rfl : n = m := Option.some.inj (hn.symm.trans hm)
    obtain ⟨rfl, -⟩ := Prod.mk.inj (Option.some.inj (hb.symm.trans hb'))
    exact hne hpt
  · obtain ⟨hs, hmt, -⟩ := ha.renamed t m p s hm hb hpt
    rw [hs, hmt]
    exact (renaming_allTableRenames source hr).foldl_move_to c
      ((mem_allTableRenames hr).mpr ⟨m, s, hm, hb, hpt⟩)

theorem run_rollout (hr : RenamesChecked target) (ha : Addressed target source) {c : Catalog}
    (hc : Prepared target source c) :
    ∃ d, runStatements (updateSteps target source).rollout c = some d ∧
      Rolled target source d := by
  have hname : ∀ {t m s}, tablePair target source t = some (m, s) →
      nameAfter target source t = m.name := fun hp => by simp [nameAfter, hp]
  have hmoved : ∀ {t m s}, tablePair target source t = some (m, s) →
      (allTableRenames target source).foldl move c m.name = some (preparedColumns m s) :=
    fun hp => (foldl_move_changed hr ha c hp).trans (hc.changed _ _ _ hp)
  obtain ⟨d, hd, hchanged, hrest⟩ := run_changed hr (nodup_nameAfter hr ha)
    (c := (allTableRenames target source).foldl move c) fun t m s hp n hn =>
    show runStatements (tableStatements target source t).rollout n =
        some (put n _ (some (changedColumns rolledColumns target source t))) by
      rw [hname hp] at hn ⊢
      rw [run_tableRollout hr ha hp (hn.trans (hmoved hp))]
      simp [changedColumns, hp]
  have hnot : ∀ n, (∀ t m, target.find t = some m → m.name ≠ n) →
      n ∉ (changedTables target source).map (nameAfter target source) := by
    intro n hn hmem
    obtain ⟨u, hu, he⟩ := List.mem_map.mp hmem
    obtain ⟨m, s, hp⟩ := pair_of_changed hr hu
    exact hn u m (tablePair_eq_some.mp hp).1 ((hname hp).symm.trans he)
  refine ⟨d, ?_, fun t m ht hb => ?_, fun t m s hp => ?_, fun t m s hp hn => ?_,
    fun n hm hs => ?_⟩
  · change runStatements (_ ++ _) _ = _
    rw [runStatements_append, run_renamed hr ha hc]
    exact hd
  · rw [hrest, foldl_move_created hr ha c ht hb, hc.created t m ht hb]
    intro hmem
    obtain ⟨u, hu, he⟩ := List.mem_map.mp hmem
    obtain ⟨n, s, hp⟩ := pair_of_changed hr hu
    obtain ⟨hn, q, hq⟩ := tablePair_eq_some.mp hp
    obtain rfl := ha.target_once u t n m hn ht ((hname hp).symm.trans he)
    obtain rfl : n = m := Option.some.inj (hn.symm.trans ht)
    simp [hb] at hq
  · by_cases ht : t ∈ changedTables target source
    · have := hchanged t ht
      rwa [hname hp, changedColumns, hp] at this
    · obtain ⟨h₁, h₂, -⟩ := columns_of_not_changed hr hp ht
      rw [hrest, hmoved hp, h₁, h₂]
      intro hmem
      obtain ⟨u, hu, he⟩ := List.mem_map.mp hmem
      obtain ⟨n, r, hq⟩ := pair_of_changed hr hu
      have := ha.target_once u t n m (tablePair_eq_some.mp hq).1 (tablePair_eq_some.mp hp).1
        ((hname hq).symm.trans he)
      exact ht (this ▸ hu)
  · rw [hrest _ (hnot _ hn)]
    obtain ⟨hm, p, hb⟩ := tablePair_eq_some.mp hp
    have hpt : p ≠ t := by
      rintro rfl
      exact hn p m hm (ha.kept p m s hm hb).1
    obtain ⟨hs, -⟩ := ha.renamed t m p s hm hb hpt
    rw [hs]
    exact (renaming_allTableRenames source hr).foldl_move_from c
      (List.mem_map_of_mem (f := Prod.fst) ((mem_allTableRenames hr).mpr ⟨m, s, hm, hb, hpt⟩))
  · rw [hrest _ (hnot n hm), Renaming.foldl_move_of_not_mem,
      hc.other n (fun t m ht _ => hm t m ht) hs]
    · intro hmem
      obtain ⟨⟨p, t⟩, hpt, rfl⟩ := List.mem_map.mp hmem
      obtain ⟨m, s, hp, hs', -⟩ := renamed_spec hr ha hpt
      exact hs t m s hp hs'
    · intro hmem
      obtain ⟨⟨p, t⟩, hpt, rfl⟩ := List.mem_map.mp hmem
      obtain ⟨m, s, hp, -, ht, -⟩ := renamed_spec hr ha hpt
      exact hm t m (tablePair_eq_some.mp hp).1 ht

/-- A table dropped is one of the source that no target table was. -/
theorem mem_removedTables (hr : RenamesChecked target) {f : String × TableMetadata}
    (hf : f ∈ removedTables target source) :
    source.find f.1 = some f.2 ∧ target.find f.1 = none ∧
      f.1 ∉ (allTableRenames target source).map Prod.fst := by
  have h := tableChanges source hr
  rw [removedTables, List.mem_filter, decide_eq_true_eq, h.removed] at hf
  obtain ⟨hf, ht, hn, s, hs⟩ := hf
  have hfind := find_of_mem (getTableRepositoryChanges target source).source.nodup hf
  have hother := h.other f.1 ht
  rw [if_neg hn] at hother
  rw [(changes_eq source hr).1] at hn
  exact ⟨hother.symm.trans hfind, ht, hn⟩

/-- A table of the source that no target table was is dropped. -/
theorem mem_removedTables_of_not_pair (hr : RenamesChecked target) {q : String}
    {s : TableMetadata} (hs : source.find q = some s)
    (h : ∀ t m, tablePair target source t ≠ some (m, s)) :
    (q, s) ∈ removedTables target source := by
  have htables := tableChanges source hr
  have hrename := (changes_eq source hr).1
  have hq : target.find q = none := by
    by_contra hne
    obtain ⟨m, hm⟩ := Option.ne_none_iff_exists'.mp hne
    have hfrom : declaredFrom source q m = none := by
      by_contra hne'
      obtain ⟨p, hp⟩ := Option.ne_none_iff_exists'.mp hne'
      rw [Record.has_eq_false.mp (declaredFrom_some hp).2.2.1] at hs
      simp at hs
    refine h q m (tablePair_eq_some.mpr ⟨hm, q, ?_⟩)
    simp [tableBefore, declaredTable, hfrom, hs]
  have hnot : q ∉ (allTableRenames target source).map Prod.fst := by
    intro hmem
    obtain ⟨⟨p, t⟩, hpt, rfl⟩ := List.mem_map.mp hmem
    obtain ⟨m, r, hm, hb, -⟩ := (mem_allTableRenames hr).mp hpt
    obtain rfl : s = r := Option.some.inj (hs.symm.trans (find_of_tableBefore hb))
    exact h t m (tablePair_eq_some.mpr ⟨hm, p, hb⟩)
  have hother := htables.other q hq
  rw [hrename, if_neg hnot, hs] at hother
  rw [removedTables, List.mem_filter, decide_eq_true_eq, htables.removed, hrename]
  exact ⟨mem_of_find hother, hq, hnot, s, hs⟩

/-- The name of a table dropped is no name of the target. -/
theorem removed_name_ne (hr : RenamesChecked target) (ha : Addressed target source)
    {f : String × TableMetadata} (hf : f ∈ removedTables target source) {t : String}
    {m : TableMetadata} (ht : target.find t = some m) : m.name ≠ f.2.name := by
  obtain ⟨hs, hnone, hn⟩ := mem_removedTables hr hf
  intro he
  cases hb : tableBefore target source t m with
  | none => exact ha.created t m f.1 f.2 ht hb hs he.symm
  | some b =>
    obtain ⟨p, s⟩ := b
    by_cases hpt : p = t
    · subst hpt
      obtain ⟨hname, -⟩ := ha.kept p m s ht hb
      have hk := ha.source_once p f.1 s f.2 (find_of_tableBefore hb) hs (hname.symm.trans he)
      rw [← hk, ht] at hnone
      simp at hnone
    · obtain ⟨-, hmt, hfree⟩ := ha.renamed t m p s ht hb hpt
      exact hfree f.1 f.2 hs (he.symm.trans hmt)

/-- The tables at the end: the columns of those that were one of the source
come out of the three steps, and the others are created. -/
def endTables (target source : TableRepository) : Catalog := fun name =>
  (target.values.find? fun f => f.2.name = name).map fun f =>
    match tableBefore target source f.1 f.2 with
    | some b => cleanedColumns f.2 b.2
    | none => f.2.described

theorem endTables_of_find (h : StoredOnce target) {t : String} {m : TableMetadata}
    (ht : target.find t = some m) :
    endTables target source m.name = some (match tableBefore target source t m with
      | some b => cleanedColumns m b.2
      | none => m.described) := by
  have hfind : target.values.find? (fun f => f.2.name = m.name) = some (t, m) :=
    KeyedMap.find?_of_mem h.nodup (mem_of_find ht)
  rw [endTables, hfind]
  rfl

theorem endTables_eq_none {name : String} (h : ∀ t m, target.find t = some m → m.name ≠ name) :
    endTables target source name = none := by
  rw [endTables, Option.map_eq_none_iff, List.find?_eq_none]
  intro f hf he
  exact h f.1 f.2 (find_of_mem target.nodup hf) (of_decide_eq_true he)

theorem run_removed (hr : RenamesChecked target) (ha : Addressed target source) (c : Catalog) :
    ∃ d, runStatements ((removedTables target source).map fun f =>
        TableQuery.prepareDelete f.2.name) c = some d ∧
      (∀ f ∈ removedTables target source, d f.2.name = none) ∧
      ∀ n, n ∉ (removedTables target source).map (fun f => f.2.name) → d n = c n := by
  rw [runStatements_map]
  have hnodup : ((removedTables target source).map fun f => f.2.name).Nodup := by
    have hkeys : ((removedTables target source).map Prod.fst).Nodup :=
      (getTableRepositoryChanges target source).source.nodup.sublist (List.filter_sublist.map _)
    refine List.Nodup.map_on (fun f hf g hg he => ?_) hkeys.of_map
    obtain ⟨h₁, -⟩ := mem_removedTables hr hf
    obtain ⟨h₂, -⟩ := mem_removedTables hr hg
    have hk : f.1 = g.1 := ha.source_once f.1 g.1 f.2 g.2 h₁ h₂ he
    exact Prod.ext hk (Option.some.inj (h₁.symm.trans (hk ▸ h₂)))
  exact foldlM_put hnodup fun f _ n _ => rfl

/-- **What a migration ends with**: it raises no error, and leaves the tables of
the target alone. -/
theorem run_cleanup (hr : RenamesChecked target) (ha : Addressed target source) {c : Catalog}
    (hc : Rolled target source c) :
    runStatements (updateSteps target source).cleanup c = some (endTables target source) := by
  have hname : ∀ {t m s}, tablePair target source t = some (m, s) →
      nameAfter target source t = m.name := fun hp => by simp [nameAfter, hp]
  obtain ⟨d, hd, hchanged, hrest⟩ := run_changed hr (nodup_nameAfter hr ha)
    (c := c) fun t m s hp n hn =>
    show runStatements (tableStatements target source t).cleanup n =
        some (put n _ (some (changedColumns cleanedColumns target source t))) by
      rw [hname hp] at hn ⊢
      rw [run_tableCleanup hr ha hp (hn.trans (hc.changed t m s hp))]
      simp [changedColumns, hp]
  obtain ⟨e, he, hgone, hkept⟩ := run_removed hr ha d
  have hnotRemoved : ∀ {t m}, target.find t = some m →
      m.name ∉ (removedTables target source).map (fun f => f.2.name) := by
    intro t m ht hmem
    obtain ⟨f, hf, hfe⟩ := List.mem_map.mp hmem
    exact removed_name_ne hr ha hf ht hfe.symm
  change runStatements (_ ++ _) _ = _
  rw [runStatements_append, hd, Option.bind_some, he, Option.some.injEq]
  funext n
  by_cases hn : ∃ t m, target.find t = some m ∧ m.name = n
  · obtain ⟨t, m, ht, rfl⟩ := hn
    rw [hkept _ (hnotRemoved ht), endTables_of_find ha.target_once ht]
    cases hb : tableBefore target source t m with
    | none =>
      rw [hrest, hc.created t m ht hb]
      intro hmem
      obtain ⟨u, hu, hue⟩ := List.mem_map.mp hmem
      obtain ⟨l, s, hp⟩ := pair_of_changed hr hu
      obtain ⟨hl, q, hq⟩ := tablePair_eq_some.mp hp
      obtain rfl := ha.target_once u t l m hl ht ((hname hp).symm.trans hue)
      obtain rfl : l = m := Option.some.inj (hl.symm.trans ht)
      simp [hb] at hq
    | some b =>
      obtain ⟨p, s⟩ := b
      have hp := tablePair_eq_some.mpr ⟨ht, p, hb⟩
      by_cases hu : t ∈ changedTables target source
      · have := hchanged t hu
        rwa [hname hp, changedColumns, hp] at this
      · obtain ⟨-, h₂, h₃⟩ := columns_of_not_changed hr hp hu
        simp only [h₃]
        rw [hrest, hc.changed t m s hp, h₂]
        intro hmem
        obtain ⟨v, hv, hve⟩ := List.mem_map.mp hmem
        obtain ⟨l, r, hq⟩ := pair_of_changed hr hv
        have := ha.target_once v t l m (tablePair_eq_some.mp hq).1 ht ((hname hq).symm.trans hve)
        exact hu (this ▸ hv)
  · have hn' : ∀ t m, target.find t = some m → m.name ≠ n := fun t m ht hm => hn ⟨t, m, ht, hm⟩
    rw [endTables_eq_none hn']
    by_cases hremoved : n ∈ (removedTables target source).map (fun f => f.2.name)
    · obtain ⟨f, hf, rfl⟩ := List.mem_map.mp hremoved
      exact hgone f hf
    · have hd' : d n = c n := hrest n fun hmem => by
        obtain ⟨u, hu, hue⟩ := List.mem_map.mp hmem
        obtain ⟨m, s, hp⟩ := pair_of_changed hr hu
        exact hn' u m (tablePair_eq_some.mp hp).1 ((hname hp).symm.trans hue)
      rw [hkept n hremoved, hd']
      by_cases hpair : ∃ t m s, tablePair target source t = some (m, s) ∧ s.name = n
      · obtain ⟨t, m, s, hp, rfl⟩ := hpair
        exact hc.renamed t m s hp hn'
      · have hpair' : ∀ t m s, tablePair target source t = some (m, s) → s.name ≠ n :=
          fun t m s hp hs => hpair ⟨t, m, s, hp, hs⟩
        rw [hc.other n hn' hpair']
        refine describedTables_eq_none fun q s hq hs => hremoved ?_
        have hmem : (q, s) ∈ removedTables target source :=
          mem_removedTables_of_not_pair hr hq fun t m hp => hpair' t m s hp hs
        exact List.mem_map.mpr ⟨(q, s), hmem, hs⟩

end Ez4.Migration

import Ez4.Migration.TableChanges
import Ez4.Migration.ColumnRun

/-! # The statements of each step

The steps of `getUpdateStepQueries`, table by table: what is created, the
tables renamed, the statements on the columns of the tables changed, and what
is dropped. -/

namespace Ez4.Migration
open Ez4.Library Ez4.Utils

variable {target source : TableRepository}

/-- A table of the target with the one it was. -/
def tablePair (target source : TableRepository) (table : String) :
    Option (TableMetadata × TableMetadata) :=
  (target.find table).bind fun m => (tableBefore target source table m).map fun b => (m, b.2)

/-- The statements on the columns of a table. -/
def tableStatements (target source : TableRepository) (table : String) : MigrationSteps :=
  match tablePair target source table with
  | some (m, previous) => columnSteps table m (renamedTable m previous) (columnDiff m previous)
  | none => {}

/-- No rename moves a timestamp column. -/
def TimestampsKept (target previous : TableMetadata) : Prop :=
  ∀ r ∈ allRenames target previous, r.1 ∉ getTimestampColumns previous.timestamps ∧
    r.2 ∉ getTimestampColumns target.timestamps

instance (target previous : TableMetadata) : Decidable (TimestampsKept target previous) := by
  unfold TimestampsKept
  infer_instance

theorem tablePair_eq_some {t : String} {m previous : TableMetadata} :
    tablePair target source t = some (m, previous) ↔
      target.find t = some m ∧ ∃ p, tableBefore target source t m = some (p, previous) := by
  unfold tablePair
  constructor
  · intro h
    obtain ⟨n, hn, hb⟩ := Option.bind_eq_some_iff.mp h
    obtain ⟨⟨p, s⟩, hs, he⟩ := Option.map_eq_some_iff.mp hb
    obtain ⟨rfl, rfl⟩ := Prod.mk.inj he
    exact ⟨hn, p, hs⟩
  · rintro ⟨hm, p, hb⟩
    rw [hm, Option.bind_some, hb]
    rfl

/-! ## Timestamps -/

theorem validateRenames_cons (table : String) (s t : Option TableTimestamps)
    (r : String × String) (rest : List (String × String)) :
    validateRenames table s t (r :: rest) =
      if r.1 ∈ getTimestampColumns s ∨ r.2 ∈ getTimestampColumns t then
        .error (.timestampRenamed table r.1 r.2)
      else validateRenames table s t rest := by
  change ((if _ then _ else _) >>= fun _ => validateRenames table s t rest) = _
  split <;> rfl

theorem validateRenames_eq_ok {table : String} {s t : Option TableTimestamps}
    {renames : List (String × String)}
    (h : ∀ r ∈ renames, r.1 ∉ getTimestampColumns s ∧ r.2 ∉ getTimestampColumns t) :
    validateRenames table s t renames = .ok () := by
  induction renames with
  | nil => rfl
  | cons r rest ih =>
    obtain ⟨h₁, h₂⟩ := h r List.mem_cons_self
    rw [validateRenames_cons, if_neg (not_or.mpr ⟨h₁, h₂⟩)]
    exact ih fun q hq => h q (List.mem_cons_of_mem _ hq)

theorem validateRenames_eq_error (table : String) {s t : Option TableTimestamps}
    {renames : List (String × String)}
    (h : ¬ ∀ r ∈ renames, r.1 ∉ getTimestampColumns s ∧ r.2 ∉ getTimestampColumns t) :
    ∃ e, validateRenames table s t renames = .error e := by
  induction renames with
  | nil => simp at h
  | cons r rest ih =>
    rw [validateRenames_cons]
    split
    · exact ⟨_, rfl⟩
    · rename_i hr
      refine ih fun hrest => h fun q hq => ?_
      rcases List.mem_cons.mp hq with rfl | hq
      · exact not_or.mp hr
      · exact hrest q hq

/-! ## The steps of a table -/

theorem columnSteps_congr {c d : ObjectComparison} (h : SameKeys c d) (table : String)
    (m previous : TableMetadata) : columnSteps table m previous c = columnSteps table m previous d := by
  unfold columnSteps
  rw [h.create, h.rename, h.nested, h.remove]

theorem tableSteps_eq (hr : RenamesChecked target) {t : String} {changes : ObjectComparison}
    (hc : (t, changes) ∈ (getTableRepositoryChanges target source).changes.nested) :
    ∃ m previous, tablePair target source t = some (m, previous) ∧
      tableSteps target (getTableRepositoryChanges target source) t changes =
        (validateRenames t previous.timestamps m.timestamps (allRenames m previous)).map
          fun _ => tableStatements target source t := by
  have h := tableChanges source hr
  have hfind := find_of_mem h.nested_nodup hc
  obtain ⟨m, ⟨p, previous⟩, hm, hb⟩ := h.nested_found t (mem_keysOf_of_mem hc)
  have hkeys := h.columns t m _ hm hb
  rw [hfind] at hkeys
  have hpair := tablePair_eq_some.mpr ⟨hm, p, hb⟩
  refine ⟨m, previous, hpair, ?_⟩
  have hsource := h.found t m hm
  rw [hb, Option.map_some] at hsource
  have hrename : (columnChanges changes).rename = allRenames m previous := hkeys.rename
  rw [tableSteps, hm, hsource, tableStatements, hpair]
  simp only [hrename]
  rw [← columnSteps_congr hkeys]
  change (validateRenames t previous.timestamps m.timestamps (allRenames m previous) >>=
    fun _ => pure _) = _
  cases validateRenames t previous.timestamps m.timestamps (allRenames m previous) <;> rfl

/-! ## The loop over the tables changed -/

/-- The loop over tables none of which moves a timestamp column. -/
theorem foldlM_combineSteps {ι : Type} {l : List ι} {f : ι → Except MigrationError MigrationSteps}
    {g : ι → MigrationSteps} (h : ∀ i ∈ l, f i = .ok (g i)) (steps : MigrationSteps) :
    l.foldlM (fun steps i => combineSteps steps <$> f i) steps = .ok
      { prepare := steps.prepare ++ l.flatMap fun i => (g i).prepare
        rollout := steps.rollout ++ l.flatMap fun i => (g i).rollout
        cleanup := steps.cleanup ++ l.flatMap fun i => (g i).cleanup } := by
  induction l generalizing steps with
  | nil => simp [pure, Except.pure]
  | cons i rest ih =>
    rw [List.foldlM_cons, h i List.mem_cons_self]
    refine (ih (fun j hj => h j (List.mem_cons_of_mem _ hj)) (combineSteps steps (g i))).trans ?_
    simp [combineSteps]

/-- The loop ends at the first table that moves one. -/
theorem foldlM_combineSteps_error {ι : Type} {l : List ι}
    {f : ι → Except MigrationError MigrationSteps} (h : ∃ i ∈ l, ∃ e, f i = .error e)
    (steps : MigrationSteps) :
    ∃ e, l.foldlM (fun steps i => combineSteps steps <$> f i) steps = .error e := by
  induction l generalizing steps with
  | nil => simp at h
  | cons i rest ih =>
    rw [List.foldlM_cons]
    cases hi : f i with
    | error e => exact ⟨e, rfl⟩
    | ok s =>
      refine ih ?_ (combineSteps steps s)
      obtain ⟨j, hj, e, he⟩ := h
      rcases List.mem_cons.mp hj with rfl | hj
      · simp [hi] at he
      · exact ⟨j, hj, e, he⟩

/-- The tables created, each under its key. -/
def createdTables (target source : TableRepository) : List (String × TableMetadata) :=
  target.values.filter fun f =>
    f.1 ∈ keysOf (getTableRepositoryChanges target source).changes.create

/-- The tables dropped, each under its key. -/
def removedTables (target source : TableRepository) : List (String × TableMetadata) :=
  (getTableRepositoryChanges target source).source.values.filter fun f =>
    f.1 ∈ keysOf (getTableRepositoryChanges target source).changes.remove

/-- The keys of the tables changed. -/
def changedTables (target source : TableRepository) : List String :=
  keysOf (getTableRepositoryChanges target source).changes.nested

/-- The statements of a migration that moves no timestamp column. -/
def updateSteps (target source : TableRepository) : MigrationSteps where
  prepare := (createdTables target source).map (fun f =>
      TableQuery.prepareCreate f.2.name f.2.schema f.2.indexes f.2.timestamps) ++
    (changedTables target source).flatMap fun t => (tableStatements target source t).prepare
  rollout := (allTableRenames target source).map (fun r => TableQuery.prepareRename r.1 r.2) ++
    (changedTables target source).flatMap fun t => (tableStatements target source t).rollout
  cleanup := ((changedTables target source).flatMap fun t => (tableStatements target source t).cleanup) ++
    (removedTables target source).map fun f => TableQuery.prepareDelete f.2.name

/-- A table that isn't changed renames no column. -/
theorem allRenames_of_not_changed (hr : RenamesChecked target) {t : String}
    {m previous : TableMetadata} (hp : tablePair target source t = some (m, previous))
    (ht : t ∉ changedTables target source) :
    SameKeys ObjectComparison.none (columnDiff m previous) := by
  obtain ⟨hm, p, hb⟩ := tablePair_eq_some.mp hp
  have hkeys := (tableChanges source hr).columns t m _ hm hb
  rw [find_eq_none.mpr ht] at hkeys
  exact hkeys

/-- **The statements of a migration**, when no rename moves a timestamp column. -/
theorem getUpdateStepQueries_eq_ok (hr : RenamesChecked target)
    (hk : ∀ t m previous, tablePair target source t = some (m, previous) →
      TimestampsKept m previous) :
    getUpdateStepQueries target source = .ok (updateSteps target source) := by
  have hsteps : ∀ i ∈ (getTableRepositoryChanges target source).changes.nested,
      tableSteps target (getTableRepositoryChanges target source) i.1 i.2 =
        .ok (tableStatements target source i.1) := by
    intro i hi
    obtain ⟨m, previous, hp, he⟩ := tableSteps_eq hr hi
    rw [he, validateRenames_eq_ok (hk i.1 m previous hp)]
    rfl
  have hrename : (getTableRepositoryChanges target source).changes.rename =
      allTableRenames target source := (changes_eq source hr).1
  unfold getUpdateStepQueries
  simp only [foldlM_combineSteps hsteps]
  simp [updateSteps, createdTables, removedTables, changedTables, keysOf, List.flatMap_map, hrename,
    bind, Except.bind, pure, Except.pure]

/-- The migration is refused when a rename moves a timestamp column. -/
theorem getUpdateStepQueries_eq_error (hr : RenamesChecked target)
    (hk : ¬ ∀ t m previous, tablePair target source t = some (m, previous) →
      TimestampsKept m previous) :
    ∃ e, getUpdateStepQueries target source = .error e := by
  have herror : ∃ i ∈ (getTableRepositoryChanges target source).changes.nested, ∃ e,
      tableSteps target (getTableRepositoryChanges target source) i.1 i.2 = .error e := by
    push Not at hk
    obtain ⟨t, m, previous, hp, hbad⟩ := hk
    have hchanged : t ∈ changedTables target source := by
      by_contra ht
      have hnone : allRenames m previous = [] :=
        (allRenames_of_not_changed hr hp ht).rename.symm
      exact hbad fun r hm => by simp [hnone] at hm
    obtain ⟨c, hc⟩ := mem_keysOf_iff.mp hchanged
    obtain ⟨n, q, hp', he⟩ := tableSteps_eq hr (mem_of_find hc)
    obtain ⟨rfl, rfl⟩ := Prod.mk.inj (Option.some.inj (hp.symm.trans hp'))
    obtain ⟨e, hv⟩ := validateRenames_eq_error t hbad
    exact ⟨(t, c), mem_of_find hc, e, by rw [he, hv]; rfl⟩
  unfold getUpdateStepQueries
  obtain ⟨e, he⟩ := foldlM_combineSteps_error herror
    { prepare := (createdTables target source).map fun f =>
        TableQuery.prepareCreate f.2.name f.2.schema f.2.indexes f.2.timestamps
      rollout := (getTableRepositoryChanges target source).changes.rename.map fun r =>
        TableQuery.prepareRename r.1 r.2 }
  exact ⟨e, (congrArg (fun steps => Except.bind steps _) he).trans rfl⟩

end Ez4.Migration

import Ez4.Migration.MigrationRun

/-! # A migration ends at the target

The tables and columns after `prepare`, `rollout` and `cleanup` are those of
the target, unless a rename moves a timestamp column, which the migration
refuses, or a column takes or stops taking null where no statement says so: a
column whose rename is guessed, or one of the primary key. -/

namespace Ez4.Migration
open Ez4.Library Ez4.Utils

/-- The migration runs without an error, from the tables of the source to
those of the target. -/
def EndsAtTarget (target source : TableRepository) : Prop :=
  ∃ steps, getUpdateStepQueries target source = .ok steps ∧
    runStatements steps.statements (describedTables source) = some (describedTables target)

variable {target source : TableRepository}

theorem run_updateSteps (hr : RenamesChecked target) (ha : Addressed target source) :
    runStatements (updateSteps target source).statements (describedTables source) =
      some (endTables target source) := by
  obtain ⟨c, hc, hprepared⟩ := run_prepare hr ha
  obtain ⟨d, hd, hrolled⟩ := run_rollout hr ha hprepared
  rw [MigrationSteps.statements, runStatements_append, runStatements_append, hc, Option.bind_some,
    hd, Option.bind_some, run_cleanup hr ha hrolled]

/-- The tables at the end, against those described. -/
theorem endTables_eq_iff (hr : RenamesChecked target) (ha : Addressed target source) :
    endTables target source = describedTables target ↔
      ∀ t m s, tablePair target source t = some (m, s) → NullityKept m s := by
  constructor
  · intro he t m s hp
    obtain ⟨hm, p, hb⟩ := tablePair_eq_some.mp hp
    refine (cleanedColumns_eq_described_iff (columnRenamesChecked_of_pair hr hp) s).mp ?_
    have hname := congrFun he m.name
    rw [endTables_of_find ha.target_once hm, describedTables_of_find ha.target_once hm, hb] at hname
    exact Option.some.inj hname
  · intro h
    funext n
    by_cases hn : ∃ t m, target.find t = some m ∧ m.name = n
    · obtain ⟨t, m, hm, rfl⟩ := hn
      rw [endTables_of_find ha.target_once hm, describedTables_of_find ha.target_once hm]
      cases hb : tableBefore target source t m with
      | none => rfl
      | some b =>
        have hp := tablePair_eq_some.mpr ⟨hm, b.1, hb⟩
        exact congrArg some ((cleanedColumns_eq_described_iff
          (columnRenamesChecked_of_pair hr hp) b.2).mpr (h t m b.2 hp))
    · have hn' : ∀ t m, target.find t = some m → m.name ≠ n := fun t m hm he => hn ⟨t, m, hm, he⟩
      rw [endTables_eq_none hn', describedTables_eq_none hn']

/-- A table with one column, kept under a key of the same name. -/
def tableOf (column : String) (schema : AnySchema) : TableMetadata where
  name := "users"
  schema := { properties := (∅ : Record AnySchema).set (column, schema) }

def repositoryOf (column : String) (schema : AnySchema) : TableRepository :=
  (∅ : TableRepository).set ("users", tableOf column schema)

theorem find_repositoryOf {column : String} {schema : AnySchema} {t : String} {m : TableMetadata} :
    (repositoryOf column schema).find t = some m ↔ t = "users" ∧ m = tableOf column schema := by
  rw [repositoryOf, Record.find_set]
  have hnone : Record.find (∅ : TableRepository) t = none := rfl
  rw [hnone, Option.ite_none_right_eq_some, Option.some.injEq, eq_comm, eq_comm (a := m)]

theorem renamesChecked_repositoryOf (column : String) (schema : AnySchema) :
    RenamesChecked (repositoryOf column schema) := by
  refine ⟨fun t m p ht hp => ?_, fun t u m n p ht _ hp => ?_, fun t m ht => ⟨fun c p hc => ?_,
    fun c d p hc => ?_⟩⟩ <;> obtain ⟨-, rfl⟩ := find_repositoryOf.mp ht
  · simp [tableOf] at hp
  · simp [tableOf] at hp
  · simp [tableOf, declaredColumns] at hc
  · simp [tableOf, declaredColumns] at hc

theorem tableBefore_repositoryOf (target : TableRepository) (column : String) (schema : AnySchema)
    (m : TableMetadata) :
    tableBefore target (repositoryOf column schema) "users" m =
      some ("users", tableOf column schema) := by
  have hfind : (repositoryOf column schema).find "users" = some (tableOf column schema) :=
    find_repositoryOf.mpr ⟨rfl, rfl⟩
  have hfrom : declaredFrom (repositoryOf column schema) "users" m = none := by
    by_contra hne
    obtain ⟨p, hp⟩ := Option.ne_none_iff_exists'.mp hne
    have := (declaredFrom_some hp).2.2.1
    rw [Record.has, hfind] at this
    simp at this
  simp [tableBefore, declaredTable, hfrom, hfind]

theorem storedOnce_repositoryOf (column : String) (schema : AnySchema) :
    StoredOnce (repositoryOf column schema) := by
  intro t u m n ht hu _
  exact (find_repositoryOf.mp ht).1.trans (find_repositoryOf.mp hu).1.symm

theorem addressed_repositoryOf (column other : String) (new old : AnySchema) :
    Addressed (repositoryOf column new) (repositoryOf other old) := by
  refine ⟨storedOnce_repositoryOf _ _, storedOnce_repositoryOf _ _, fun t m p s ht hb => ?_,
    fun t m p s ht hb hne => ?_, fun t m s ht hb => ?_⟩ <;>
    obtain ⟨rfl, rfl⟩ := find_repositoryOf.mp ht <;> rw [tableBefore_repositoryOf] at hb
  · simp at hb
  · obtain ⟨rfl, -⟩ := Prod.mk.inj (Option.some.inj hb)
    exact absurd rfl hne
  · obtain ⟨-, rfl⟩ := Prod.mk.inj (Option.some.inj hb)
    exact ⟨rfl, Or.inl rfl⟩

end Ez4.Migration

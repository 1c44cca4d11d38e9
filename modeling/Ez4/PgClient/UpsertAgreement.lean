import Ez4.PgClient.Upsert

/-! # One statement and steps

The rows that the one statement finds through its conflict target are those that
the filters of the steps hold for, so both leave the same rows and give the same
result, but for what an `include` makes of an inserted record. -/
namespace Ez4.PgClient.Upsert
open Ez4.Utils

/-! ## The only row of a kind -/

section
variable {α : Type} {p q : α → Bool} {rows : List α} {a : α}

/-- No two of the rows are of the kind. -/
def AtMostOne (p : α → Bool) (rows : List α) : Prop := rows.Pairwise fun a b => ¬(p a ∧ p b)

theorem AtMostOne.head {rest : List α} (h : AtMostOne p (a :: rest)) (ha : p a = true) :
    ∀ b ∈ rest, p b = false := fun b hb =>
  Bool.eq_false_iff.mpr fun hp => (List.pairwise_cons.mp h).1 b hb ⟨ha, hp⟩

/-- To change the first one is to change them all. -/
theorem AtMostOne.modify_eq_map (h : AtMostOne p rows) (f : α → α) :
    rows.modify (rows.findIdx p) f = rows.map fun a => if p a then f a else a := by
  induction rows with
  | nil => rfl
  | cons a rest ih =>
    rw [List.findIdx_cons, List.map_cons]
    cases ha : p a with
    | true =>
      have hrest : rest.map (fun b => if p b then f b else b) = rest := by
        refine (List.map_congr_left fun b hb => ?_).trans (List.map_id rest)
        rw [h.head ha b hb]
        rfl
      rw [cond_true, List.modify_zero_cons, hrest, if_pos rfl]
    | false =>
      rw [cond_false, List.modify_succ_cons, ih (List.pairwise_cons.mp h).2, if_neg Bool.false_ne_true]

theorem AtMostOne.eq_of_find? (h : AtMostOne p rows) (hfind : rows.find? p = some a) :
    ∀ b ∈ rows, p b = true → b = a := by
  induction rows with
  | nil => cases hfind
  | cons c rest ih =>
    intro b hb hp
    cases hc : p c with
    | true =>
      rw [List.find?_cons_of_pos hc] at hfind
      obtain rfl := Option.some.inj hfind
      rcases List.mem_cons.mp hb with hb | hb
      · exact hb
      · rw [h.head hc b hb] at hp
        cases hp
    | false =>
      rw [List.find?_cons_of_neg (by simp [hc])] at hfind
      rcases List.mem_cons.mp hb with rfl | hb
      · rw [hc] at hp
        cases hp
      · exact ih (List.pairwise_cons.mp h).2 hfind b hb hp

/-- The one that is also of another kind. -/
theorem AtMostOne.find?_and (h : AtMostOne p rows) (hfind : rows.find? p = some a) :
    (rows.find? fun b => p b && q b) = if q a then some a else none := by
  induction rows with
  | nil => cases hfind
  | cons b rest ih =>
    cases hb : p b with
    | false =>
      rw [List.find?_cons_of_neg (by simp [hb])] at hfind ⊢
      exact ih (List.pairwise_cons.mp h).2 hfind
    | true =>
      rw [List.find?_cons_of_pos hb] at hfind
      obtain rfl := Option.some.inj hfind
      cases hq : q b with
      | true => rw [List.find?_cons_of_pos (by simp [hb, hq]), if_pos rfl]
      | false =>
        rw [List.find?_cons_of_neg (by simp [hq]), if_neg Bool.false_ne_true, List.find?_eq_none]
        intro c hc
        simp [h.head hb c hc]

end

variable {V P : Type} [DecidableEq V]

/-! ## The conflict target -/

theorem sqlEqual_iff {value other : Option V} :
    sqlEqual value other = true ↔ ∃ v, value = some v ∧ other = some v := by
  cases value <;> cases other <;> simp [sqlEqual, eq_comm]

section
variable {filters : WhereInput V} {record : List (String × Option V)} {columns : List String}
  {column : String}

/-- The filters name the key that the record has. -/
theorem isConflictTarget_iff : isConflictTarget filters record columns = true ↔
    ∀ column ∈ columns, ∃ value, find filters.fields column = some (.value (some value)) ∧
      find record column = some (some value) := by
  unfold isConflictTarget
  rw [List.all_eq_true]
  refine forall₂_congr fun column _ => ?_
  split
  · rename_i value hfind
    rw [decide_eq_true_eq, hfind]
    exact ⟨fun h => ⟨value, rfl, h⟩, fun ⟨_, heq, h⟩ => by cases heq; exact h⟩
  · rename_i hnot
    exact ⟨fun h => absurd h Bool.false_ne_true, fun ⟨value, heq, _⟩ => absurd heq (hnot value)⟩

end

omit [DecidableEq V] in
theorem UpsertInput.row_of_find {input : UpsertInput V P} {column : String} {value : Option V}
    (h : find input.insertRecord column = some value) : input.row column = value := by
  rw [UpsertInput.row, h, Option.getD_some]

/-- The filters hold for the rows that have the key and for which the others do. -/
theorem fieldsHold_iff_conflicts {input : UpsertInput V P} {columns : List String}
    (h : isConflictTarget input.filters input.insertRecord columns = true) (row : Row V) :
    fieldsHold input.filters.fields row =
      (conflictsOn columns input.row row && fieldsHold (getUpdateFilters input.filters columns) row) := by
  have htarget := isConflictTarget_iff.mp h
  rw [Bool.eq_iff_iff, Bool.and_eq_true, fieldsHold, fieldsHold, conflictsOn, List.all_eq_true,
    List.all_eq_true, List.all_eq_true]
  constructor
  · intro hall
    refine ⟨fun column hcolumn => ?_, fun field hfield => hall field (List.mem_filter.mp hfield).1⟩
    obtain ⟨value, hfilter, hrecord⟩ := htarget column hcolumn
    have hholds := hall _ (mem_of_find hfilter)
    obtain ⟨v, hrow, heq⟩ := sqlEqual_iff.mp hholds
    exact sqlEqual_iff.mpr ⟨v, (UpsertInput.row_of_find hrecord).trans heq, hrow⟩
  · intro ⟨hkey, hothers⟩ ⟨column, filter⟩ hfield
    by_cases hcolumn : column ∈ columns
    · obtain ⟨value, hfilter, hrecord⟩ := htarget column hcolumn
      obtain ⟨v, heq, hrow⟩ := sqlEqual_iff.mp (hkey column hcolumn)
      have hsame := (find_of_mem input.filters.distinct hfield).symm.trans hfilter
      obtain rfl := Option.some.inj hsame
      have hvalue := (UpsertInput.row_of_find hrecord).symm.trans heq
      exact sqlEqual_iff.mpr ⟨v, hrow, hvalue⟩
    · exact hothers _ (List.mem_filter.mpr ⟨hfield, by simpa using hcolumn⟩)

section
variable {indexes : List (TableIndex V)} {index : TableIndex V} {fields : List String}

omit [DecidableEq V] in
theorem tryExtractUniqueIndex_spec (h : tryExtractUniqueIndex indexes fields = some index) :
    index ∈ indexes ∧ index.isUnique = true ∧ index.predicate? = none := by
  have hspec := List.find?_some h
  rw [Bool.and_eq_true, Bool.and_eq_true] at hspec
  exact ⟨List.mem_of_find?_eq_some h, hspec.1.1, Option.isNone_iff_eq_none.mp hspec.1.2⟩

/-- Rows with one key clash. -/
theorem clashes_of_key (h : tryExtractUniqueIndex indexes fields = some index) {row other : Row V}
    (hkey : ∀ column ∈ index.columns, sqlEqual (row column) (other column) = true) :
    clashes indexes row other = true := by
  obtain ⟨hmem, hunique, hpredicate⟩ := tryExtractUniqueIndex_spec h
  refine List.any_eq_true.mpr ⟨index, hmem, ?_⟩
  rw [TableIndex.clash, hunique, hpredicate, Bool.true_and, Option.all_none, Bool.true_and,
    List.all_eq_true]
  intro column hcolumn
  rw [hkey column hcolumn, Bool.true_or]

theorem conflictsOn_clashes (h : tryExtractUniqueIndex indexes fields = some index)
    {row existing : Row V} (hconflict : conflictsOn index.columns row existing = true) :
    clashes indexes row existing = true :=
  clashes_of_key h (List.all_eq_true.mp hconflict)

/-- A table holds one row of a key. -/
theorem atMostOne_conflicts (h : tryExtractUniqueIndex indexes fields = some index)
    {rows : List (Row V)} (hrows : Distinct indexes rows) (row : Row V) :
    AtMostOne (conflictsOn index.columns row) rows := by
  refine hrows.imp fun {a b} hclash ⟨ha, hb⟩ => ?_
  have hkey : ∀ column ∈ index.columns, sqlEqual (a column) (b column) = true := by
    intro column hcolumn
    obtain ⟨v, hrow, ha⟩ := sqlEqual_iff.mp (List.all_eq_true.mp ha column hcolumn)
    obtain ⟨v', hrow', hb⟩ := sqlEqual_iff.mp (List.all_eq_true.mp hb column hcolumn)
    exact sqlEqual_iff.mpr ⟨v, ha, hb.trans (hrow'.symm.trans hrow)⟩
  rw [clashes_of_key h hkey] at hclash
  cases hclash

end

/-! ## Statements -/

section
variable {indexes : List (TableIndex V)} {rows : List (Row V)}

theorem clash_comm (index : TableIndex V) (row other : Row V) :
    index.clash row other = index.clash other row := by
  have hequal : ∀ value other : Option V, sqlEqual value other = sqlEqual other value := by
    intro value other
    rw [Bool.eq_iff_iff, sqlEqual_iff, sqlEqual_iff]
    exact ⟨fun ⟨v, h, h'⟩ => ⟨v, h', h⟩, fun ⟨v, h, h'⟩ => ⟨v, h', h⟩⟩
  unfold TableIndex.clash
  congr 1
  · congr 1
    cases index.predicate? with
    | none => rfl
    | some holds => exact Bool.and_comm _ _
  · refine congrArg _ (funext fun column => ?_)
    rw [hequal, Bool.and_assoc, Bool.and_assoc, Bool.and_comm (row column).isNone]

/-- A row is added unless it clashes with one that is there. -/
theorem distinct_append (hrows : Distinct indexes rows) (row : Row V) :
    Distinct indexes (rows ++ [row]) ↔ rows.any (clashes indexes row) = false := by
  have hcomm : ∀ other, clashes indexes other row = clashes indexes row other := fun other =>
    congrArg _ (funext fun index => clash_comm index other row)
  unfold Distinct
  rw [List.pairwise_append, List.any_eq_false]
  constructor
  · intro ⟨_, _, h⟩ other hother
    rw [← hcomm, h other hother row List.mem_cons_self]
    exact Bool.false_ne_true
  · intro h
    refine ⟨hrows, List.pairwise_singleton _ _, fun other hother last hlast => ?_⟩
    rw [List.mem_singleton.mp hlast, hcomm]
    exact Bool.eq_false_iff.mpr (h other hother)

theorem store_ok {α : Type} {written : List (Row V)} (h : Distinct indexes written) (result : α) :
    store indexes rows written result = (.ok result, written) := if_pos h

theorem store_error {α : Type} {written : List (Row V)} (h : ¬Distinct indexes written) (result : α) :
    store indexes rows written result = (.error .duplicateUniqueKey, rows) := if_neg h

/-- What fails fails again. -/
theorem sendUpsertStatement_eq (statement : UpsertStatement V) (rows : List (Row V)) :
    sendUpsertStatement indexes statement rows = executeUpsert indexes statement rows := by
  unfold sendUpsertStatement
  split
  · rename_i written heq
    have hrows : written = rows := by
      unfold executeUpsert store at heq
      dsimp only at heq
      split at heq
      · split at heq <;> cases heq
        rfl
      · cases heq
      · split at heq
        · split at heq <;> cases heq
          rfl
        · cases heq
    rw [hrows]
  · rfl

theorem prepareUpsertQuery_spec {input : UpsertInput V P} {columns : List String}
    {statement : UpsertStatement V} (h : prepareUpsertQuery input columns = some statement) :
    isConflictTarget input.filters input.insertRecord columns = true ∧
      statement =
        { conflictColumns := columns
          row := input.row
          update := input.updateRecord.map fun update =>
            (update, fieldsHold (getUpdateFilters input.filters columns)) } := by
  unfold prepareUpsertQuery at h
  split at h
  · cases h
  · split at h
    · cases h
    · split at h
      · cases h
      · rename_i htarget
        exact ⟨by simpa using htarget, (Option.some.inj h).symm⟩

end

/-! ## The steps -/

section
variable {indexes : List (TableIndex V)} {database : Database V} {input : UpsertInput V P}
  {rows : List (Row V)}

/-- Filters that hold for no row change nothing. -/
theorem executeUpdate_none (hrows : Distinct indexes rows)
    (h : rows.find? (fieldsHold input.filters.fields) = none) :
    executeUpdate indexes input rows = (.ok none, rows) := by
  unfold executeUpdate
  cases input.updateRecord with
  | none =>
    dsimp only
    rw [h]
  | some update =>
    have hsame : rows.map (fun row => if fieldsHold input.filters.fields row then update row else row) =
        rows := by
      refine (List.map_congr_left fun row hrow => ?_).trans (List.map_id rows)
      exact if_neg (List.find?_eq_none.mp h row hrow)
    dsimp only
    rw [hsame, h, store_ok hrows, Option.map_none]

/-- A row that is not updated and clashes is neither inserted. -/
theorem upsertInSteps_duplicate (hupdate : executeUpdate indexes input rows = (.ok none, rows))
    (hclash : rows.any (clashes indexes input.row) = true) (left : Nat) :
    upsertInSteps indexes database input left rows = (.error .duplicateUniqueKey, rows) := by
  have hinsert : executeInsert indexes input rows = (.ok none, rows) := if_pos hclash
  induction left with
  | zero => simp only [upsertInSteps, hupdate, hinsert]
  | succ left ih => simp only [upsertInSteps, hupdate, hinsert, ih]

theorem upsertInSteps_inserted (hupdate : executeUpdate indexes input rows = (.ok none, rows))
    (hfree : rows.any (clashes indexes input.row) = false) (left : Nat) :
    upsertInSteps indexes database input left rows =
      (.ok (getUpsertResult database input (fun _ => none) rows input.row true),
        rows ++ [input.row]) := by
  have hinsert : executeInsert indexes input rows = (.ok (some input.row), rows ++ [input.row]) :=
    if_neg (Bool.eq_false_iff.mp hfree)
  cases left <;> simp only [upsertInSteps, hupdate, hinsert]

end

/-! ## Both ways -/

/-- What is included leaves the record to insert as it is read without. -/
def IncludeUnseen (database : Database V) (input : UpsertInput V P) (rows : List (Row V)) : Prop :=
  ∀ select, input.select = some select → ∀ field ∈ select,
    readField (database rows) input.included input.row field =
      readField (database rows) (fun _ => none) input.row field

theorem includeUnseen_iff {database : Database V} {input : UpsertInput V P} {rows : List (Row V)} :
    IncludeUnseen database input rows ↔
      getUpsertResult database input input.included rows input.row true =
        getUpsertResult database input (fun _ => none) rows input.row true := by
  unfold IncludeUnseen getUpsertResult
  rw [UpsertResult.mk.injEq, and_iff_left rfl]
  cases input.select with
  | none => exact ⟨fun _ => rfl, fun _ _ h => by cases h⟩
  | some select =>
    rw [Option.map_some, Option.map_some, Option.some.injEq, readRecord, readRecord, List.map_inj_left]
    exact ⟨fun h => h select rfl, fun h _ heq => Option.some.inj heq ▸ h⟩

section
variable {indexes : List (TableIndex V)} {database : Database V} {input : UpsertInput V P}
  {rows : List (Row V)} {index : TableIndex V} {statement : UpsertStatement V} {fields : List String}

/-- The key is of no row. -/
theorem agrees_of_free (hrows : Distinct indexes rows)
    (hstatement : prepareUpsertQuery input index.columns = some statement)
    (hfind : rows.find? (conflictsOn index.columns input.row) = none) :
    upsertThrough indexes database input statement 1 rows = upsertInSteps indexes database input 1 rows ↔
      rows.any (clashes indexes input.row) = true ∨ IncludeUnseen database input rows := by
  obtain ⟨htarget, rfl⟩ := prepareUpsertQuery_spec hstatement
  have hupdate : executeUpdate indexes input rows = (.ok none, rows) := by
    refine executeUpdate_none hrows (List.find?_eq_none.mpr fun row hrow => ?_)
    have hkey := List.find?_eq_none.mp hfind row hrow
    rw [fieldsHold_iff_conflicts htarget, Bool.and_eq_true]
    exact fun h => hkey h.1
  have hexecute : ∀ update, executeUpsert indexes
      { conflictColumns := index.columns, row := input.row, update } rows =
      store indexes rows (rows ++ [input.row]) (some (input.row, true)) := by
    intro update
    unfold executeUpsert
    dsimp only
    rw [hfind]
  cases hclash : rows.any (clashes indexes input.row) with
  | true =>
    have hviolates : ¬Distinct indexes (rows ++ [input.row]) := fun h => by
      rw [(distinct_append hrows _).mp h] at hclash
      cases hclash
    rw [upsertInSteps_duplicate hupdate hclash, upsertThrough, sendUpsertStatement_eq, hexecute,
      store_error hviolates]
    simp
  | false =>
    have hfits := (distinct_append hrows _).mpr hclash
    rw [upsertInSteps_inserted hupdate hclash, upsertThrough, sendUpsertStatement_eq, hexecute,
      store_ok hfits, includeUnseen_iff]
    simp

/-- The key is of a row: it is changed, read or left, in one statement as in steps. -/
theorem agrees_of_existing (hrows : Distinct indexes rows)
    (hindex : tryExtractUniqueIndex indexes fields = some index)
    (hstatement : prepareUpsertQuery input index.columns = some statement) {existing : Row V}
    (hfind : rows.find? (conflictsOn index.columns input.row) = some existing) :
    upsertThrough indexes database input statement 1 rows =
      upsertInSteps indexes database input 1 rows := by
  obtain ⟨htarget, rfl⟩ := prepareUpsertQuery_spec hstatement
  have hone := atMostOne_conflicts hindex hrows input.row
  have hfound : rows.find? (fieldsHold input.filters.fields) =
      if fieldsHold (getUpdateFilters input.filters index.columns) existing then some existing
      else none := by
    rw [funext (fieldsHold_iff_conflicts htarget), hone.find?_and hfind]
  have hclash : rows.any (clashes indexes input.row) = true :=
    List.any_eq_true.mpr ⟨existing, List.mem_of_find?_eq_some hfind,
      conflictsOn_clashes hindex (List.find?_some hfind)⟩
  cases hothers : fieldsHold (getUpdateFilters input.filters index.columns) existing with
  | false =>
    -- neither updated nor inserted
    rw [hothers, if_neg Bool.false_ne_true] at hfound
    rw [upsertInSteps_duplicate (executeUpdate_none hrows hfound) hclash]
    cases hupdate : input.updateRecord with
    | none =>
      simp only [upsertThrough, sendUpsertStatement_eq, executeUpsert, hfind, Option.map_none,
        UpsertStatement.skipsUpdate, Option.isNone_none, Bool.not_true, hfound]
      rfl
    | some update =>
      simp only [upsertThrough, sendUpsertStatement_eq, executeUpsert, hfind, Option.map_some, hothers,
        UpsertStatement.skipsUpdate, Option.isNone_some, Bool.not_false, if_true]
      rfl
  | true =>
    rw [hothers, if_pos rfl] at hfound
    cases hupdate : input.updateRecord with
    | none =>
      have hread : executeUpdate indexes input rows = (.ok (some existing), rows) := by
        simp only [executeUpdate, hupdate, hfound]
      simp only [upsertThrough, upsertInSteps, sendUpsertStatement_eq, executeUpsert, hfind, hread,
        Option.map_none, UpsertStatement.skipsUpdate, Option.isNone_none, Bool.not_true, hfound]
      rfl
    | some update =>
      have hwritten : (rows.map fun row => if fieldsHold input.filters.fields row then update row else row) =
          rows.modify (rows.findIdx (conflictsOn index.columns input.row)) update := by
        rw [hone.modify_eq_map]
        refine List.map_congr_left fun row hrow => ?_
        have hsame : fieldsHold input.filters.fields row = conflictsOn index.columns input.row row := by
          rw [fieldsHold_iff_conflicts htarget]
          cases hkey : conflictsOn index.columns input.row row with
          | false => rfl
          | true =>
            rw [hone.eq_of_find? hfind row hrow hkey]
            exact hothers
        rw [hsame]
      have hsteps : executeUpdate indexes input rows =
          store indexes rows (rows.modify (rows.findIdx (conflictsOn index.columns input.row)) update)
            (some (update existing)) := by
        simp only [executeUpdate, hupdate, hfound, hwritten, Option.map_some]
      by_cases hfits : Distinct indexes
          (rows.modify (rows.findIdx (conflictsOn index.columns input.row)) update)
      · simp only [upsertThrough, upsertInSteps, sendUpsertStatement_eq, executeUpsert, hfind, hsteps,
          Option.map_some, hothers, if_true, store_ok hfits]
      · simp only [upsertThrough, upsertInSteps, sendUpsertStatement_eq, executeUpsert, hfind, hsteps,
          Option.map_some, hothers, if_true, store_error hfits]

end

/-- **The one statement and the steps agree** exactly when nothing is inserted or
the inserted record reads the same with what is included of its relations. -/
theorem upsertOne_iff (indexes : List (TableIndex V)) (database : Database V) (input : UpsertInput V P)
    (rows : List (Row V)) (hrows : Distinct indexes rows) {index : TableIndex V}
    (hindex : tryExtractUniqueIndex indexes (keysOf input.filters.fields) = some index)
    {statement : UpsertStatement V} (hstatement : prepareUpsertQuery input index.columns = some statement) :
    upsertOne indexes database input rows = upsertInSteps indexes database input 1 rows ↔
      rows.any (clashes indexes input.row) = true ∨ IncludeUnseen database input rows := by
  have hone : upsertOne indexes database input rows =
      upsertThrough indexes database input statement 1 rows := by
    simp only [upsertOne, hindex, hstatement]
  rw [hone]
  cases hfind : rows.find? (conflictsOn index.columns input.row) with
  | none => exact agrees_of_free hrows hstatement hfind
  | some existing =>
    refine iff_of_true (agrees_of_existing hrows hindex hstatement hfind) (.inl ?_)
    exact List.any_eq_true.mpr ⟨existing, List.mem_of_find?_eq_some hfind,
      conflictsOn_clashes hindex (List.find?_some hfind)⟩

/-! ## Samples -/

namespace Sample

def rowOf (fields : List (String × Nat)) : Row Nat := find fields

def indexes : List (TableIndex Nat) :=
  [{ columns := ["id_a"], type := .primary }, { columns := ["value"], type := .unique }]

/-- One related record. -/
def database : Database Nat := fun rows table =>
  if table = "table_a" then rows else [rowOf [("id_b", 1), ("value", 5)]]

def relation : SelectRelation Nat (Option Nat) where
  sourceTable := "table_b"
  sourceColumn := "id_b"
  single := true
  targetColumn := "relation_1_id"
  read _ row := row "value"

/-- A record connected with the related one, of which the given is included. -/
def input (included : IncludeInput Nat) : UpsertInput Nat (Option Nat) where
  filters := { fields := [("id_a", .value (some 1))], distinct := by decide }
  insertRecord := [("id_a", some 1), ("value", some 7), ("relation_1_id", some 1)]
  updateRecord := some fun row column => if column = "value" then some 8 else row column
  select := some [("value", .value), ("relation_1", .relation relation)]
  included

def includesOthers : IncludeInput Nat := fun _ => some { filters := fun row => row "value" = some 6 }

def recordOf (run : Except UpsertError (UpsertResult Nat (Option Nat)) × List (Row Nat)) :
    Option (RecordOf Nat (Option Nat)) :=
  match run.1 with
  | .ok result => result.record
  | .error _ => none

/-- The record inserted in steps is read without what is included. -/
theorem include_left_out :
    Distinct indexes [] ∧ (prepareUpsertQuery (input includesOthers) ["id_a"]).isSome ∧
      upsertOne indexes database (input includesOthers) [] ≠
        upsertInSteps indexes database (input includesOthers) 1 [] := by
  refine ⟨by decide, rfl, fun h => ?_⟩
  have hrecord := congrArg recordOf h
  revert hrecord
  decide

def existing : List (Row Nat) := [rowOf [("id_a", 1), ("value", 3)], rowOf [("id_a", 2), ("value", 4)]]

/-- The record that is there is updated. -/
theorem existing_agrees :
    upsertOne indexes database (input includesOthers) existing =
      upsertInSteps indexes database (input includesOthers) 1 existing :=
  (upsertOne_iff indexes database (input includesOthers) existing (by decide) rfl rfl).mpr
    (.inl (by decide))

end Sample

end Ez4.PgClient.Upsert

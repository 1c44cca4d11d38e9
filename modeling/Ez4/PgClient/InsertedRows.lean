import Mathlib.Tactic.Linarith
import Ez4.Library.Except
import Ez4.PgClient.InsertMany

/-! # The rows of an insertion in parts

What the rows of one statement hold, which of the parts that are built throw, and
when the statements together write what one over the whole list would. -/
namespace Ez4.PgClient
open Ez4.Utils Ez4.Schema Ez4.PgSql Ez4.Library

variable {π : Type}

/-! ## What a statement writes -/

/-- What a column of a row is given. -/
inductive Written (π : Type)
  | default
  | null
  | value (content : π)
  /-- The statement is refused for a placeholder without its variable. -/
  | unbound

/-- A placeholder is read from the variables that are bound with the statement. -/
def Cell.read (bound : List (FieldParameter π)) : Cell π → Written π
  | default => .default
  | null => .null
  | placeholder index _ =>
    match bound[index]? with
    | some parameter => if parameter.name = toString index then .value parameter.content else .unbound
    | none => .unbound

/-- A row, by the names of all columns. Those that are not named take their defaults. -/
abbrev WrittenRow (π : Type) := String → Written π

def PgExecuteStatement.writtenRow (statement : PgExecuteStatement π) (cells : List (Cell π)) :
    WrittenRow π := fun column =>
  match find (statement.fields.zip cells) column with
  | some cell => cell.read statement.boundVariables
  | none => .default

def PgExecuteStatement.writtenRows (statement : PgExecuteStatement π) : List (WrittenRow π) :=
  statement.rows.map statement.writtenRow

variable (input : InsertManyInput π)

/-- The row of a record. -/
def recordRow (record : SqlRecord) : WrittenRow π := fun column =>
  match get record column with
  | .undefined => .default
  | .null => .null
  | value => .value (input.content value (find input.schema.properties column))

/-- One column adds a cell without a variable, or takes the next index. -/
theorem getValueReferences_cons (record : SqlRecord) (column : String) (rest : List String)
    (counter : Nat) :
    (∃ cell : Cell π, cell.bound? = none ∧ (∀ bound, cell.read bound = recordRow input record column) ∧
      getValueReferences input record (column :: rest) counter =
        (cell :: (getValueReferences input record rest counter).1,
          (getValueReferences input record rest counter).2)) ∨
    ∃ parameter : FieldParameter π, parameter.name = toString counter ∧
      recordRow input record column = .value parameter.content ∧
      getValueReferences input record (column :: rest) counter =
        (.placeholder counter parameter :: (getValueReferences input record rest (counter + 1)).1,
          (getValueReferences input record rest (counter + 1)).2) := by
  rw [getValueReferences]
  unfold recordRow
  cases get record column with
  | undefined => exact .inl ⟨.default, rfl, fun _ => rfl, rfl⟩
  | null => exact .inl ⟨.null, rfl, fun _ => rfl, rfl⟩
  | bool | num | str | arr | obj => exact .inr ⟨_, rfl, rfl, rfl⟩

/-- The cells of a record are read as its row, from variables that begin with
those of the records before it. -/
theorem getValueReferences_read (record : SqlRecord) (fields : List String)
    (before after : List (FieldParameter π)) {counter : Nat} (hcounter : counter = before.length) :
    let (cells, last) := getValueReferences input record fields counter
    last = (before ++ cells.filterMap Cell.bound?).length ∧
      cells.map (Cell.read (before ++ cells.filterMap Cell.bound? ++ after)) =
        fields.map (recordRow input record) := by
  induction fields generalizing before counter with
  | nil =>
    show counter = (before ++ []).length ∧ [] = []
    rw [List.append_nil]
    exact ⟨hcounter, rfl⟩
  | cons column rest ih =>
    rcases getValueReferences_cons input record column rest counter with
      ⟨cell, hbound, hread, heq⟩ | ⟨parameter, hname, hrow, heq⟩
    · obtain ⟨hlast, hcells⟩ := ih before hcounter
      rw [heq]
      simp only [List.filterMap_cons_none hbound, List.map_cons, hread]
      exact ⟨hlast, by rw [hcells]⟩
    · have hnext : counter + 1 = (before ++ [parameter]).length := by
        rw [List.length_append, hcounter, List.length_singleton]
      obtain ⟨hlast, hcells⟩ := ih (before ++ [parameter]) hnext
      rw [heq]
      simp only [List.append_assoc, List.cons_append, List.nil_append] at hlast hcells
      simp only [List.filterMap_cons, Cell.bound?, List.map_cons, List.append_assoc,
        List.cons_append, hcells, hrow]
      refine ⟨hlast, ?_⟩
      congr 1
      subst hcounter
      simp [Cell.read, hname]

/-- The rows of the records, each read from the variables of them all. -/
theorem getRows_read (records : List SqlRecord) (fields : List String)
    (before after : List (FieldParameter π)) {counter : Nat} (hcounter : counter = before.length) :
    let rows := getRows input fields records counter
    rows.map (List.map (Cell.read (before ++ rows.flatMap (·.filterMap Cell.bound?) ++ after))) =
      records.map fun record => fields.map (recordRow input record) := by
  induction records generalizing before counter with
  | nil => rfl
  | cons record rest ih =>
    obtain ⟨hlast, hcells⟩ := getValueReferences_read input record fields before
      ((getRows input fields rest (getValueReferences input record fields counter).2).flatMap
        (·.filterMap Cell.bound?) ++ after) hcounter
    have hrest := ih _ hlast
    simp only [List.append_assoc] at hcells hrest
    simp only [getRows, List.map_cons, List.flatMap_cons, List.append_assoc, hcells, hrest]

/-! ## The columns of records -/

theorem nodup_eraseDups {α : Type} [BEq α] [LawfulBEq α] (list : List α) : list.eraseDups.Nodup := by
  induction hn : list.length using Nat.strong_induction_on generalizing list with
  | _ n ih =>
    cases list with
    | nil => exact List.nodup_nil
    | cons first rest =>
      rw [List.eraseDups_cons, List.nodup_cons]
      refine ⟨?_, ih _ ?_ _ rfl⟩
      · simp
      · have := List.length_filter_le (fun b => !b == first) rest
        rw [List.length_cons] at hn
        omega

theorem mem_fieldsOf {records : List SqlRecord} {column : String} :
    column ∈ fieldsOf records ↔ ∃ record ∈ records, column ∈ getFields record := by
  rw [fieldsOf, List.mem_eraseDups, List.mem_flatMap]

/-- A value that is given has its column among the fields. -/
theorem mem_getFields {record : SqlRecord} {column : String} (h : get record column ≠ .undefined) :
    column ∈ getFields record := by
  rw [get_eq] at h
  cases hfind : find record column with
  | none => exact absurd (congrArg (Option.getD · .undefined) hfind) h
  | some value =>
    refine List.mem_map.mpr ⟨(column, value), List.mem_filter.mpr ⟨mem_of_find hfind, ?_⟩, rfl⟩
    rw [hfind] at h
    cases value with
    | undefined => exact absurd rfl h
    | _ => rfl

theorem fieldsOf_subset {records others : List SqlRecord} (h : records ⊆ others) :
    (fieldsOf records).length ≤ (fieldsOf others).length := by
  refine (List.subperm_of_subset (nodup_eraseDups _) fun column hcolumn => ?_).length_le
  obtain ⟨record, hrecord, hfield⟩ := mem_fieldsOf.mp hcolumn
  exact mem_fieldsOf.mpr ⟨record, h hrecord, hfield⟩

/-! ## One statement -/

/-- Records that no statement inserts together: they have no column to name. -/
def Columnless (records : List SqlRecord) : Prop := 1 < records.length ∧ fieldsOf records = []

section Statements

variable {records chunk part : List SqlRecord} {statement : PgExecuteStatement π}

theorem prepareStatement_ok (h : prepareStatement input records = .ok statement) :
    ¬Columnless records ∧ statement.fields = fieldsOf records ∧
      statement.rows = (if (fieldsOf records).isEmpty then [[]]
        else getRows input (fieldsOf records) records 0) ∧
      statement.boundVariables = statement.rows.flatMap (·.filterMap Cell.bound?) := by
  unfold prepareStatement at h
  simp only at h
  split at h
  · cases h
  · rename_i hcolumns
    obtain rfl := Except.ok.inj h
    refine ⟨?_, rfl, rfl, rfl⟩
    intro hless
    apply hcolumns
    rw [hless.2, Bool.and_eq_true]
    exact ⟨decide_eq_true hless.1, rfl⟩

theorem prepareStatement_returns :
    (∃ statement, prepareStatement input records = .ok statement) ↔ ¬Columnless records := by
  constructor
  · intro ⟨_, h⟩
    exact (prepareStatement_ok input h).1
  · intro h
    unfold prepareStatement
    simp only
    split
    · rename_i hcolumns
      rw [Bool.and_eq_true, decide_eq_true_eq, List.isEmpty_iff] at hcolumns
      exact absurd hcolumns h
    · exact ⟨_, rfl⟩

/-- A record without the named columns takes the default everywhere. -/
theorem recordRow_of_not_mem {record : SqlRecord} {column : String} (h : column ∉ getFields record) :
    recordRow input record column = .default := by
  have hvalue : get record column = .undefined := by
    by_contra hvalue
    exact h (mem_getFields hvalue)
  rw [recordRow, hvalue]

theorem find_zip_map {α : Type} (fields : List String) (f : String → α) (column : String) :
    find (fields.zip (fields.map f)) column = if column ∈ fields then some (f column) else none := by
  induction fields with
  | nil => rfl
  | cons first rest ih =>
    rw [List.map_cons, List.zip_cons_cons, find_cons, ih]
    by_cases h : first = column
    · rw [if_pos h, if_pos (h ▸ List.mem_cons_self), h]
    · rw [if_neg h]
      simp only [List.mem_cons, Ne.symm h, false_or]

theorem find_zip_map_right {α β : Type} (fields : List String) (cells : List α) (f : α → β)
    (column : String) :
    (find (fields.zip cells) column).map f = find (fields.zip (cells.map f)) column := by
  induction fields generalizing cells with
  | nil => rfl
  | cons first rest ih =>
    cases cells with
    | nil => rfl
    | cons cell cells =>
      rw [List.map_cons, List.zip_cons_cons, List.zip_cons_cons, find_cons, find_cons, ← ih]
      split <;> rfl

/-- The rows of a statement are those of its records. -/
theorem prepareStatement_rows (h : prepareStatement input records = .ok statement)
    (hne : records ≠ []) : statement.writtenRows = records.map (recordRow input) := by
  obtain ⟨hcolumns, hfields, hrows, hbound⟩ := prepareStatement_ok input h
  by_cases hempty : fieldsOf records = []
  · -- a single record, whose row is of defaults
    rw [hempty, List.isEmpty_nil, if_pos rfl] at hrows
    obtain ⟨record, rfl⟩ : ∃ record, records = [record] := by
      apply List.length_eq_one_iff.mp
      have := List.length_pos_of_ne_nil hne
      have : ¬1 < records.length := fun hlength => hcolumns ⟨hlength, hempty⟩
      omega
    rw [PgExecuteStatement.writtenRows, hrows, List.map_singleton, List.map_singleton]
    congr 1
    funext column
    rw [PgExecuteStatement.writtenRow, hfields, hempty, recordRow_of_not_mem]
    · rfl
    · intro hcolumn
      have hmem := mem_fieldsOf.mpr ⟨record, List.mem_singleton_self record, hcolumn⟩
      rw [hempty] at hmem
      cases hmem
  · rw [if_neg (by rwa [List.isEmpty_iff])] at hrows
    have hstart : 0 = ([] : List (FieldParameter π)).length := rfl
    have hread := getRows_read input records (fieldsOf records) [] [] hstart
    simp only [List.nil_append, List.append_nil, ← hrows, ← hbound] at hread
    -- a row is what its cells are read as, by their columns
    have hrow : statement.writtenRow = (fun cells column =>
        match find ((fieldsOf records).zip cells) column with
        | some written => written
        | none => .default) ∘ List.map (Cell.read statement.boundVariables) := by
      funext cells column
      rw [Function.comp_apply, ← find_zip_map_right, PgExecuteStatement.writtenRow, hfields]
      cases find ((fieldsOf records).zip cells) column <;> rfl
    rw [PgExecuteStatement.writtenRows, hrow, ← List.map_map, hread, List.map_map]
    refine List.map_congr_left fun record hrecord => ?_
    funext column
    rw [Function.comp_apply, find_zip_map]
    by_cases hcolumn : column ∈ fieldsOf records
    · rw [if_pos hcolumn]
    · rw [if_neg hcolumn, recordRow_of_not_mem]
      exact fun hfield => hcolumn (mem_fieldsOf.mpr ⟨record, hrecord, hfield⟩)

theorem length_getValueReferences (record : SqlRecord) (fields : List String) (counter : Nat) :
    (getValueReferences input record fields counter).1.length = fields.length := by
  have hbefore : counter = (List.replicate counter
    (⟨"", input.content .null none⟩ : FieldParameter π)).length := List.length_replicate.symm
  have hread := (getValueReferences_read input record fields _ [] hbefore).2
  simpa only [List.length_map] using congrArg List.length hread

/-- A statement binds at most one variable for a column of a record. -/
theorem length_getRows_bound (fields : List String) (records : List SqlRecord) (counter : Nat) :
    ((getRows input fields records counter).flatMap (·.filterMap Cell.bound?)).length ≤
      records.length * fields.length := by
  induction records generalizing counter with
  | nil => exact Nat.zero_le _
  | cons record rest ih =>
    have hrow : ((getValueReferences input record fields counter).1.filterMap Cell.bound?).length ≤
        fields.length :=
      (List.length_filterMap_le _ _).trans_eq (length_getValueReferences input record fields counter)
    have hrest := ih (getValueReferences input record fields counter).2
    simp only [getRows, List.flatMap_cons, List.length_append, List.length_cons, Nat.succ_mul]
    omega

theorem prepareStatement_bound (h : prepareStatement input records = .ok statement) :
    statement.boundVariables.length ≤ records.length * (fieldsOf records).length := by
  obtain ⟨-, -, hrows, hbound⟩ := prepareStatement_ok input h
  rw [hbound, hrows]
  split
  · exact Nat.zero_le _
  · exact length_getRows_bound input _ _ _

/-- A statement within the excess is within both limits. -/
theorem getStatementExcess_le_one : getStatementExcess input statement ≤ 1 ↔
    textLength statement.query ≤ maxStatementLength ∧
      input.variablesSize statement.boundVariables ≤ maxVariablesSize := by
  have hratio : ∀ a b : Nat, 0 < b → ((a : Rat) / b ≤ 1 ↔ a ≤ b) := by
    intro a b hb
    rw [div_le_one (Nat.cast_pos.mpr hb), Nat.cast_le]
  rw [getStatementExcess, max_le_iff, hratio _ _ (by decide), hratio _ _ (by decide)]

/-! ## The parts that are built -/

/-- A chunk and the shares that it is cut into while it is over the limits. -/
inductive Part : List SqlRecord → List SqlRecord → Prop
  | whole {chunk : List SqlRecord} : Part chunk chunk
  | share {chunk share part : List SqlRecord} {statement : PgExecuteStatement π}
      (built : prepareStatement input chunk = .ok statement)
      (exceeds : ¬(getStatementExcess input statement ≤ 1 ∨ chunk.length = 1))
      (cut : share ∈ getChunks chunk
        (partSize input chunk.length (getStatementExcess input statement)) (partSize_pos input _ _))
      (further : Part share part) : Part chunk part

theorem Part.length_le {chunk part : List SqlRecord} (h : Part input chunk part) :
    part.length ≤ chunk.length := by
  induction h with
  | whole => exact Nat.le_refl _
  | share _ _ cut _ ih => exact ih.trans (mem_getChunks cut).2.2

/-- The parts of the list for which a statement is built. -/
def PartOf (records part : List SqlRecord) : Prop :=
  ∃ h : 0 < chunkSize records, ∃ chunk ∈ getChunks records (chunkSize records) h, Part input chunk part

/-- One statement for each part, in the order of the records. -/
structure Cut (part : List SqlRecord) (statement : PgExecuteStatement π) : Prop where
  built : prepareStatement input part = .ok statement
  filled : part ≠ []
  within : part.length = 1 ∨ textLength statement.query ≤ maxStatementLength ∧
    input.variablesSize statement.boundVariables ≤ maxVariablesSize

/-- The parts that make up a chunk, with their statements. -/
def Splits (chunk : List SqlRecord) (statements : List (PgExecuteStatement π)) : Prop :=
  ∃ parts, parts.flatten = chunk ∧ List.Forall₂ (Cut input) parts statements

/-- Pieces that are split one by one are split together. -/
theorem Splits.flatten {chunks : List (List SqlRecord)} {lists : List (List (PgExecuteStatement π))}
    (h : List.Forall₂ (Splits input) chunks lists) : Splits input chunks.flatten lists.flatten := by
  induction h with
  | nil => exact ⟨[], rfl, .nil⟩
  | cons hfirst _ ih =>
    obtain ⟨parts, rfl, hparts⟩ := hfirst
    obtain ⟨others, hothers, hrest⟩ := ih
    refine ⟨parts ++ others, ?_, List.rel_append hparts hrest⟩
    rw [List.flatten_append, List.flatten_cons, hothers]

/-- What is prepared for a chunk splits it. -/
theorem prepareStatements_splits {statements : List (PgExecuteStatement π)} (hne : chunk ≠ [])
    (h : prepareStatements input chunk = .ok statements) : Splits input chunk statements := by
  induction hn : chunk.length using Nat.strong_induction_on generalizing chunk statements with
  | _ n ih =>
    rw [prepareStatements_eq] at h
    obtain ⟨statement, hbuilt, h⟩ := Except.bind_ok.mp h
    split at h
    · rename_i hfits
      obtain rfl := Except.ok.inj h
      refine ⟨[chunk], by rw [List.flatten_singleton], .cons ⟨hbuilt, hne, ?_⟩ .nil⟩
      exact hfits.symm.imp_right (getStatementExcess_le_one input).mp
    · rename_i hover
      obtain ⟨lists, hlists, h⟩ := Except.bind_ok.mp h
      obtain rfl := Except.ok.inj h
      have hparts := Except.mapM_ok.mp hlists
      have hjoined : (getChunks chunk (partSize input chunk.length (getStatementExcess input statement))
        (partSize_pos input _ _)).flatten = chunk := flatten_getChunks chunk
      rw [← hjoined]
      have hshares := (List.forall₂_and_left _ _).mpr ⟨fun share hshare =>
        (⟨(mem_getChunks hshare).1, hn ▸ length_part_lt input hover hshare⟩ :
          share ≠ [] ∧ share.length < n), hparts⟩
      exact Splits.flatten input (hshares.imp fun share statements h => ih _ h.1.2 h.1.1 h.2 rfl)

/-- A chunk is prepared unless a part of it is columnless. -/
theorem prepareStatements_returns : (∃ statements, prepareStatements input chunk = .ok statements) ↔
    ∀ part, Part input chunk part → ¬Columnless part := by
  induction hn : chunk.length using Nat.strong_induction_on generalizing chunk with
  | _ n ih =>
    constructor
    · intro ⟨statements, h⟩ part hpart
      rw [prepareStatements_eq] at h
      obtain ⟨statement, hbuilt, h⟩ := Except.bind_ok.mp h
      cases hpart with
      | whole => exact (prepareStatement_ok input hbuilt).1
      | @share _ share _ other built exceeds cut further =>
        obtain rfl := Except.ok.inj (hbuilt.symm.trans built)
        rw [if_neg exceeds] at h
        obtain ⟨lists, hlists, -⟩ := Except.bind_ok.mp h
        have hreturns := Except.mapM_returns.mp ⟨lists, hlists⟩ share cut
        exact (ih _ (hn ▸ length_part_lt input exceeds cut) rfl).mp hreturns part further
    · intro h
      obtain ⟨statement, hbuilt⟩ := (prepareStatement_returns input).mpr (h chunk .whole)
      rw [prepareStatements_eq]
      by_cases hfits : getStatementExcess input statement ≤ 1 ∨ chunk.length = 1
      · exact ⟨[statement], Except.bind_ok.mpr ⟨statement, hbuilt, if_pos hfits⟩⟩
      · obtain ⟨lists, hlists⟩ := Except.mapM_returns.mpr fun share hshare =>
          (ih _ (hn ▸ length_part_lt input hfits hshare) rfl).mpr fun part further =>
            h part (.share hbuilt hfits hshare further)
        refine ⟨lists.flatten, Except.bind_ok.mpr ⟨statement, hbuilt, ?_⟩⟩
        rw [if_neg hfits]
        exact Except.bind_ok.mpr ⟨lists, hlists, rfl⟩

/-! ## The whole list -/

/-- What the statements of a list of records are to be. -/
structure SplitsSoundly (records : List SqlRecord) (statements : List (PgExecuteStatement π)) :
    Prop where
  /-- The records of the statements are the records, in order and each once, and
  the text and the variables are within their limits unless it is a single record. -/
  splits : Splits input records statements
  bound : ∀ statement ∈ statements, statement.boundVariables.length ≤ maxStatementParameters
  /-- They write the rows that one statement over the whole list writes. -/
  rows : ∃ whole, prepareStatement input records = .ok whole ∧
    statements.flatMap PgExecuteStatement.writtenRows = whole.writtenRows

variable {input}

theorem Splits.rows {statements : List (PgExecuteStatement π)} (h : Splits input records statements) :
    statements.flatMap PgExecuteStatement.writtenRows = records.map (recordRow input) := by
  obtain ⟨parts, rfl, hparts⟩ := h
  induction hparts with
  | nil => rfl
  | cons hcut _ ih =>
    rw [List.flatMap_cons, List.flatten_cons, List.map_append, ih,
      prepareStatement_rows input hcut.built hcut.filled]

theorem forall_mem_right {α β : Type} {R : α → β → Prop} {p : β → Prop} {l : List α} {r : List β}
    (h : List.Forall₂ R l r) (hp : ∀ a ∈ l, ∀ b, R a b → p b) : ∀ b ∈ r, p b := by
  induction h with
  | nil => exact fun b hb => (List.not_mem_nil hb).elim
  | cons hfirst _ ih =>
    rw [List.forall_mem_cons]
    exact ⟨hp _ List.mem_cons_self _ hfirst, ih fun a ha => hp a (List.mem_cons_of_mem _ ha)⟩

/-- The parts of a chunk have no more columns than the list, and no more records than the chunk. -/
theorem Splits.bound {statements : List (PgExecuteStatement π)} (h : Splits input chunk statements)
    (hsub : chunk ⊆ records) : ∀ statement ∈ statements,
      statement.boundVariables.length ≤ chunk.length * getColumnsCount records := by
  obtain ⟨parts, rfl, hparts⟩ := h
  refine forall_mem_right hparts fun part hpart statement hcut => ?_
  have hlist : part.Sublist parts.flatten := List.sublist_flatten_of_mem hpart
  exact (prepareStatement_bound input hcut.built).trans
    (Nat.mul_le_mul hlist.length_le (fieldsOf_subset (List.Subset.trans hlist.subset hsub)))

/-- The first chunk of columnless records is columnless. -/
theorem columnless_first (h : Columnless records) : ∃ part, PartOf input records part ∧ Columnless part := by
  have hsize : chunkSize records = maxStatementParameters := by
    unfold chunkSize getColumnsCount
    rw [h.2]
    rfl
  have hpos : 0 < chunkSize records := hsize ▸ by decide
  have hne : records ≠ [] := List.ne_nil_of_length_pos (Nat.lt_of_succ_lt h.1)
  refine ⟨records.take (chunkSize records), ⟨hpos, _, ?_, .whole⟩, ?_, ?_⟩
  · rw [getChunks_of_ne hne]
    exact List.mem_cons_self
  · rw [List.length_take, hsize]
    exact lt_min (by decide) h.1
  · have hle := fieldsOf_subset (List.take_subset (chunkSize records) records)
    rw [h.2] at hle
    exact List.length_eq_zero_iff.mp (Nat.le_zero.mp hle)

/-- The chunks of the list are prepared unless a part of them is columnless. -/
theorem prepareInsertMany_returns (hpos : 0 < chunkSize records) :
    (∃ statements, prepareInsertMany input records = some (.ok statements)) ↔
      ∀ part, PartOf input records part → ¬Columnless part := by
  unfold prepareInsertMany
  rw [dif_pos hpos]
  constructor
  · intro ⟨statements, h⟩ part ⟨_, chunk, hchunk, hpart⟩
    obtain ⟨lists, hlists, -⟩ := Except.bind_ok.mp (Option.some.inj h)
    exact (prepareStatements_returns input).mp (Except.mapM_returns.mp ⟨lists, hlists⟩ chunk hchunk)
      part hpart
  · intro h
    obtain ⟨lists, hlists⟩ := Except.mapM_returns.mpr fun chunk hchunk =>
      (prepareStatements_returns input).mpr fun part hpart => h part ⟨hpos, chunk, hchunk, hpart⟩
    exact ⟨lists.flatten, congrArg some (Except.bind_ok.mpr ⟨lists, hlists, rfl⟩)⟩

theorem prepareInsertMany_sound {statements : List (PgExecuteStatement π)}
    (hpos : 0 < chunkSize records) (hne : records ≠ []) (h : prepareInsertMany input records = some (.ok statements)) :
    SplitsSoundly input records statements := by
  have hparts := (prepareInsertMany_returns hpos).mp ⟨statements, h⟩
  have hcolumns : ¬Columnless records := by
    intro hless
    obtain ⟨part, hpart, hpartless⟩ : ∃ part, PartOf input records part ∧ Columnless part :=
      columnless_first hless
    exact hparts part hpart hpartless
  obtain ⟨whole, hwhole⟩ := (prepareStatement_returns input).mpr hcolumns
  unfold prepareInsertMany at h
  rw [dif_pos hpos] at h
  obtain ⟨lists, hlists, h⟩ := Except.bind_ok.mp (Option.some.inj h)
  obtain rfl := Except.ok.inj h
  have hchunks := (List.forall₂_and_left _ _).mpr ⟨fun chunk hchunk => mem_getChunks hchunk,
    Except.mapM_ok.mp hlists⟩
  have hsplits : List.Forall₂ (fun chunk list => chunk.length ≤ chunkSize records ∧ Splits input chunk list)
      (getChunks records (chunkSize records) hpos) lists :=
    hchunks.imp fun chunk list hchunk =>
      ⟨hchunk.1.2.1, prepareStatements_splits input hchunk.1.1 hchunk.2⟩
  have hall := Splits.flatten input (hsplits.imp fun _ _ h => h.2)
  rw [flatten_getChunks] at hall
  refine ⟨hall, ?_, whole, hwhole, ?_⟩
  · intro statement hstatement
    obtain ⟨list, hlist, hmem⟩ := List.mem_flatten.mp hstatement
    refine forall_mem_right (p := fun list : List (PgExecuteStatement π) => ∀ statement ∈ list,
      statement.boundVariables.length ≤ maxStatementParameters) hsplits
      (fun chunk hchunk list hlist statement hstatement => ?_) list hlist statement hmem
    have hsub : chunk ⊆ records := by
      have hsublist := List.sublist_flatten_of_mem hchunk
      rw [flatten_getChunks] at hsublist
      exact hsublist.subset
    have hcount := hlist.2.bound hsub statement hstatement
    refine hcount.trans ((Nat.mul_le_mul_right _ hlist.1).trans ?_)
    refine (Nat.mul_le_mul_left _ (Nat.le_max_left _ 1)).trans ?_
    exact Nat.div_mul_le_self _ _
  · rw [hall.rows, prepareStatement_rows input hwhole hne]

end Statements

namespace InsertSample

/-- A driver that passes texts as they are. -/
def driver : InsertManyInput String where
  table := "t"
  schema := .mk {} none {} [] none
  content := fun value _ => match value with
    | .str text => text
    | _ => ""
  variablesSize := fun bound => match bound with
    | [] => 2
    | _ => (bound.map fun parameter => textLength parameter.content + 3).sum + 1
  share := fun length excess => ⌊(length : Rat) / excess⌋.toNat
  share_lt := by
    intro length excess hlength hexcess
    have hpos : (0 : Rat) < length := Nat.cast_pos.mpr hlength
    rw [Int.toNat_lt (Int.floor_nonneg.mpr (by positivity)), Int.floor_lt, div_lt_iff₀ (by linarith)]
    push_cast
    nlinarith

/-- As many records without a column as a chunk holds, and one with a column. -/
def emptyThenOne : List SqlRecord := List.replicate maxStatementParameters [] ++ [[("a", .str "x")]]

theorem flatMap_getFields_replicate (n : Nat) :
    (List.replicate n ([] : SqlRecord)).flatMap getFields = [] := by
  rw [List.flatMap_eq_nil_iff]
  intro record hrecord
  rw [List.eq_of_mem_replicate hrecord]
  rfl

theorem fieldsOf_emptyThenOne : fieldsOf emptyThenOne = ["a"] := by
  rw [fieldsOf, emptyThenOne, List.flatMap_append, flatMap_getFields_replicate]
  rfl

def twoRecords : List SqlRecord := [[("a", .str "x")], []]

end InsertSample

end Ez4.PgClient

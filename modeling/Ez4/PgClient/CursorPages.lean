import Ez4.PgClient.CursorPosition

/-! # A page with a cursor

What the records of a page carry, the cursor that is taken from them, and the
rows that the statement made for the cursor matches. -/
namespace Ez4.PgClient
open Ez4.Library Ez4.Utils

variable {V : Type}

/-! ## Cursor columns -/

section Records

theorem cursorAlias_injective {i j : Nat} (h : cursorAlias i = cursorAlias j) : i = j := by
  have hdigits : Nat.toDigits 10 i = Nat.toDigits 10 j := by
    have hlist := congrArg String.toList h
    simpa [cursorAlias, Nat.toString_eq_ofList_toDigits] using hlist
  rw [← @Nat.ofDigitChars_ten_toDigits i, hdigits, Nat.ofDigitChars_ten_toDigits]

def aliases (fields : List CursorField) : List String := fields.map CursorField.columnAlias

theorem nodup_aliases (order : SqlOrder) : (aliases (getCursorFields order)).Nodup := by
  refine List.nodup_iff_injective_getElem.mpr fun i j hij => ?_
  simp only [aliases, getCursorFields, List.getElem_map, List.getElem_mapIdx] at hij
  exact Fin.ext (cursorAlias_injective hij)

/-- The record without the cursor columns. -/
def withoutCursor (fields : List CursorField) (record : Fields) : Fields :=
  record.filter fun cell => !(aliases fields).contains cell.1

theorem foldl_remove (fields : List CursorField) (record : Fields) :
    fields.foldl (fun record field => remove record field.columnAlias) record =
      withoutCursor fields record := by
  induction fields generalizing record with
  | nil => simp [withoutCursor, aliases]
  | cons field rest ih =>
    rw [List.foldl_cons, ih]
    simp only [withoutCursor, remove, List.filter_filter, aliases, List.map_cons,
      List.contains_cons, Bool.not_or]
    refine List.filter_congr fun cell _ => ?_
    rw [Bool.and_comm]
    congr 1
    exact (Bool.eq_iff_iff.mpr (by simp)).symm

theorem filter_assign {α : Type} {p : String → Bool} {k : String} (hp : p k = false)
    (record : List (String × α)) (a : α) :
    (assign record k a).filter (fun cell => p cell.1) = record.filter fun cell => p cell.1 := by
  induction record with
  | nil => simp [assign, KeyedMap.upsert, hp]
  | cons cell rest ih =>
    unfold assign at ih ⊢
    by_cases hk : cell.1 = k
    · simp [KeyedMap.upsert, hk, hp]
    · simp only [KeyedMap.upsert, if_neg hk, List.filter_cons, ih]

theorem readRecord_assign (record : RecordColumns V) (k : String) (cell : Row V → Value)
    (row : Row V) :
    readRecord (assign record k cell) row = assign (readRecord record row) k (cell row) := by
  induction record with
  | nil => rfl
  | cons c rest ih =>
    unfold readRecord assign at ih ⊢
    by_cases hk : c.1 = k
    · simp [KeyedMap.upsert, hk]
    · simp [KeyedMap.upsert, hk, ih]

/-- The text of the column of a row. -/
def cursorTextOf (pg : Postgres V) (schema : List (String × ColumnSchema)) (row : Row V)
    (column : String) : Value :=
  match find schema column with
  | some columnSchema => cursorCell pg columnSchema column row
  | none => .undefined

/-- A record reads the cursor columns next to what is selected. -/
structure CursorRecord (pg : Postgres V) (schema : List (String × ColumnSchema))
    (fields : List CursorField) (select record : RecordColumns V) : Prop where
  cell : ∀ field ∈ fields, ∀ row,
    find (readRecord record row) field.columnAlias = some (cursorTextOf pg schema row field.column)
  other : ∀ name, name ∉ aliases fields → ∀ row,
    find (readRecord record row) name = find (readRecord select row) name
  rest : ∀ p : String → Bool, (∀ name ∈ aliases fields, p name = false) → ∀ row,
    (readRecord record row).filter (fun cell => p cell.1) =
      (readRecord select row).filter fun cell => p cell.1

variable {pg : Postgres V} {schema : List (String × ColumnSchema)}

/-- Assigning one more cursor column before the others. -/
theorem CursorRecord.cons {field : CursorField} {fields : List CursorField}
    {select record : RecordColumns V} {columnSchema : ColumnSchema}
    (hschema : find schema field.column = some columnSchema)
    (hfresh : field.columnAlias ∉ aliases fields)
    (h : CursorRecord pg schema fields
      (assign select field.columnAlias (cursorCell pg columnSchema field.column)) record) :
    CursorRecord pg schema (field :: fields) select record where
  cell := by
    intro f hf row
    rcases List.mem_cons.mp hf with rfl | hf
    · rw [h.other _ hfresh, readRecord_assign, find_assign, if_pos rfl, cursorTextOf, hschema]
    · exact h.cell f hf row
  other := by
    intro name hname row
    simp only [aliases, List.map_cons, List.mem_cons, not_or] at hname
    rw [h.other name hname.2, readRecord_assign, find_assign, if_neg (Ne.symm hname.1)]
  rest := by
    intro p hp row
    rw [h.rest p fun name hname => hp name (List.mem_cons_of_mem _ hname), readRecord_assign]
    exact filter_assign (hp _ List.mem_cons_self) _ _

theorem assignCursorFields_record {select : RecordColumns V} {order : SqlOrder}
    (hschema : ∀ e ∈ order, ∃ columnSchema, find schema e.1 = some columnSchema) :
    ∃ record, assignCursorFields pg select order schema = .ok (record, getCursorFields order) ∧
      CursorRecord pg schema (getCursorFields order) select record := by
  have hcolumn : ∀ field ∈ getCursorFields order,
      ∃ columnSchema, find schema field.column = some columnSchema := by
    intro field hfield
    obtain ⟨i, hi, rfl⟩ := List.mem_mapIdx.mp hfield
    obtain ⟨e, he, heq⟩ := List.mem_map.mp (List.getElem_mem hi)
    exact heq ▸ hschema e he
  have hnodup := nodup_aliases order
  unfold assignCursorFields
  generalize getCursorFields order = fields at hcolumn hnodup ⊢
  induction fields generalizing select with
  | nil =>
    exact ⟨select, rfl, by simp, by simp, by simp⟩
  | cons field fields ih =>
    obtain ⟨columnSchema, hfind⟩ := hcolumn field List.mem_cons_self
    have ⟨hfresh, hrest⟩ := List.nodup_cons.mp hnodup
    obtain ⟨record, hok, hrecord⟩ := @ih
      (assign select field.columnAlias (cursorCell pg columnSchema field.column))
      (fun f hf => hcolumn f (List.mem_cons_of_mem _ hf)) hrest
    refine ⟨record, ?_, hrecord.cons hfind hfresh⟩
    obtain ⟨r, hfold, hpair⟩ := Except.bind_ok.mp hok
    rw [List.foldlM_cons, hfind]
    refine Except.bind_ok.mpr ⟨r, Except.bind_ok.mpr ⟨_, rfl, hfold⟩, ?_⟩
    have hr : r = record := by
      have := Except.ok.inj hpair
      exact congrArg Prod.fst this
    rw [hr]
    rfl

end Records

/-! ## Positions -/

section Positions

/-- A column a cursor can hold: it has a type, and each row writes its value as a
text that the type accepts and that casts back to the value. -/
structure Comparable (pg : Postgres V) (table : Table V) (column : String) : Prop where
  typed : ∃ type,
    getCursorColumnType column table.schema (table.primaryColumns.getD []) = .ok type
  text : ∀ row ∈ table.rows, ∀ columnSchema type, find table.schema column = some columnSchema →
    getColumnType columnSchema = some type →
      ∃ text, pg.cursorText (getCursorColumn columnSchema) (row column) = some text ∧
        type.isValid text = true ∧ pg.cast type text = some (row column)

variable {pg : Postgres V} {table : Table V} {order : SqlOrder} {row : Row V}

/-- The value of a column in the statement that reads on from the row. -/
def positionValue (pg : Postgres V) (table : Table V) (row : Row V) (column : String) : SqlValue :=
  match find table.schema column with
  | none => ⟨"", .text⟩
  | some columnSchema =>
    ⟨(pg.cursorText (getCursorColumn columnSchema) (row column)).getD "",
      (getColumnType columnSchema).getD .text⟩

theorem getCursorColumnType_ok {column : String} {schema : List (String × ColumnSchema)}
    {primaryColumns : List String} {type : SqlType}
    (h : getCursorColumnType column schema primaryColumns = .ok type) :
    ∃ columnSchema, find schema column = some columnSchema ∧
      getColumnType columnSchema = some type := by
  unfold getCursorColumnType at h
  cases hfind : find schema column with
  | none => simp [hfind] at h
  | some columnSchema =>
    simp only [hfind] at h
    by_cases hnull : (columnSchema.isNullish && !primaryColumns.contains column) = true
    · simp only [if_pos hnull, reduceCtorEq] at h
    · rw [if_neg hnull] at h
      cases htype : getColumnType columnSchema with
      | none => simp [htype] at h
      | some columnType => exact ⟨columnSchema, rfl, by simp_all⟩

structure PositionValue (pg : Postgres V) (table : Table V) (row : Row V) (column : String)
    (value : SqlValue) : Prop where
  typed : getCursorColumnType column table.schema (table.primaryColumns.getD []) = .ok value.type
  text : cursorTextOf pg table.schema row column = .str value.text
  valid : value.type.isValid value.text = true
  cast : pg.cast value.type value.text = some (row column)

theorem Comparable.positionValue {column : String} (h : Comparable pg table column)
    (hrow : row ∈ table.rows) :
    PositionValue pg table row column (positionValue pg table row column) := by
  obtain ⟨type, htyped⟩ := h.typed
  obtain ⟨columnSchema, hfind, htype⟩ := getCursorColumnType_ok htyped
  obtain ⟨text, htext, hvalid, hcast⟩ := h.text row hrow columnSchema type hfind htype
  have hvalue : PgClient.positionValue pg table row column = ⟨text, type⟩ := by
    simp [PgClient.positionValue, hfind, htext, htype]
  rw [hvalue]
  exact ⟨htyped, by simp [cursorTextOf, hfind, cursorCell, htext], hvalid, hcast⟩

/-- The cursor after the row. -/
def cursorOf (pg : Postgres V) (table : Table V) (order : SqlOrder) (row : Row V) : Cursor :=
  some (.arr (order.map fun e => .arr [.str e.1, .str (positionValue pg table row e.1).text]))

theorem decodeCursor_cursorOf (hne : order ≠ []) :
    decodeCursor (cursorOf pg table order row) =
      .ok (order.map fun e => (e.1, (positionValue pg table row e.1).text)) := by
  have hentries : (order.map fun e =>
        Value.arr [.str e.1, .str (positionValue pg table row e.1).text]).mapM cursorEntry? =
      some (order.map fun e => (e.1, (positionValue pg table row e.1).text)) := by
    rw [List.mapM_map]
    exact Except.mapM_pure fun e _ => rfl
  cases order with
  | nil => exact absurd rfl hne
  | cons e rest =>
    rw [List.map_cons] at hentries
    simp only [decodeCursor, cursorOf, List.map_cons, hentries]

theorem getCursorCondition_cursorOf (hne : order ≠ [])
    (hprimary : table.primaryColumns.getD [] ≠ [])
    (hcolumns : ∀ e ∈ order, Comparable pg table e.1) (hrow : row ∈ table.rows) :
    getCursorCondition (cursorOf pg table order row) order table.schema table.primaryColumns =
      .ok (positionCondition order (order.map fun e => positionValue pg table row e.1)) := by
  have hvalues := fun e he => (hcolumns e he).positionValue hrow
  have htypes : (keysOf order).mapM (fun column =>
        getCursorColumnType column table.schema (table.primaryColumns.getD [])) =
      .ok (order.map fun e => (positionValue pg table row e.1).type) := by
    rw [keysOf, List.mapM_map]
    exact Except.mapM_pure fun e he => (hvalues e he).typed
  have hvalid : malformedCell?
      (order.map fun e => (e.1, (positionValue pg table row e.1).text))
      (order.map fun e => (positionValue pg table row e.1).type) = none := by
    rw [malformedCell?, List.zip_map', Option.map_eq_none_iff, List.find?_eq_none]
    intro entry hentry
    obtain ⟨e, he, rfl⟩ := List.mem_map.mp hentry
    simp [(hvalues e he).valid]
  have hkeys : (order.map fun e => (e.1, (positionValue pg table row e.1).text)).map Prod.fst =
      keysOf order := by
    rw [List.map_map]
    rfl
  unfold getCursorCondition
  rw [if_neg hprimary]
  simp only [htypes, decodeCursor_cursorOf hne, hkeys, hvalid, ne_eq, not_true_eq_false, if_false,
    List.zip_map', List.map_map, bind, Except.bind, pure, Except.pure]
  rfl

end Positions

/-! ## A page -/

section Page

variable {pg : Postgres V} {table : Table V} {order : SqlOrder}

/-- What is selected from the row, without the cursor columns. -/
def pageRecord (select : RecordColumns V) (order : SqlOrder) (row : Row V) : Fields :=
  withoutCursor (getCursorFields order) (readRecord select row)

theorem cursorEntries_row {select record : RecordColumns V} {row : Row V}
    (hrecord : CursorRecord pg table.schema (getCursorFields order) select record)
    (hcolumns : ∀ e ∈ order, Comparable pg table e.1) (hrow : row ∈ table.rows) :
    (some (.arr ((getCursorFields order).map fun field =>
        .arr [.str field.column, jsonItem (get (readRecord record row) field.columnAlias)])) :
      Cursor) = cursorOf pg table order row := by
  have hcolumn : (getCursorFields order).map CursorField.column = keysOf order := by
    rw [getCursorFields, List.mapIdx_eq_zipIdx_map, List.map_map]
    exact List.zipIdx_map_fst _ _
  have hitem : ∀ field ∈ getCursorFields order,
      jsonItem (get (readRecord record row) field.columnAlias) =
        .str (positionValue pg table row field.column).text := by
    intro field hfield
    have hmem : field.column ∈ keysOf order := hcolumn ▸ List.mem_map_of_mem hfield
    obtain ⟨e, he, heq⟩ := List.mem_map.mp hmem
    have htext := ((hcolumns e he).positionValue hrow).text
    rw [get_eq, hrecord.cell field hfield row, ← heq, htext]
    rfl
  have hmap : (getCursorFields order).map (fun field =>
        Value.arr [.str field.column, jsonItem (get (readRecord record row) field.columnAlias)]) =
      order.map fun e => .arr [.str e.1, .str (positionValue pg table row e.1).text] := by
    have hmid : (getCursorFields order).map (fun field =>
          Value.arr [.str field.column, jsonItem (get (readRecord record row) field.columnAlias)]) =
        ((getCursorFields order).map CursorField.column).map fun column =>
          .arr [.str column, .str (positionValue pg table row column).text] := by
      rw [List.map_map]
      exact List.map_congr_left fun field hfield => by rw [hitem field hfield]; rfl
    rw [hmid, hcolumn, keysOf, List.map_map]
    rfl
  rw [cursorOf, hmap]

theorem takeRecordsCursor_rows {select record : RecordColumns V} {rows : List (Row V)}
    {take : Nat} (hrecord : CursorRecord pg table.schema (getCursorFields order) select record)
    (hcolumns : ∀ e ∈ order, Comparable pg table e.1) (hrows : ∀ row ∈ rows, row ∈ table.rows) :
    takeRecordsCursor (rows.map (readRecord record)) (getCursorFields order) take =
      ((rows.take take).map (pageRecord select order),
        (if take < rows.length then rows[take - 1]? else none).map (cursorOf pg table order)) := by
  have hpage : ((rows.map (readRecord record)).take take).map (fun record =>
        (getCursorFields order).foldl (fun record field => remove record field.columnAlias) record) =
      (rows.take take).map (pageRecord select order) := by
    rw [← List.map_take, List.map_map]
    refine List.map_congr_left fun row _ => ?_
    rw [Function.comp_apply, foldl_remove]
    exact hrecord.rest (fun name => !(aliases (getCursorFields order)).contains name)
      (fun name hname => by simp [hname]) row
  have hlast : ((if take < (rows.map (readRecord record)).length then
          (rows.map (readRecord record))[take - 1]? else none).map fun record =>
        (some (.arr ((getCursorFields order).map fun field =>
          .arr [.str field.column, jsonItem (get record field.columnAlias)])) : Cursor)) =
      (if take < rows.length then rows[take - 1]? else none).map (cursorOf pg table order) := by
    rw [List.length_map]
    by_cases hlen : take < rows.length
    · rw [if_pos hlen, if_pos hlen, List.getElem?_map, Option.map_map]
      cases hget : rows[take - 1]? with
      | none => rfl
      | some row =>
        have hrow := hrows row (List.mem_of_getElem? hget)
        exact congrArg some (cursorEntries_row hrecord hcolumns hrow)
    · rw [if_neg hlen, if_neg hlen]
      rfl
  rw [← hpage, ← hlast]
  simp only [takeRecordsCursor, Option.map_map]
  rfl

theorem matchingRows_ok {rows : List (Row V)} {filters : Option (SqlFilters V)}
    {keeps : Row V → Bool} (h : ∀ row ∈ rows, rowMatches pg filters row = some (keeps row)) :
    matchingRows pg rows filters = .ok (rows.filter keeps) := by
  have hmap : rows.mapM (rowMatches pg filters) = some (rows.map keeps) := Except.mapM_pure h
  simp only [matchingRows, hmap, Except.ok.injEq]
  clear h hmap
  induction rows with
  | nil => rfl
  | cons row rest ih =>
    cases hk : keeps row <;> simp [hk, ih]

theorem rowMatches_andCondition {filters : Option (SqlFilters V)} {condition : CursorCondition}
    {row : Row V} {kept after : Bool} (hkept : rowMatches pg filters row = some kept)
    (hafter : condition.holds pg row = some after) :
    rowMatches pg (some (andCondition filters condition)) row = some (kept && after) := by
  have hcursor : SqlFilter.holds pg row (.cursor condition) = some after := hafter
  cases filters with
  | none =>
    have hkept : true = kept := Option.some.inj hkept
    simp [rowMatches, andCondition, SqlFilters.holds, hcursor, ← hkept]
  | some filters =>
    simp only [rowMatches, SqlFilters.holds, Option.bind_eq_bind, Option.pure_def] at hkept
    obtain ⟨all, hall, hk⟩ := Option.bind_eq_some_iff.mp hkept
    simp [rowMatches, andCondition, SqlFilters.holds, List.mapM_append, hall, hcursor,
      ← Option.some.inj hk, Bool.and_assoc]

end Page

end Ez4.PgClient

import Ez4.PgClient.CursorPages

/-! # Following the cursor

Reading pages of a table, each with the cursor of the page before, visits the
matching rows in the order that was asked for. -/
namespace Ez4.PgClient
open Ez4.Library Ez4.Utils

variable {V : Type}

/-- What pages are read with, over rows that the order tells apart. -/
structure Reading (pg : Postgres V) (table : Table V) (input : FindManyInput V) (order : SqlOrder)
    (take : Nat) (keeps : Row V → Bool) : Prop where
  pageOrder : ∀ cursor, getPageOrder { input with cursor } table.primaryColumns = some order
  order_ne_nil : order ≠ []
  primary : table.primaryColumns.getD [] ≠ []
  take_eq : input.take = some take
  take_pos : 0 < take
  skip_eq : input.skip = none
  columns : ∀ e ∈ order, Comparable pg table e.1
  distinct : table.rows.Pairwise fun r s => lexSame (rowCriteria pg order) r s = false
  filters : ∀ row ∈ table.rows, rowMatches pg input.filters row = some (keeps row)

/-- The matching rows in the order of the statement. -/
def visited (pg : Postgres V) (table : Table V) (order : SqlOrder) (keeps : Row V → Bool) :
    List (Row V) :=
  pg.sort (lexicographic (rowCriteria pg order)) (table.rows.filter keeps)

/-- The cursor after as many of the rows. -/
def cursorAfter (pg : Postgres V) (table : Table V) (order : SqlOrder) (rows : List (Row V)) :
    Nat → Option Cursor
  | 0 => none
  | count + 1 => rows[count]?.map (cursorOf pg table order)

namespace Reading

variable {pg : Postgres V} {table : Table V} {input : FindManyInput V} {order : SqlOrder}
  {take : Nat} {keeps : Row V → Bool}

theorem mem_rows {row : Row V} (h : row ∈ visited pg table order keeps) : row ∈ table.rows :=
  List.mem_of_mem_filter ((pg.sort_perm _ _).mem_iff.mp h)

/-- Sorting some of the rows puts them in strict order. -/
theorem sort_strict (h : Reading pg table input order take keeps) (p : Row V → Bool) :
    (pg.sort (lexicographic (rowCriteria pg order)) (table.rows.filter p)).Pairwise fun r s =>
      lexBefore (rowCriteria pg order) r s = true := by
  refine pairwise_lexBefore (pg.sort_sorted _ _) ?_
  refine (pg.sort_perm _ _).symm.pairwise (h.distinct.filter p) fun {r s} hrs => ?_
  rw [lexSame_comm]
  exact hrs

/-- Sorting the matching rows that are left gives the rest of all of them. -/
theorem sort_filter (h : Reading pg table input order take keeps) (after : Row V → Bool) :
    pg.sort (lexicographic (rowCriteria pg order))
        (table.rows.filter fun row => keeps row && after row) =
      (visited pg table order keeps).filter after := by
  refine @List.Perm.eq_of_pairwise _ (fun r s => lexBefore (rowCriteria pg order) r s = true) _ _
    ?_ (h.sort_strict _) ((h.sort_strict keeps).filter after) ?_
  · intro r s _ _ hrs hsr
    simp [lexBefore_asymm hrs] at hsr
  · refine (pg.sort_perm _ _).trans ?_
    rw [show (table.rows.filter fun row => keeps row && after row) =
      (table.rows.filter keeps).filter after by
        rw [List.filter_filter]; exact List.filter_congr fun row _ => Bool.and_comm _ _]
    exact ((pg.sort_perm _ _).filter after).symm

/-- The rows after a row of the list are the rest of the list. -/
theorem filter_after (h : Reading pg table input order take keeps) {k : Nat}
    (hk : k < (visited pg table order keeps).length) :
    (visited pg table order keeps).filter
        (lexBefore (rowCriteria pg order) (visited pg table order keeps)[k]) =
      (visited pg table order keeps).drop (k + 1) :=
  filter_before_eq_drop (lexBefore_irrefl _) lexBefore_trans (h.sort_strict keeps) hk

/-- The statement of a page, with its record and filters. -/
def statementOf (record : RecordColumns V) (filters : Option (SqlFilters V)) (order : SqlOrder)
    (take : Nat) : SelectStatement V :=
  { record, filters, order := some order, skip := none, take := some (take + 1) }

theorem prepare_first (h : Reading pg table input order take keeps) {record : RecordColumns V}
    (hrecord : assignCursorFields pg input.select order table.schema =
      .ok (record, getCursorFields order)) :
    prepareSelectQuery pg table { input with cursor := none } =
      .ok (statementOf record input.filters order take, some (getCursorFields order)) := by
  have horder : cursorOrder? { input with cursor := none } (some order) = some order := by
    simp [cursorOrder?, h.take_eq, h.take_pos, h.order_ne_nil]
  simp only [prepareSelectQuery, h.pageOrder, horder, hrecord, bind, Except.bind, pure,
    Except.pure]
  simp only [h.take_eq, h.skip_eq, Option.map_some, Option.isSome_some, if_true, statementOf]

theorem prepare_next (h : Reading pg table input order take keeps) {record : RecordColumns V}
    (hrecord : assignCursorFields pg input.select order table.schema =
      .ok (record, getCursorFields order)) {row : Row V} (hrow : row ∈ table.rows) :
    prepareSelectQuery pg table { input with cursor := some (cursorOf pg table order row) } =
      .ok (statementOf record
        (some (andCondition input.filters
          (positionCondition order (order.map fun e => positionValue pg table row e.1))))
        order take, some (getCursorFields order)) := by
  have horder : cursorOrder? { input with cursor := some (cursorOf pg table order row) }
      (some order) = some order := by
    simp [cursorOrder?, h.take_eq, h.take_pos, h.order_ne_nil]
  have hcondition := getCursorCondition_cursorOf h.order_ne_nil h.primary h.columns hrow
  simp only [prepareSelectQuery, h.pageOrder, horder, hrecord, bind, Except.bind, pure,
    Except.pure, Option.getD_some, hcondition]
  simp only [h.take_eq, h.skip_eq, Option.map_some, Option.isSome_some, if_true, statementOf]

theorem sendSelect_statementOf {record : RecordColumns V} {filters : Option (SqlFilters V)}
    {rows : List (Row V)} (hmatching : matchingRows pg table.rows filters = .ok rows) :
    sendSelect pg table.rows (statementOf record filters order take) =
      .ok (((pg.sort (lexicographic (rowCriteria pg order)) rows).take (take + 1)).map
        (readRecord record)) := by
  simp only [sendSelect, statementOf, hmatching, bind, Except.bind, pure, Except.pure,
    Option.getD_some, Option.getD_none, List.drop_zero]

theorem cursorAfter_some {rows : List (Row V)} {count : Nat} (hpos : 0 < count)
    (hcount : count ≤ rows.length) :
    ∃ cursor, cursorAfter pg table order rows count = some cursor := by
  cases count with
  | zero => omega
  | succ count => exact ⟨_, by rw [cursorAfter, List.getElem?_eq_getElem hcount]; rfl⟩

/-- What is prepared for the page after as many rows. -/
theorem prepared (h : Reading pg table input order take keeps) {k : Nat}
    (hk : k ≤ (visited pg table order keeps).length) :
    ∃ statement, prepareSelectQuery pg table
        { input with cursor := cursorAfter pg table order (visited pg table order keeps) k } =
          .ok (statement, some (getCursorFields order)) ∧
      CursorRecord pg table.schema (getCursorFields order) input.select statement.record ∧
      sendSelect pg table.rows statement =
        .ok ((((visited pg table order keeps).drop k).take (take + 1)).map
          (readRecord statement.record)) := by
  obtain ⟨record, hassign, hrecord⟩ := @assignCursorFields_record V pg table.schema
    input.select order fun e he => by
      obtain ⟨type, htype⟩ := (h.columns e he).typed
      obtain ⟨columnSchema, hfind, _⟩ := getCursorColumnType_ok htype
      exact ⟨columnSchema, hfind⟩
  cases k with
  | zero =>
    refine ⟨_, h.prepare_first hassign, hrecord, ?_⟩
    rw [sendSelect_statementOf (matchingRows_ok h.filters)]
    rfl
  | succ k =>
    have hrow := mem_rows (List.getElem_mem hk)
    have hcursor : cursorAfter pg table order (visited pg table order keeps) (k + 1) =
        some (cursorOf pg table order (visited pg table order keeps)[k]) := by
      rw [cursorAfter, List.getElem?_eq_getElem hk]
      rfl
    have hcasts : Casts pg order (visited pg table order keeps)[k]
        (positionValue pg table (visited pg table order keeps)[k]) :=
      ⟨fun e he => ((h.columns e he).positionValue hrow).cast⟩
    have hmatching : ∀ row ∈ table.rows, rowMatches pg (some (andCondition input.filters
        (positionCondition order (order.map fun e =>
          positionValue pg table (visited pg table order keeps)[k] e.1)))) row =
        some (keeps row &&
          lexBefore (rowCriteria pg order) (visited pg table order keeps)[k] row) :=
      fun row hmem => rowMatches_andCondition (h.filters row hmem)
        (positionCondition_holds hcasts row)
    rw [hcursor]
    refine ⟨_, h.prepare_next hassign hrow, hrecord, ?_⟩
    rw [sendSelect_statementOf (matchingRows_ok hmatching), h.sort_filter, h.filter_after hk]
    rfl

theorem findMany_page (h : Reading pg table input order take keeps) {k : Nat}
    (hk : k ≤ (visited pg table order keeps).length) :
    ∃ page, findMany pg table
        { input with cursor := cursorAfter pg table order (visited pg table order keeps) k } =
          .ok page ∧
      page.records = (((visited pg table order keeps).drop k).take take).map
        (pageRecord input.select order) ∧
      page.cursor = if take < ((visited pg table order keeps).drop k).length then
        cursorAfter pg table order (visited pg table order keeps) (k + take) else none := by
  obtain ⟨statement, hprepare, hrecord, hsend⟩ := h.prepared hk
  have htaken := @takeRecordsCursor_rows V pg table order _ _
    (((visited pg table order keeps).drop k).take (take + 1)) take hrecord h.columns
    fun row hrow => mem_rows (List.mem_of_mem_drop (List.mem_of_mem_take hrow))
  have hpage : (((visited pg table order keeps).drop k).take (take + 1)).take take =
      ((visited pg table order keeps).drop k).take take := by
    rw [List.take_take, Nat.min_eq_left (Nat.le_succ take)]
  have hcursor : (if take < (((visited pg table order keeps).drop k).take (take + 1)).length then
        (((visited pg table order keeps).drop k).take (take + 1))[take - 1]? else none).map
        (cursorOf pg table order) =
      if take < ((visited pg table order keeps).drop k).length then
        cursorAfter pg table order (visited pg table order keeps) (k + take) else none := by
    have hmore : take < (((visited pg table order keeps).drop k).take (take + 1)).length ↔
        take < ((visited pg table order keeps).drop k).length := by
      rw [List.length_take]
      omega
    by_cases hlen : take < ((visited pg table order keeps).drop k).length
    · rw [if_pos (hmore.mpr hlen), if_pos hlen]
      obtain ⟨last, hlast⟩ := Nat.exists_eq_succ_of_ne_zero (Nat.ne_of_gt h.take_pos)
      rw [hlast, Nat.succ_sub_one, List.getElem?_take, if_pos (by omega), List.getElem?_drop]
      rfl
    · rw [if_neg (mt hmore.mp hlen), if_neg hlen]
      rfl
  rw [hpage, hcursor] at htaken
  unfold findMany
  simp only [hprepare, hsend, bind, Except.bind, pure, Except.pure, matchingRows_ok h.filters]
  simp only [h.take_eq, htaken]
  cases hcount : input.count with
  | false => exact ⟨_, rfl, rfl, rfl⟩
  | true => exact ⟨_, rfl, rfl, rfl⟩

/-- Reading on from a position gives the pages of the rows that are left. -/
theorem readPages_from (h : Reading pg table input order take keeps)
    {pages : List (List (Row V))} {k fuel : Nat}
    (hk : k ≤ (visited pg table order keeps).length)
    (hfuel : (visited pg table order keeps).length - k < fuel)
    (hpaged : Paged take ((visited pg table order keeps).drop k) pages) :
    readPages pg table input fuel (cursorAfter pg table order (visited pg table order keeps) k) =
      .ok (some (pages.map fun page => page.map (pageRecord input.select order))) := by
  induction fuel generalizing k pages with
  | zero => omega
  | succ fuel ih =>
    obtain ⟨page, hpage, hrecords, hcursor⟩ := h.findMany_page hk
    generalize hrest : (visited pg table order keeps).drop k = rest at hpaged
    rw [hrest] at hrecords hcursor
    have hlen : rest.length = (visited pg table order keeps).length - k := by
      rw [← hrest, List.length_drop]
    cases hpaged with
    | last hlast =>
      rw [if_neg (Nat.not_lt.mpr hlast)] at hcursor
      rw [List.take_of_length_le hlast] at hrecords
      simp only [readPages, hpage, bind, Except.bind, hcursor, hrecords, pure, Except.pure,
        List.map_cons, List.map_nil]
    | @next _ pages hmore hpages =>
      have hpos := h.take_pos
      have hnext := ih (k := k + take) (by omega) (by omega)
        (by rw [← List.drop_drop, hrest]; exact hpages)
      rw [if_pos hmore] at hcursor
      obtain ⟨cursor, hsome⟩ := @cursorAfter_some V pg table order
        (visited pg table order keeps) (k + take) (by omega) (by omega)
      rw [hsome] at hcursor hnext
      simp only [readPages, hpage, bind, Except.bind, hcursor, hnext, hrecords, pure, Except.pure,
        List.map_cons, Option.map_some]

end Reading

/-! ## The order of a page -/

section Tiebreak

variable {pg : Postgres V} {direction : Direction} {primaryColumns : List String}

/-- The order that was asked for, then the primary columns in its last direction. -/
def requestedOrder (order : InputOrder) (direction : Direction) (primaryColumns : List String) :
    SqlOrder :=
  definedOrder order ++ primaryColumns.map fun column => (column, direction)

theorem orderCriterion_same_column (r s : Row V) {e f : String × Direction} (h : e.1 = f.1) :
    (orderCriterion pg e).same r s = (orderCriterion pg f).same r s := by
  rw [orderCriterion_same, orderCriterion_same, h]

/-- A column that is in the order already doesn't tell more rows apart. -/
theorem lexBefore_known {order rest : SqlOrder} {e : String × Direction}
    (h : e.1 ∈ keysOf order) (r s : Row V) :
    lexBefore (rowCriteria pg (order ++ e :: rest)) r s =
      lexBefore (rowCriteria pg (order ++ rest)) r s := by
  simp only [rowCriteria, List.map_append, List.map_cons, lexBefore_append]
  cases hs : lexSame (order.map (orderCriterion pg)) r s with
  | false => rfl
  | true =>
    obtain ⟨f, hf, hcolumn⟩ := List.mem_map.mp h
    have hsame : (orderCriterion pg e).same r s = true := by
      rw [orderCriterion_same_column r s hcolumn.symm]
      exact List.all_eq_true.mp hs _ (List.mem_map_of_mem hf)
    rw [if_pos rfl, if_pos rfl, lexBefore_cons_of_same hsame]

theorem lexBefore_assignMissing (order : SqlOrder) (columns : List String) (r s : Row V) :
    lexBefore (rowCriteria pg (columns.foldl (assignMissing direction) order)) r s =
      lexBefore (rowCriteria pg (order ++ columns.map fun column => (column, direction))) r s := by
  induction columns generalizing order with
  | nil => simp
  | cons column columns ih =>
    rw [List.foldl_cons, ih, List.map_cons]
    by_cases hmem : column ∈ keysOf order
    · obtain ⟨known, hknown⟩ := mem_keysOf_iff.mp hmem
      rw [lexBefore_known hmem]
      simp [assignMissing, hknown]
    · rw [assignMissing, find_eq_none.mpr hmem]
      simp [assign_of_not_mem hmem]

/-- The tiebreak columns order the rows as the primary columns do. -/
theorem lexBefore_getTiebreakOrder {order : InputOrder} (h : lastDirection? order = some direction)
    (r s : Row V) :
    lexBefore (rowCriteria pg (getTiebreakOrder order (some primaryColumns))) r s =
      lexBefore (rowCriteria pg (requestedOrder order direction primaryColumns)) r s := by
  simp only [getTiebreakOrder, h]
  exact lexBefore_assignMissing _ _ r s

theorem mem_keysOf_assignMissing {order : SqlOrder} {columns : List String} {column : String} :
    column ∈ keysOf (columns.foldl (assignMissing direction) order) ↔
      column ∈ keysOf order ∨ column ∈ columns := by
  induction columns generalizing order with
  | nil => simp
  | cons first columns ih =>
    have hstep : column ∈ keysOf (assignMissing direction order first) ↔
        column ∈ keysOf order ∨ column = first := by
      by_cases hmem : first ∈ keysOf order
      · obtain ⟨known, hknown⟩ := mem_keysOf_iff.mp hmem
        have hself : assignMissing direction order first = order := by simp [assignMissing, hknown]
        rw [hself]
        exact ⟨Or.inl, fun h => h.elim id fun heq => heq ▸ hmem⟩
      · have happend : assignMissing direction order first = order ++ [(first, direction)] := by
          simp [assignMissing, find_eq_none.mpr hmem, assign_of_not_mem hmem]
        rw [happend, keysOf, keysOf, List.map_append, List.mem_append]
        simp
    rw [List.foldl_cons, ih, hstep, List.mem_cons, or_assoc]

theorem mem_keysOf_getTiebreakOrder {order : InputOrder} {column : String}
    (h : lastDirection? order = some direction) :
    column ∈ keysOf (getTiebreakOrder order (some primaryColumns)) ↔
      column ∈ keysOf (requestedOrder order direction primaryColumns) := by
  have hcolumns : keysOf (requestedOrder order direction primaryColumns) =
      keysOf (definedOrder order) ++ primaryColumns := by
    simp [requestedOrder, keysOf, Function.comp_def]
  simp only [getTiebreakOrder, h, hcolumns, List.mem_append]
  exact mem_keysOf_assignMissing

end Tiebreak

/-! ## Every record is visited once -/

section Visits

variable {pg : Postgres V} {table : Table V} {input : FindManyInput V} {order : InputOrder}
  {direction : Direction} {primaryColumns : List String} {take : Nat} {keeps : Row V → Bool}

theorem reading_of_input (horder : input.order = some order)
    (hdirection : lastDirection? order = some direction)
    (htake : input.take = some take) (hpos : 1 ≤ take) (hskip : input.skip = none)
    (hprimary : table.primaryColumns = some primaryColumns) (hsome : primaryColumns ≠ [])
    (hidentify : table.rows.Pairwise fun r s =>
      ∃ column ∈ primaryColumns, (pg.compare column).same (r column) (s column) = false)
    (hcolumns : ∀ e ∈ requestedOrder order direction primaryColumns, Comparable pg table e.1)
    (hfilters : ∀ row ∈ table.rows, rowMatches pg input.filters row = some (keeps row)) :
    Reading pg table input (getTiebreakOrder order (some primaryColumns)) take keeps where
  pageOrder cursor := by
    simp [getPageOrder, horder, htake, hprimary]
  order_ne_nil := by
    intro hnil
    obtain ⟨column, hcolumn⟩ := List.exists_mem_of_ne_nil _ hsome
    have hmem : column ∈ keysOf (getTiebreakOrder order (some primaryColumns)) := by
      refine (mem_keysOf_getTiebreakOrder hdirection).mpr ?_
      exact List.mem_map_of_mem (List.mem_append_right _ (List.mem_map_of_mem hcolumn))
    simp [hnil, keysOf] at hmem
  primary := by simpa [hprimary] using hsome
  take_eq := htake
  take_pos := hpos
  skip_eq := hskip
  columns := by
    intro e he
    have hmem := (mem_keysOf_getTiebreakOrder hdirection).mp (List.mem_map_of_mem he)
    obtain ⟨f, hf, hcolumn⟩ := List.mem_map.mp hmem
    exact hcolumn ▸ hcolumns f hf
  distinct := by
    refine hidentify.imp fun {r s} hdiffer => ?_
    obtain ⟨column, hcolumn, hdiffer⟩ := hdiffer
    have hmem : column ∈ keysOf (getTiebreakOrder order (some primaryColumns)) := by
      refine (mem_keysOf_getTiebreakOrder hdirection).mpr ?_
      exact List.mem_map_of_mem (List.mem_append_right _ (List.mem_map_of_mem hcolumn))
    obtain ⟨e, he, rfl⟩ := List.mem_map.mp hmem
    refine List.all_eq_false.mpr ⟨_, List.mem_map_of_mem he, ?_⟩
    rw [orderCriterion_same, Criterion.same_comm, hdiffer]
    exact Bool.false_ne_true
  filters := hfilters

/-- Reading pages, each with the cursor of the page before, ends. The pages are
full up to the last one, and have the record of each matching row once, in the
order that was asked for with ties in the order of the primary columns. -/
theorem readPages_visits_every_record (horder : input.order = some order)
    (hdirection : lastDirection? order = some direction)
    (htake : input.take = some take) (hpos : 1 ≤ take) (hskip : input.skip = none)
    (hprimary : table.primaryColumns = some primaryColumns) (hsome : primaryColumns ≠ [])
    (hidentify : table.rows.Pairwise fun r s =>
      ∃ column ∈ primaryColumns, (pg.compare column).same (r column) (s column) = false)
    (hcolumns : ∀ e ∈ requestedOrder order direction primaryColumns, Comparable pg table e.1)
    (hfilters : ∀ row ∈ table.rows, rowMatches pg input.filters row = some (keeps row)) :
    ∃ (rows : List (Row V)) (pages : List (List Fields)),
      rows.Perm (table.rows.filter keeps) ∧
      (rows.Pairwise fun r s =>
        lexBefore (rowCriteria pg (requestedOrder order direction primaryColumns)) r s = true) ∧
      (∀ fuel : Nat, rows.length < fuel →
        readPages pg table input fuel none = .ok (some pages)) ∧
      pages.flatten = rows.map
        (pageRecord input.select (getTiebreakOrder order (some primaryColumns))) ∧
      (∀ page ∈ pages.dropLast, page.length = take) ∧
      ∀ page ∈ pages, ∀ record ∈ page,
        ∀ field ∈ getCursorFields (getTiebreakOrder order (some primaryColumns)),
          field.columnAlias ∉ keysOf record := by
  have h := reading_of_input horder hdirection htake hpos hskip hprimary hsome hidentify hcolumns
    hfilters
  obtain ⟨pages, hpages⟩ := Paged.exists hpos
    (visited pg table (getTiebreakOrder order (some primaryColumns)) keeps)
  refine ⟨visited pg table (getTiebreakOrder order (some primaryColumns)) keeps,
    pages.map fun page => page.map (pageRecord input.select (getTiebreakOrder order (some primaryColumns))),
    pg.sort_perm _ _, ?_, ?_, ?_, ?_, ?_⟩
  · refine (h.sort_strict keeps).imp fun {r s} hrs => ?_
    rw [← lexBefore_getTiebreakOrder hdirection]
    exact hrs
  · intro fuel hfuel
    exact h.readPages_from (Nat.zero_le _) hfuel hpages
  · rw [← List.map_flatten, hpages.flatten_eq]
  · intro page hpage
    rw [← List.map_dropLast] at hpage
    obtain ⟨rows, hrows, rfl⟩ := List.mem_map.mp hpage
    rw [List.length_map, hpages.length_of_mem_dropLast hrows]
  · intro page hpage record hrecord field hfield hkey
    obtain ⟨rows, hrows, rfl⟩ := List.mem_map.mp hpage
    obtain ⟨row, hrow, rfl⟩ := List.mem_map.mp hrecord
    obtain ⟨cell, hcell, hname⟩ := List.mem_map.mp hkey
    have hkept := (List.mem_filter.mp hcell).2
    have halias : cell.1 ∈ aliases (getCursorFields (getTiebreakOrder order (some primaryColumns))) :=
      hname ▸ List.mem_map_of_mem hfield
    simp [halias] at hkept

end Visits

/-! ### A database of flags and decimals -/

/-- The values of a boolean and of a decimal column. -/
inductive Sample
  | flag (b : Bool)
  | zero
  | nan
deriving DecidableEq

namespace Sample

def rank : Sample → Nat
  | .flag false => 0
  | .flag true => 1
  | .zero => 2
  | .nan => 3

def text : Sample → String
  | .flag false => "false"
  | .flag true => "true"
  | .zero => "0"
  | .nan => "NaN"

def cast (type : SqlType) (text : String) : Option Sample :=
  match type with
  | .boolean => if text = "true" then some (.flag true) else
    if text = "false" then some (.flag false) else none
  | .decimal => if text = "0" then some .zero else if text = "NaN" then some .nan else none
  | _ => none

def byRank : Criterion Sample where
  le a b := a.rank ≤ b.rank
  total a b := by simpa using Nat.le_total a.rank b.rank
  trans := by
    intro a b c hab hbc
    simp only [decide_eq_true_eq] at hab hbc ⊢
    exact Nat.le_trans hab hbc

/-- `NaN` is equal to itself, and after every other decimal. -/
def database : Postgres Sample where
  compare _ := byRank
  cursorText _ value := some value.text
  cast := cast
  sort c rows := rows.insertionSort fun r s => c.le r s = true
  sort_perm _ rows := List.perm_insertionSort _ rows
  sort_sorted c rows := by
    have : Std.Total fun r s : Row Sample => c.le r s = true := ⟨c.total⟩
    have : IsTrans (Row Sample) fun r s => c.le r s = true := ⟨fun _ _ _ hrs hst => c.trans hrs hst⟩
    exact List.pairwise_insertionSort _ rows

def column (kind : ColumnKind) : ColumnSchema := { kind, nullable := false, optional := false }

/-- A page of the given order, with one record. -/
def page (order : InputOrder) : FindManyInput Sample where
  select := []
  filters := none
  order := some order
  take := some 1
  skip := none
  cursor := none
  count := false

def flags (a b : Bool) : Row Sample := fun column => if column = "a" then .flag a else .flag b

def flagTable (primaryColumns : List String) : Table Sample where
  schema := [("a", column .boolean), ("b", column .boolean)]
  primaryColumns := some primaryColumns
  rows := [flags false true, flags true true, flags true false, flags false false]

def decimalTable : Table Sample where
  schema := [("n", column (.number none))]
  primaryColumns := some ["n"]
  rows := [fun _ => .zero, fun _ => .nan]

theorem flags_comparable (primaryColumns : List String) {name : String}
    (h : name = "a" ∨ name = "b") : Comparable database (flagTable primaryColumns) name := by
  have hfind : find (flagTable primaryColumns).schema name = some (column .boolean) := by
    rcases h with rfl | rfl <;> rfl
  constructor
  · exact ⟨.boolean, by simp [getCursorColumnType, hfind, column, ColumnSchema.isNullish,
      getColumnType]⟩
  · intro row hrow columnSchema type hschema htype
    rw [hfind] at hschema
    obtain rfl := Option.some.inj hschema
    obtain rfl : SqlType.boolean = type := Option.some.inj htype
    obtain ⟨b, hb⟩ : ∃ b, row name = .flag b := by
      simp only [flagTable, List.mem_cons, List.not_mem_nil, or_false] at hrow
      rcases hrow with rfl | rfl | rfl | rfl <;> simp only [flags] <;> split <;> exact ⟨_, rfl⟩
    rw [hb]
    cases b <;> exact ⟨_, rfl, by decide +kernel, by decide +kernel⟩

/-- Four records of two flags, one ascending and one descending, in four pages. -/
theorem flags_visited :
    ∃ pages, readPages database (flagTable ["a", "b"])
        (page [("b", some .asc), ("a", some .desc)]) 5 none = .ok (some pages) ∧
      pages.flatten.length = 4 := by
  obtain ⟨rows, pages, hrows, _, hread, hflatten, _⟩ :=
    @readPages_visits_every_record _ database (flagTable ["a", "b"])
      (page [("b", some .asc), ("a", some .desc)]) _ _ _ _ (fun _ => true)
      rfl rfl rfl (Nat.le_refl 1) rfl rfl (by simp) (by decide +kernel)
      (fun e he => flags_comparable _ (by
        have hmem : e ∈ [("b", Direction.asc), ("a", .desc), ("a", .desc), ("b", .desc)] := he
        simp only [List.mem_cons, List.not_mem_nil, or_false] at hmem
        rcases hmem with rfl | rfl | rfl | rfl <;> simp))
      (fun _ _ => rfl)
  have hlength : rows.length = 4 := hrows.length_eq
  exact ⟨pages, hread 5 (by omega), by rw [hflatten, List.length_map, hlength]⟩

/-- Without primary columns the cursor of the first page is refused, and so is one
after a decimal that isn't a number, whose text casts back to it. -/
theorem cursor_refused :
    (∀ pages : Nat, readPages database (flagTable []) (page [("a", some .asc)]) (pages + 2) none =
      .error (.unsupportedCursor "the table has no primary index to make the order unique")) ∧
    (∀ pages : Nat, readPages database decimalTable (page [("n", some .desc)]) (pages + 2) none =
      .error (.invalidCursor "value of 'n' is malformed")) ∧
    database.cast .decimal "NaN" = some .nan := by
  refine ⟨?_, ?_, by decide +kernel⟩
  · intro pages
    rfl
  · intro pages
    rfl

end Sample

end Ez4.PgClient

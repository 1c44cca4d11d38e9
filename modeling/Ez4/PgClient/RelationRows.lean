import Ez4.PgClient.UpdatedRelations

/-! # Rows of a relation

What each part of an update makes of the rows that are named or related: the
relation that is held, detached, moved or connected, and the fields that are given
to the related records. -/
namespace Ez4.PgClient.UpdateRelations
open Ez4.Utils Ez4.PgClient.Upsert Ez4.PgClient.RelationStatement

namespace RelationUpdate
variable {V : Type} (update : RelationUpdate V) [DecidableEq V] {before : Tables V} {key : Option V}

/-! ## Rows of the source table -/

/-- What becomes of a row under the parts of the relation is what is asked of it. -/
def RowAsAsked (parts : List (Part V)) (key : Option V) (row : Row V) : Prop :=
  (∀ written ∈ outcomes parts update.relation.sourceTable row,
    written = update.askedRow key row row) ∧
  (update.name.isSome →
    update.related key (update.askedRow key row row) = update.keeps key row)

omit [DecidableEq V] in
theorem applyFields_of_none {fields : SqlData V} {column : String} (row : Row V)
    (hnone : (find fields column).bind columnChange = none) :
    applyFields fields row column = row column := by
  unfold applyFields
  rw [hnone]

omit [DecidableEq V] in
theorem columnChange_of_empty {fields : SqlData V} (hempty : isEmptyObject fields = true) :
    ∀ field ∈ fields, columnChange field.2 = none := by
  induction fields with
  | nil =>
    intro field hfield
    cases hfield
  | cons first fields ih =>
    obtain ⟨fieldKey, fieldValue⟩ := first
    rw [isEmptyObject, Bool.and_eq_true] at hempty
    intro field hfield
    rcases List.mem_cons.mp hfield with rfl | hfield
    · cases fieldValue with
      | value => cases hempty.1
      | object inner operation =>
        have hinner : isEmptyObject inner = true := hempty.1
        simp [columnChange, hinner]
    · exact ih hempty.2 field hfield

omit [DecidableEq V] in
theorem applyFields_of_empty {fields : SqlData V} (hempty : isEmptyObject fields = true)
    (row : Row V) : applyFields fields row = row := by
  funext column
  refine applyFields_of_none row (Option.bind_eq_none_iff.mpr fun field hfind => ?_)
  exact columnChange_of_empty hempty _ (mem_of_find hfind)

/-- Without fields to give, only the foreign key changes. -/
theorem askedRow_of_empty (hempty : isEmptyObject update.givenFields = true) (row current : Row V) :
    update.askedRow key row current =
      if update.relation.isHolder then current
      else if update.named row then Function.update current update.relation.sourceColumn key
      else if update.related key row && !update.keeps key row then
        Function.update current update.relation.sourceColumn none
      else current := by
  unfold askedRow
  simp only [applyFields_of_empty hempty, ite_self]

theorem related_update (row : Row V) (value : Option V) :
    update.related key (Function.update row update.relation.sourceColumn value) =
      sqlEqual value key := by
  rw [related, Function.update_self]

theorem related_key_isSome {row : Row V} (hrelated : update.related key row = true) :
    key.isSome = true := by
  obtain ⟨value, _, hkey⟩ := sqlEqual_iff.mp hrelated
  rw [hkey]
  rfl

theorem sqlEqual_self (value : Option V) : sqlEqual value value = value.isSome := by
  cases value <;> simp [sqlEqual]

omit [DecidableEq V] in
/-- A record that holds the relation names the related one by the column it points to. -/
theorem holder_single (hholder : update.relation.isHolder = true) :
    update.relation.isSingle = true ∧
      update.relation.relationColumn = update.relation.sourceColumn := by
  have hindex : (decide (update.relation.sourceIndex = some .primary) ||
      decide (update.relation.sourceIndex = some .unique)) = true := by
    unfold Relation.isHolder isRelationHolder at hholder
    rw [Bool.or_eq_true, Bool.and_eq_true] at hholder
    rw [Bool.or_eq_true]
    exact hholder.imp_right And.left
  exact ⟨hindex, if_pos hindex⟩

omit [DecidableEq V] in
theorem not_single (hholder : update.relation.isHolder = false)
    (hunique : update.relation.sourceIndex ≠ some .unique) : update.relation.isSingle = false := by
  unfold Relation.isHolder isRelationHolder at hholder
  rw [Bool.or_eq_false_iff] at hholder
  rw [Relation.isSingle, hholder.1, Bool.false_or]
  exact decide_eq_false hunique

omit [DecidableEq V] in
theorem unique_single (hunique : update.relation.sourceIndex = some .unique) :
    update.relation.isSingle = true ∧
      update.relation.relationColumn = update.relation.sourceColumn := by
  unfold Relation.isSingle Relation.relationColumn
  simp [hunique]

/-- The rows that keep the relation held by the updated record, or that nothing is
named for, are left as they are. -/
theorem rowAsAsked_kept (hempty : isEmptyObject update.givenFields = true)
    (hkept : update.relation.isHolder = true ∨ update.name = none)
    (hheld : update.relation.isHolder = true → ∀ value, update.name = some value → key = value)
    (row : Row V) : update.RowAsAsked [] key row := by
  have hasked : update.askedRow key row row = row := by
    rw [askedRow_of_empty update hempty]
    cases hholder : update.relation.isHolder with
    | true => rfl
    | false =>
      have hname := hkept.resolve_left (by simp [hholder])
      simp [named, keeps, hname]
  refine ⟨fun written hwritten => ?_, fun hname => ?_⟩
  · rw [hasked]
    exact List.mem_singleton.mp hwritten
  · rw [hasked]
    have hholder := hkept.resolve_right (Option.isSome_iff_ne_none.mp hname)
    obtain ⟨hsingle, hcolumn⟩ := update.holder_single hholder
    obtain ⟨value, hvalue⟩ := Option.isSome_iff_exists.mp hname
    rw [related, hheld hholder value hvalue]
    cases value with
    | none => simp [keeps, hvalue, sqlEqual]
    | some value => simp [keeps, named, hvalue, hsingle, hcolumn]

section
variable {written : Row V} {row : Row V} {value : V}

theorem joins_eq (written row : Row V) : joins update.relation (some written) row =
    update.related (written update.relation.targetColumn) row := rfl

/-- To name null detaches the related rows. -/
theorem rowAsAsked_detach (hholder : update.relation.isHolder = false)
    (hempty : isEmptyObject update.givenFields = true) (hname : update.name = some none)
    (hrow : update.related (written update.relation.targetColumn) row = true) :
    update.RowAsAsked [detachPart update.relation (some written)]
      (written update.relation.targetColumn) row := by
  have hnamed : update.named row = false := by rw [named, hname]
  have hkeeps : update.keeps (written update.relation.targetColumn) row = false := by
    rw [keeps, hname]
  have hasked : update.askedRow (written update.relation.targetColumn) row row =
      Function.update row update.relation.sourceColumn none := by
    rw [askedRow_of_empty update hempty]
    simp [hholder, hnamed, hkeeps, hrow]
  refine ⟨fun other hother => ?_, fun _ => ?_⟩
  · rw [hasked]
    simpa [outcomes, writes, detachPart, joins_eq, hrow] using hother
  · rw [hasked, related_update, hkeeps]
    rfl

/-- A row is named by its primary column: it is connected when there is a key. -/
theorem rowAsAsked_connect (hholder : update.relation.isHolder = false)
    (hempty : isEmptyObject update.givenFields = true)
    (hunique : update.relation.sourceIndex ≠ some .unique) (hname : update.name = some (some value))
    (hrow : update.named row = true ∨
      update.related (written update.relation.targetColumn) row = true) :
    update.RowAsAsked [connectPart update.relation (some written) value]
        (written update.relation.targetColumn) row ↔
      (update.named row = true → (written update.relation.targetColumn).isSome = true) := by
  have hsingle := update.not_single hholder hunique
  have hkeeps : update.keeps (written update.relation.targetColumn) row = true := by
    rw [keeps, hname]
    simpa [hsingle] using hrow
  have hwrites : sqlEqual (row update.relation.relationColumn) (some value) = update.named row := by
    rw [named, hname]
  cases hnamed : update.named row with
  | true =>
    have hasked : update.askedRow (written update.relation.targetColumn) row row =
        Function.update row update.relation.sourceColumn
          (written update.relation.targetColumn) := by
      rw [askedRow_of_empty update hempty]
      simp [hholder, hnamed]
    unfold RowAsAsked
    rw [hasked, related_update, sqlEqual_self, hkeeps, hname]
    simp [outcomes, writes, connectPart, hwrites, hnamed]
  | false =>
    have hrelated := hrow.resolve_left (by simp [hnamed])
    have hasked : update.askedRow (written update.relation.targetColumn) row row = row := by
      rw [askedRow_of_empty update hempty]
      simp [hnamed, hkeeps]
    unfold RowAsAsked
    rw [hasked, hrelated, hkeeps]
    simp [outcomes, writes, connectPart, hwrites, hnamed]

/-- A row is named by the foreign key that it holds: it takes the place of the one
that is related. -/
theorem rowAsAsked_move {before : Tables V} (hholder : update.relation.isHolder = false)
    (hempty : isEmptyObject update.givenFields = true)
    (hunique : update.relation.sourceIndex = some .unique) (hname : update.name = some (some value))
    (hrow : update.named row = true ∨
      update.related (written update.relation.targetColumn) row = true) :
    update.RowAsAsked [detachPart update.relation (some written),
        connectPart update.relation (detached update.relation (some written) before) value]
        (written update.relation.targetColumn) row ↔
      (update.named row = true →
        update.related (written update.relation.targetColumn) row = false ∧
          ∃ other ∈ before update.relation.sourceTable,
            update.related (written update.relation.targetColumn) other = true) := by
  obtain ⟨hsingle, hcolumn⟩ := update.unique_single hunique
  have hkeeps : update.keeps (written update.relation.targetColumn) row = update.named row := by
    rw [keeps, hname]
    simp [hsingle]
  have hwrites : sqlEqual (row update.relation.relationColumn) (some value) = update.named row := by
    rw [named, hname]
  cases hnamed : update.named row with
  | false =>
    have hrelated := hrow.resolve_left (by simp [hnamed])
    have hasked : update.askedRow (written update.relation.targetColumn) row row =
        Function.update row update.relation.sourceColumn none := by
      rw [askedRow_of_empty update hempty]
      simp [hholder, hnamed, hkeeps, hrelated]
    unfold RowAsAsked
    have hnull : sqlEqual none (written update.relation.targetColumn) = false := rfl
    rw [hasked, related_update, hkeeps, hnamed, hnull]
    simp [outcomes, writes, detachPart, connectPart, joins_eq, hwrites, hnamed, hrelated]
  | true =>
    have hasked : update.askedRow (written update.relation.targetColumn) row row =
        Function.update row update.relation.sourceColumn
          (written update.relation.targetColumn) := by
      rw [askedRow_of_empty update hempty]
      simp [hholder, hnamed]
    unfold RowAsAsked
    rw [hasked, related_update, sqlEqual_self, hkeeps, hnamed, hname]
    cases hrelated : update.related (written update.relation.targetColumn) row with
    | true =>
      refine iff_of_false (fun h => ?_) fun h => Bool.noConfusion (h rfl).1
      -- Both parts write the row, and the detached one is not connected.
      have hdetached := h.1 (Function.update row update.relation.sourceColumn none)
        (by simp [outcomes, writes, detachPart, joins_eq, hrelated])
      have hnone := congrFun hdetached update.relation.sourceColumn
      rw [Function.update_self, Function.update_self] at hnone
      have hsome := update.related_key_isSome hrelated
      rw [← hnone] at hsome
      cases hsome
    | false =>
      by_cases hother : ∃ other ∈ before update.relation.sourceTable,
          update.related (written update.relation.targetColumn) other = true
      · obtain ⟨other, hmemOther, hotherRelated⟩ := hother
        have hsome := update.related_key_isSome hotherRelated
        have hfrom : detached update.relation (some written) before = some written :=
          Option.filter_eq_some_iff.mpr
            ⟨rfl, List.any_eq_true.mpr ⟨other, hmemOther, hotherRelated⟩⟩
        refine iff_of_true ?_ fun _ => ⟨rfl, other, hmemOther, hotherRelated⟩
        simp [outcomes, writes, detachPart, connectPart, joins_eq, hrelated, hfrom, hwrites, hnamed,
          hsome]
      · have hfrom : detached update.relation (some written) before = none := by
          rw [detached, Option.filter_some, if_neg]
          rw [List.any_eq_true]
          exact hother
        refine iff_of_false (fun h => ?_) fun h => hother (h rfl).2
        obtain ⟨hall, -⟩ := h
        -- Nothing is detached, so nothing is connected.
        have hrow := hall row
          (by simp [outcomes, writes, detachPart, connectPart, joins_eq, hrelated, hfrom])
        have hkey := congrFun hrow update.relation.sourceColumn
        rw [Function.update_self] at hkey
        have hvalue : sqlEqual (row update.relation.sourceColumn) (some value) = true := by
          rw [← hcolumn, hwrites, hnamed]
        obtain ⟨_, hsource, _⟩ := sqlEqual_iff.mp hvalue
        have hself : update.related (written update.relation.targetColumn) row = true := by
          rw [related, ← hkey, sqlEqual_self, hsource]
          rfl
        rw [hrelated] at hself
        cases hself

omit [DecidableEq V] in
theorem find_givenFields (column : String) : find update.givenFields column =
    if column = update.relation.relationColumn then none else find update.fields column := by
  have hfind := find_filter_keys update.fields
    (fun key => key ≠ update.relation.relationColumn) column
  rw [givenFields, otherFields, hfind]
  by_cases heq : column = update.relation.relationColumn <;> simp [heq]

omit [DecidableEq V] in
theorem applyFields_other (row : Row V) {column : String}
    (hne : column ≠ update.relation.relationColumn) :
    applyFields update.fields row column = applyFields update.givenFields row column := by
  unfold applyFields
  rw [find_givenFields, if_neg hne]

omit [DecidableEq V] in
theorem applyFields_named {name : Option V} (hname : update.name = some name) (row : Row V) :
    applyFields update.fields row =
      Function.update (applyFields update.givenFields row) update.relation.relationColumn name := by
  have hfind : find update.fields update.relation.relationColumn = some (.value name) := by
    unfold RelationUpdate.name getRelationValue at hname
    split at hname
    · rename_i hfind
      rw [hfind, Option.some.inj hname]
    · cases hname
  refine funext fun column => ?_
  by_cases heq : column = update.relation.relationColumn
  · rw [heq, Function.update_self, applyFields, hfind]
    rfl
  · rw [applyFields_other update row heq, Function.update_of_ne heq]

omit [DecidableEq V] in
theorem applyFields_unnamed (hname : update.name = none) (row : Row V) :
    applyFields update.fields row = applyFields update.givenFields row := by
  have hfind : find update.fields update.relation.relationColumn = none := by
    refine Option.eq_none_iff_forall_ne_some.mpr fun field hfind => ?_
    obtain ⟨value, rfl⟩ := update.namedByValue field hfind
    rw [name, getRelationValue, hfind] at hname
    cases hname
  refine funext fun column => ?_
  by_cases heq : column = update.relation.relationColumn
  · unfold applyFields
    rw [find_givenFields, if_pos heq, heq, hfind]
  · exact applyFields_other update row heq

omit [DecidableEq V] in
/-- The fields given to the related records are none of the foreign key. -/
theorem givenFields_source (hgiven : isEmptyObject update.givenFields = false) (row : Row V) :
    applyFields update.givenFields row update.relation.sourceColumn =
      row update.relation.sourceColumn := by
  refine applyFields_of_none row ?_
  rw [find_givenFields]
  cases hholder : update.relation.isHolder with
  | true =>
    rw [(update.holder_single hholder).2, if_pos rfl]
    rfl
  | false =>
    have hnot : update.relation.sourceColumn ∉ keysOf update.fields := fun hkey => by
      rw [givenFields, update.sourceColumn hholder hkey] at hgiven
      cases hgiven
    rw [find_eq_none.mpr hnot, ite_self]
    rfl

/-- The part that writes the fields given to the related records. -/
def fieldsPart (written : Row V) : Part V where
  table := update.relation.sourceTable
  write row :=
    if joins update.relation (some written) row then some (applyFields update.fields row) else none

/-- Beside no name, or the name of a record that the updated one holds, the fields
change the related records. -/
theorem rowAsAsked_given (hgiven : isEmptyObject update.givenFields = false)
    (hname : update.name = none ∨ update.relation.isHolder = true)
    (hheld : update.relation.isHolder = true → ∀ value, update.name = some value →
      written update.relation.targetColumn = value)
    (hrow : update.named row = true ∨
      update.related (written update.relation.targetColumn) row = true) :
    update.RowAsAsked [update.fieldsPart written] (written update.relation.targetColumn) row := by
  cases hvalue : update.name with
  | none =>
    have hnamed : update.named row = false := by rw [named, hvalue]
    have hrelated := hrow.resolve_left (by simp [hnamed])
    have hkeeps : update.keeps (written update.relation.targetColumn) row = true := by
      rw [keeps, hvalue]
      exact hrelated
    refine ⟨fun other hother => ?_, fun hsome => by rw [hvalue] at hsome; cases hsome⟩
    have hother : other = applyFields update.fields row := by
      simpa [outcomes, writes, fieldsPart, joins_eq, hrelated] using hother
    rw [hother, applyFields_unnamed update hvalue]
    simp [askedRow, hnamed, hkeeps]
  | some name =>
    have hholder := hname.resolve_left (by simp [hvalue])
    obtain ⟨hsingle, hcolumn⟩ := update.holder_single hholder
    have hkey := hheld hholder name hvalue
    cases name with
    | none =>
      -- No row is related to null.
      rcases hrow with hnamed | hrelated
      · rw [named, hvalue] at hnamed
        cases hnamed
      · have hsome := update.related_key_isSome hrelated
        rw [hkey] at hsome
        cases hsome
    | some value =>
      have hsame : update.named row =
          update.related (written update.relation.targetColumn) row := by
        rw [named, hvalue, related, hkey, hcolumn]
      have hrelated : update.related (written update.relation.targetColumn) row = true := by
        rwa [hsame, or_self] at hrow
      have hkeeps : update.keeps (written update.relation.targetColumn) row = true := by
        rw [keeps, hvalue]
        simp [hsame, hrelated]
      have hasked : update.askedRow (written update.relation.targetColumn) row row =
          applyFields update.givenFields row := by
        simp [askedRow, hkeeps, hholder]
      have hsource : row update.relation.sourceColumn = some value := by
        obtain ⟨_, hsource, hsome⟩ := sqlEqual_iff.mp hrelated
        rw [hsource, ← hsome, hkey]
      refine ⟨fun other hother => ?_, fun _ => ?_⟩
      · have hother : other = applyFields update.fields row := by
          simpa [outcomes, writes, fieldsPart, joins_eq, hrelated] using hother
        rw [hother, hasked, applyFields_named update hvalue, hcolumn, Function.update_eq_self_iff,
          givenFields_source update hgiven, hsource]
      · rw [hasked, hkeeps, related, givenFields_source update hgiven]
        exact hrelated

omit [DecidableEq V] in
theorem givenFields_relationColumn (row : Row V) :
    applyFields update.givenFields row update.relation.relationColumn =
      row update.relation.relationColumn := by
  refine applyFields_of_none row ?_
  rw [find_givenFields, if_pos rfl]
  rfl

omit [DecidableEq V] in
/-- Fields do not come with a foreign key that names the row. -/
theorem column_ne_of_given (hholder : update.relation.isHolder = false)
    (hgiven : isEmptyObject update.givenFields = false) {name : Option V}
    (hname : update.name = some name) :
    update.relation.sourceColumn ≠ update.relation.relationColumn := by
  intro heq
  have hkey : update.relation.relationColumn ∈ keysOf update.fields := by
    refine mem_keysOf_iff.mpr (Option.ne_none_iff_exists'.mp fun hfind => ?_)
    rw [RelationUpdate.name, getRelationValue, hfind] at hname
    cases hname
  rw [← heq] at hkey
  rw [givenFields, update.sourceColumn hholder hkey] at hgiven
  cases hgiven

/-- Beside the primary column of a related record the fields change the related
records, and that column with them, and connect none. -/
theorem rowAsAsked_renames (hholder : update.relation.isHolder = false)
    (hgiven : isEmptyObject update.givenFields = false) {name : Option V}
    (hname : update.name = some name)
    (hrow : update.named row = true ∨
      update.related (written update.relation.targetColumn) row = true) :
    update.RowAsAsked [update.fieldsPart written] (written update.relation.targetColumn) row ↔
      update.named row = update.related (written update.relation.targetColumn) row := by
  have hne := update.column_ne_of_given hholder hgiven hname
  have hsingle := update.not_single hholder fun hunique =>
    hne (update.unique_single hunique).2.symm
  cases hrelated : update.related (written update.relation.targetColumn) row with
  | false =>
    have hnamed := hrow.resolve_right (by simp [hrelated])
    refine iff_of_false (fun ⟨hall, hkeep⟩ => ?_) (by simp [hnamed])
    -- The row stays as it is, and the one asked for is related.
    have hrow := hall row (by simp [outcomes, writes, fieldsPart, joins_eq, hrelated])
    have hself := hkeep (by simp [hname])
    rw [← hrow, hrelated] at hself
    cases name with
    | none =>
      rw [named, hname] at hnamed
      cases hnamed
    | some value =>
      rw [keeps, hname] at hself
      simp [hnamed] at hself
  | true =>
    have hwritten : ∀ other, other ∈ outcomes [update.fieldsPart written]
        update.relation.sourceTable row ↔ other = applyFields update.fields row := by
      intro other
      simp [outcomes, writes, fieldsPart, joins_eq, hrelated]
    obtain ⟨value, hsource, hkey⟩ := sqlEqual_iff.mp hrelated
    cases name with
    | none =>
      have hnamed : update.named row = false := by rw [named, hname]
      have hkeeps : update.keeps (written update.relation.targetColumn) row = false := by
        rw [keeps, hname]
      refine iff_of_false (fun ⟨hall, _⟩ => ?_) (by simp [hnamed])
      -- The row keeps the foreign key that null asks to clear.
      have hasked := hall _ ((hwritten _).mpr rfl)
      rw [applyFields_named update hname] at hasked
      have hclear := congrFun hasked update.relation.sourceColumn
      rw [Function.update_of_ne hne, givenFields_source update hgiven, hsource] at hclear
      simp [askedRow, hholder, hnamed, hkeeps, hrelated] at hclear
    | some other =>
      have hkeeps : update.keeps (written update.relation.targetColumn) row = true := by
        rw [keeps, hname]
        simp [hsingle, hrelated]
      have hself : Function.update row update.relation.sourceColumn
          (written update.relation.targetColumn) = row := by
        rw [Function.update_eq_self_iff, hsource, hkey]
      have hasked : update.askedRow (written update.relation.targetColumn) row row =
          applyFields update.givenFields row := by
        simp [askedRow, hkeeps, hself]
      have hiff : update.named row = true ↔ row update.relation.relationColumn = some other := by
        rw [named, hname, sqlEqual_iff]
        exact ⟨fun ⟨_, hrow, heq⟩ => hrow.trans heq.symm, fun hrow => ⟨other, hrow, rfl⟩⟩
      unfold RowAsAsked
      rw [hasked, hkeeps, related, givenFields_source update hgiven]
      simp only [hwritten, forall_eq, applyFields_named update hname, Function.update_eq_self_iff,
        givenFields_relationColumn, hname]
      rw [hiff, eq_comm]
      exact and_iff_left fun _ => hrelated

end

/-! ## The parts of the relation -/

section
variable {written : Row V}

/-- What the parts of the relation do: they leave the other rows alone, and do what
is asked of the ones that are named or related when they link the records. -/
structure PartsSpec (key : Option V) (before : Tables V) (parts : List (Part V)) : Prop where
  ofSource : ∀ part ∈ parts, part.table = update.relation.sourceTable ∧ part.inserted = []
  alone : ∀ part ∈ parts, ∀ row, update.named row = false → update.related key row = false →
    part.write row = none
  asked : (∀ row ∈ before update.relation.sourceTable,
    update.named row = true ∨ update.related key row = true → update.RowAsAsked parts key row) ↔
      update.Links key before

theorem partsSpec_kept (hempty : isEmptyObject update.givenFields = true)
    (hkept : update.relation.isHolder = true ∨ update.name = none)
    (hheld : update.relation.isHolder = true → ∀ value, update.name = some value → key = value) :
    update.PartsSpec key before [] where
  ofSource part hpart := by cases hpart
  alone part hpart := by cases hpart
  asked := by
    refine iff_of_true (fun row _ _ => update.rowAsAsked_kept hempty hkept hheld row) ?_
    have hnamed : update.relation.isHolder = false → ∀ row, update.named row = true → False := by
      intro hholder row hnamed
      rw [named, hkept.resolve_left (by simp [hholder])] at hnamed
      cases hnamed
    refine ⟨fun hholder _ _ row _ h => (hnamed hholder row h).elim,
      fun hholder _ _ row _ h => (hnamed hholder row h).elim, fun _ hgiven => ?_⟩
    rw [hempty] at hgiven
    cases hgiven

theorem partsSpec_detach (hholder : update.relation.isHolder = false)
    (hempty : isEmptyObject update.givenFields = true) (hname : update.name = some none) :
    update.PartsSpec (written update.relation.targetColumn) before
      [detachPart update.relation (some written)] where
  ofSource part hpart := by
    rw [List.mem_singleton.mp hpart]
    exact ⟨rfl, rfl⟩
  alone part hpart row _ hrelated := by
    rw [List.mem_singleton.mp hpart]
    simp [detachPart, joins_eq, hrelated]
  asked := by
    have hnamed : ∀ row, update.named row = false := fun row => by rw [named, hname]
    refine iff_of_true (fun row _ hrow => ?_) ?_
    · rw [hnamed row] at hrow
      exact update.rowAsAsked_detach hholder hempty hname (hrow.resolve_left Bool.false_ne_true)
    · refine ⟨fun _ _ _ row _ h => ?_, fun _ _ _ row _ h => ?_, fun _ hgiven => ?_⟩
      · rw [hnamed row] at h
        cases h
      · rw [hnamed row] at h
        cases h
      · rw [hempty] at hgiven
        cases hgiven

theorem partsSpec_connect {value : V} (hholder : update.relation.isHolder = false)
    (hempty : isEmptyObject update.givenFields = true)
    (hunique : update.relation.sourceIndex ≠ some .unique)
    (hname : update.name = some (some value)) :
    update.PartsSpec (written update.relation.targetColumn) before
      [connectPart update.relation (some written) value] where
  ofSource part hpart := by
    rw [List.mem_singleton.mp hpart]
    exact ⟨rfl, rfl⟩
  alone part hpart row hnamed _ := by
    rw [named, hname] at hnamed
    rw [List.mem_singleton.mp hpart]
    simp [connectPart, hnamed]
  asked := by
    constructor
    · intro hrows
      refine ⟨fun _ _ h => absurd h hunique, fun _ _ _ row hrow hnamed => ?_, fun _ hgiven => ?_⟩
      · exact (update.rowAsAsked_connect hholder hempty hunique hname (.inl hnamed)).mp
          (hrows row hrow (.inl hnamed)) hnamed
      · rw [hempty] at hgiven
        cases hgiven
    · intro hlinks row hmem hrow
      exact (update.rowAsAsked_connect hholder hempty hunique hname hrow).mpr
        (hlinks.connects hholder hempty hunique row hmem)

theorem partsSpec_move {value : V} (hholder : update.relation.isHolder = false)
    (hempty : isEmptyObject update.givenFields = true)
    (hunique : update.relation.sourceIndex = some .unique)
    (hname : update.name = some (some value)) :
    update.PartsSpec (written update.relation.targetColumn) before
      [detachPart update.relation (some written),
        connectPart update.relation (detached update.relation (some written) before) value] where
  ofSource part hpart := by
    rcases List.mem_pair.mp hpart with rfl | rfl
    · exact ⟨rfl, rfl⟩
    · exact ⟨rfl, rfl⟩
  alone part hpart row hnamed hrelated := by
    rw [named, hname] at hnamed
    rcases List.mem_pair.mp hpart with rfl | rfl
    · simp [detachPart, joins_eq, hrelated]
    · simp [connectPart, hnamed]
  asked := by
    constructor
    · intro hrows
      refine ⟨fun _ _ _ row hrow hnamed => ?_, fun _ _ h => absurd hunique h, fun _ hgiven => ?_⟩
      · exact (update.rowAsAsked_move hholder hempty hunique hname (.inl hnamed)).mp
          (hrows row hrow (.inl hnamed)) hnamed
      · rw [hempty] at hgiven
        cases hgiven
    · intro hlinks row hmem hrow
      exact (update.rowAsAsked_move hholder hempty hunique hname hrow).mpr
        (hlinks.moves hholder hempty hunique row hmem)

theorem partsSpec_fields (hgiven : isEmptyObject update.givenFields = false)
    (hheld : update.relation.isHolder = true → ∀ value, update.name = some value →
      written update.relation.targetColumn = value) :
    update.PartsSpec (written update.relation.targetColumn) before [update.fieldsPart written] where
  ofSource part hpart := by
    rw [List.mem_singleton.mp hpart]
    exact ⟨rfl, rfl⟩
  alone part hpart row _ hrelated := by
    rw [List.mem_singleton.mp hpart]
    simp [fieldsPart, joins_eq, hrelated]
  asked := by
    have hempty : ¬isEmptyObject update.givenFields = true := by simp [hgiven]
    by_cases hplain : update.name = none ∨ update.relation.isHolder = true
    · refine iff_of_true (fun row _ hrow => update.rowAsAsked_given hgiven hplain hheld hrow)
        ⟨fun _ h => absurd h hempty, fun _ h => absurd h hempty, fun hholder _ hname => ?_⟩
      rw [hplain.resolve_right (by simp [hholder])] at hname
      cases hname
    · obtain ⟨hname, hholder⟩ := not_or.mp hplain
      obtain ⟨name, hname⟩ := Option.ne_none_iff_exists'.mp hname
      have hholder := Bool.eq_false_iff.mpr hholder
      constructor
      · intro hrows
        refine ⟨fun _ h => absurd h hempty, fun _ h => absurd h hempty, fun _ _ _ row hmem => ?_⟩
        by_cases hrow : update.named row = true ∨
            update.related (written update.relation.targetColumn) row = true
        · exact (update.rowAsAsked_renames hholder hgiven hname hrow).mp (hrows row hmem hrow)
        · obtain ⟨hnamed, hrelated⟩ := not_or.mp hrow
          rw [Bool.eq_false_iff.mpr hnamed, Bool.eq_false_iff.mpr hrelated]
      · intro hlinks row hmem hrow
        exact (update.rowAsAsked_renames hholder hgiven hname hrow).mpr
          (hlinks.renames hholder hgiven (by simp [hname]) row hmem)

omit [DecidableEq V] in
theorem getPostRelationValue_empty (hempty : isEmptyObject update.givenFields = true) :
    getPostRelationValue update.fields update.relation =
      (if update.relation.isHolder then none else update.name, none) := if_pos hempty

omit [DecidableEq V] in
theorem getPostRelationValue_given (hgiven : isEmptyObject update.givenFields = false) :
    getPostRelationValue update.fields update.relation = (none, some update.fields) :=
  if_neg (Bool.eq_false_iff.mp hgiven)

/-- The parts, when fields are given that change something and are none of the
updated table's relations. -/
theorem relationParts_spec (before : Tables V)
    (hunshared : isEmptyObject update.givenFields = false →
      ∀ fieldKey ∈ keysOf update.fields, find update.relations fieldKey = none)
    (hchanges : isEmptyObject update.givenFields = false →
      ∃ field ∈ update.fields, (columnChange field.2).isSome = true)
    (hheld : update.relation.isHolder = true → ∀ value, update.name = some value →
      written update.relation.targetColumn = value) :
    ∃ parts, relationParts update.relations update.relation update.fields (some written) before =
      .ok parts ∧ update.PartsSpec (written update.relation.targetColumn) before parts := by
  unfold relationParts
  cases hempty : isEmptyObject update.givenFields with
  | true =>
    rw [getPostRelationValue_empty update hempty]
    cases hholder : update.relation.isHolder with
    | true => exact ⟨[], rfl, update.partsSpec_kept hempty (.inl hholder) hheld⟩
    | false =>
      rw [if_neg Bool.false_ne_true]
      cases hname : update.name with
      | none => exact ⟨[], rfl, update.partsSpec_kept hempty (.inr hname) hheld⟩
      | some value =>
        cases value with
        | none => exact ⟨_, rfl, update.partsSpec_detach hholder hempty hname⟩
        | some value =>
          dsimp only
          split
          · rename_i hunique
            exact ⟨_, rfl, update.partsSpec_move hholder hempty hunique hname⟩
          · rename_i hunique
            exact ⟨_, rfl, update.partsSpec_connect hholder hempty hunique hname⟩
  | false =>
    obtain ⟨record, hrecord, hfind⟩ :=
      getUpdateRecord_fields update.relations [] (hunshared hempty) update.fieldsOnce
    have hwrites : record.isEmpty = false := by
      rw [← Bool.not_eq_true, isEmpty_iff_find, not_forall]
      obtain ⟨column, hne⟩ := (exists_change_iff update.fieldsOnce).mpr (hchanges hempty)
      exact ⟨column, by rwa [hfind, find_nil, Option.or_none]⟩
    have hrow : applyRecord record = applyFields update.fields := by
      funext row column
      rw [applyRecord, hfind, find_nil, Option.or_none]
      rfl
    refine ⟨[update.fieldsPart written], ?_, update.partsSpec_fields hempty hheld⟩
    rw [getPostRelationValue_given update hempty]
    dsimp only
    rw [hrecord]
    simp only [bind, Except.bind, hwrites, Bool.false_eq_true, if_false, pure, Except.pure, hrow]
    rfl

/-- A field named as a relation, or fields that change nothing, fail the update. -/
theorem relationParts_error (before : Tables V)
    (hgiven : isEmptyObject update.givenFields = false)
    (hvalues : ∀ field ∈ update.fields, find update.relations field.1 ≠ none →
      ∃ value, field.2 = .value value)
    (hfails : (∃ fieldKey ∈ keysOf update.fields, find update.relations fieldKey ≠ none) ∨
      ∀ field ∈ update.fields, columnChange field.2 = none) (source : Option (Row V)) :
    ∃ error, relationParts update.relations update.relation update.fields source before =
      .error error := by
  unfold relationParts
  rw [getPostRelationValue_given update hgiven]
  dsimp only
  by_cases hshared : ∃ fieldKey ∈ keysOf update.fields, find update.relations fieldKey ≠ none
  · obtain ⟨fieldKey, hkey, hrelation⟩ := hshared
    rw [getUpdateRecord_value [] hvalues hkey hrelation]
    exact ⟨_, rfl⟩
  · have hnone : ∀ key ∈ keysOf update.fields, find update.relations key = none := by
      push Not at hshared
      exact hshared
    obtain ⟨record, hrecord, hfind⟩ :=
      getUpdateRecord_fields update.relations [] hnone update.fieldsOnce
    have hnothing := hfails.resolve_left hshared
    have hwrites : record.isEmpty = true := by
      refine isEmpty_iff_find.mpr fun column => ?_
      rw [hfind, find_nil, Option.or_none]
      exact Option.bind_eq_none_iff.mpr fun field hfield => hnothing _ (mem_of_find hfield)
    rw [hrecord]
    refine ⟨.emptyRecord, ?_⟩
    simp only [bind, Except.bind, hwrites, if_true]
    rfl

end

end RelationUpdate

end Ez4.PgClient.UpdateRelations

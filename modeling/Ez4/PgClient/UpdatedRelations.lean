import Ez4.PgClient.UpdateRelations
import Ez4.PgClient.UpsertAgreement

/-! # Updated relations

What the data of an update names of one relation, and when the parts of the
update write it, whatever the relation was before. -/
namespace Ez4.PgClient.UpdateRelations
open Ez4.Utils Ez4.PgClient.Upsert Ez4.PgClient.RelationStatement

variable {V : Type}

/-! ## What the data names -/

/-- An update whose data gives one relation as an object, as the types have it: a
related record is named by a value, and the columns that relations hold are left
out. -/
structure RelationUpdate (V : Type) extends UpdateInput V where
  targetAlias : String
  relation : Relation
  fields : SqlData V
  declared : find relations targetAlias = some relation
  relationsOnce : (keysOf relations).Nodup
  given : ∃ operation, find data targetAlias = some (.object fields operation)
  dataOnce : (keysOf data).Nodup
  alone : ∀ key ∈ keysOf data, key ≠ targetAlias → find relations key = none
  fieldsOnce : (keysOf fields).Nodup
  namedByValue : ∀ field, find fields relation.relationColumn = some field →
    ∃ value, field = .value value
  ownColumn : relation.isHolder = true → relation.targetColumn ∉ keysOf data
  sourceColumn : relation.isHolder = false → relation.sourceColumn ∈ keysOf fields →
    otherFields fields relation = []

/-- The fields written over a row. -/
def applyFields (fields : SqlData V) (row : Row V) : Row V := fun column =>
  match (find fields column).bind columnChange with
  | some change => change (row column)
  | none => row column

namespace RelationUpdate
variable (update : RelationUpdate V)

/-- The name that the data gives, a value or null. -/
def name : Option (Option V) := getRelationValue update.fields update.relation

/-- The fields that the data gives to the related records. -/
def givenFields : SqlData V := otherFields update.fields update.relation

def ownFields : SqlData V := update.data.filter fun field => field.1 ≠ update.targetAlias

/-- The updated record as the data has it, with the relation where it holds it. -/
def ownRow (row : Row V) : Row V :=
  let changed := applyFields update.ownFields row
  match update.name with
  | some value =>
    if update.relation.isHolder then Function.update changed update.relation.targetColumn value
    else changed
  | none => changed

/-- Whether the data changes the record itself, or touches it. -/
def writesRecord : Bool :=
  update.touch || update.relation.isHolder && update.name.isSome ||
    update.ownFields.any fun field => (columnChange field.2).isSome

variable [DecidableEq V] (key : Option V)

/-- The row is related to the record of that key. -/
def related (row : Row V) : Bool := sqlEqual (row update.relation.sourceColumn) key

def named (row : Row V) : Bool :=
  match update.name with
  | some (some value) => sqlEqual (row update.relation.relationColumn) (some value)
  | _ => false

/-- The row is to be related afterwards: a relation to one record keeps only the
one that is named, and null keeps none. -/
def keeps (row : Row V) : Bool :=
  match update.name with
  | none => update.related key row
  | some none => false
  | some (some _) => update.named row || !update.relation.isSingle && update.related key row

/-- A row of the source table as the data names it: the foreign key that it holds,
and the fields that are given to the related records. -/
def askedRow (row current : Row V) : Row V :=
  let linked :=
    if update.relation.isHolder then current
    else if update.named row then Function.update current update.relation.sourceColumn key
    else if update.related key row && !update.keeps key row then
      Function.update current update.relation.sourceColumn none
    else current
  if update.keeps key row then applyFields update.givenFields linked else linked

def currentRow (table : String) (row : Row V) : Row V :=
  if table = update.table && update.matching row then update.ownRow row else row

/-- A row of any table as the data names it. -/
def asked (table : String) (row : Row V) : Row V :=
  if table = update.relation.sourceTable then update.askedRow key row (update.currentRow table row)
  else update.currentRow table row

def askedTables (before : Tables V) : Tables V := fun table =>
  (before table).map (update.asked key table)

/-- The tables are as the data names: every row is as asked, so the other rows are
as they were, and when a record or null is named, the rows that are related to the
updated record are those that the data keeps. -/
structure WrittenAsNamed (before after : Tables V) : Prop where
  rows : after = update.askedTables key before
  related : update.name.isSome → List.Forall₂
    (fun row written => update.related key written = update.keeps key row)
    (before update.relation.sourceTable) (after update.relation.sourceTable)

/-- When the parts connect what the data names. A record that is named by the
foreign key that it holds is not related yet, and another is; one that is named
otherwise is given a key. Fields come with a name only when the related records are
the named ones. -/
structure Links (before : Tables V) : Prop where
  moves : update.relation.isHolder = false → isEmptyObject update.givenFields = true →
    update.relation.sourceIndex = some .unique →
    ∀ row ∈ before update.relation.sourceTable, update.named row = true →
      update.related key row = false ∧
        ∃ other ∈ before update.relation.sourceTable, update.related key other = true
  connects : update.relation.isHolder = false → isEmptyObject update.givenFields = true →
    update.relation.sourceIndex ≠ some .unique →
    ∀ row ∈ before update.relation.sourceTable, update.named row = true → key.isSome = true
  renames : update.relation.isHolder = false → isEmptyObject update.givenFields = false →
    update.name.isSome → ∀ row ∈ before update.relation.sourceTable,
      update.named row = update.related key row

/-- When an update writes what its data names: it links the records, the tables
accept it, and the fields that are given change something and are named as no
relation of the updated table. -/
structure Writable (accepts : Tables V → Tables V → Bool) (before : Tables V) : Prop where
  accepted : accepts before (update.askedTables key before) = true
  unshared : isEmptyObject update.givenFields = false →
    ∀ fieldKey ∈ keysOf update.fields, find update.relations fieldKey = none
  changes : isEmptyObject update.givenFields = false →
    ∃ field ∈ update.fields, (columnChange field.2).isSome = true
  links : update.Links key before

end RelationUpdate

/-! ## The record of an update -/

section
variable {relations : List (String × Relation)}

theorem getUpdateRecord_append (data rest : SqlData V) (record : UpdateRecord V) :
    getUpdateRecord relations (data ++ rest) record =
      (getUpdateRecord relations data record).bind (getUpdateRecord relations rest) := by
  induction data generalizing record with
  | nil => rfl
  | cons field data ih =>
    obtain ⟨fieldKey, fieldValue⟩ := field
    rw [List.cons_append, getUpdateRecord, getUpdateRecord]
    cases find relations fieldKey with
    | none =>
      cases columnChange fieldValue with
      | none => exact ih record
      | some change => exact ih _
    | some fieldRelation =>
      cases fieldValue with
      | value => rfl
      | object fields operation =>
        cases hvalue : getRelationValue fields fieldRelation with
        | none => simpa only [hvalue] using ih record
        | some relationValue =>
          cases hholder : fieldRelation.isHolder with
          | true =>
            simp only [hvalue, hholder, if_true]
            exact ih _
          | false =>
            simp only [hvalue, hholder, Bool.false_eq_true, if_false]
            exact ih record

/-- Without relations, the record has the change of each field. -/
theorem getUpdateRecord_fields (relations : List (String × Relation)) {data : SqlData V}
    (record : UpdateRecord V)
    (hnone : ∀ key ∈ keysOf data, find relations key = none) (honce : (keysOf data).Nodup) :
    ∃ written, getUpdateRecord relations data record = .ok written ∧
      ∀ column, find written column =
        ((find data column).bind columnChange).or (find record column) := by
  induction data generalizing record with
  | nil => exact ⟨record, rfl, fun column => rfl⟩
  | cons field data ih =>
    obtain ⟨fieldKey, fieldValue⟩ := field
    have hkey : find relations fieldKey = none := hnone fieldKey List.mem_cons_self
    have hrest := fun key hmem => hnone key (List.mem_cons_of_mem _ hmem)
    obtain ⟨hnot, honce⟩ := List.nodup_cons.mp honce
    have hdata : find data fieldKey = none := find_eq_none.mpr hnot
    rw [getUpdateRecord, hkey]
    cases hchange : columnChange fieldValue with
    | none =>
      obtain ⟨written, hrecord, hfind⟩ := ih record hrest honce
      refine ⟨written, hrecord, fun column => ?_⟩
      rw [hfind, find_cons]
      split
      · rename_i heq
        rw [← heq, hdata]
        simp [hchange]
      · rfl
    | some change =>
      obtain ⟨written, hrecord, hfind⟩ := ih (assign record fieldKey change) hrest honce
      refine ⟨written, hrecord, fun column => ?_⟩
      rw [hfind, find_cons, find_assign]
      by_cases heq : fieldKey = column
      · rw [← heq, hdata]
        simp [hchange]
      · simp [heq]

/-- A plain value cannot be given to a relation. -/
theorem getUpdateRecord_value {data : SqlData V} {fieldKey : String} (record : UpdateRecord V)
    (hobjects : ∀ field ∈ data, find relations field.1 ≠ none → ∃ value, field.2 = .value value)
    (hkey : fieldKey ∈ keysOf data) (hrelation : find relations fieldKey ≠ none) :
    getUpdateRecord relations data record = .error .invalidRelationField := by
  induction data generalizing record with
  | nil => cases hkey
  | cons field data ih =>
    have hrest := fun other hmem => hobjects other (List.mem_cons_of_mem _ hmem)
    have hfirst := hobjects field List.mem_cons_self
    obtain ⟨key, fieldValue⟩ := field
    rw [getUpdateRecord]
    cases hfind : find relations key with
    | some fieldRelation =>
      obtain ⟨value, hvalue⟩ := hfirst (by simp [hfind])
      dsimp only at hvalue
      rw [hvalue]
    | none =>
      have hmem : fieldKey ∈ keysOf data := by
        refine (List.mem_cons.mp hkey).resolve_left fun heq => hrelation ?_
        rw [heq]
        exact hfind
      cases columnChange fieldValue with
      | none => exact ih record hrest hmem
      | some change => exact ih _ hrest hmem

theorem isEmpty_iff_find {record : UpdateRecord V} :
    record.isEmpty = true ↔ ∀ column, find record column = none := by
  constructor
  · intro h column
    rw [List.isEmpty_iff.mp h]
    rfl
  · intro h
    cases record with
    | nil => rfl
    | cons change record =>
      have hfirst := h change.1
      rw [find_cons, if_pos rfl] at hfirst
      cases hfirst

/-- Fields of which none is given twice change the columns one by one. -/
theorem exists_change_iff {fields : SqlData V} (honce : (keysOf fields).Nodup) :
    (∃ column, (find fields column).bind columnChange ≠ none) ↔
      ∃ field ∈ fields, (columnChange field.2).isSome = true := by
  constructor
  · intro ⟨column, hne⟩
    obtain ⟨change, hchange⟩ := Option.ne_none_iff_exists'.mp hne
    obtain ⟨field, hfind, hfield⟩ := Option.bind_eq_some_iff.mp hchange
    exact ⟨(column, field), mem_of_find hfind, by rw [hfield]; rfl⟩
  · intro ⟨⟨column, field⟩, hmem, hsome⟩
    refine ⟨column, ?_⟩
    rw [find_of_mem honce hmem]
    exact Option.isSome_iff_ne_none.mp hsome

end

namespace RelationUpdate
variable (update : RelationUpdate V)

/-- What the record has for a column that the update holds the relation in. -/
def heldChange (column : String) : Option (Option V → Option V) :=
  if update.relation.isHolder && column = update.relation.targetColumn then
    update.name.map fun value _ => value
  else none

theorem data_split : ∃ left right operation,
    update.data = left ++ (update.targetAlias, .object update.fields operation) :: right ∧
      update.ownFields = left ++ right := by
  obtain ⟨operation, hgiven⟩ := update.given
  obtain ⟨left, right, hdata⟩ := List.append_of_mem (mem_of_find hgiven)
  refine ⟨left, right, operation, hdata, ?_⟩
  have honce := update.dataOnce
  rw [hdata, keysOf, List.map_append, List.map_cons, List.nodup_middle, List.nodup_cons] at honce
  have hkeep : ∀ field ∈ left ++ right, decide (field.1 ≠ update.targetAlias) = true := by
    intro field hfield
    refine decide_eq_true fun heq => honce.1 ?_
    show update.targetAlias ∈ _
    rw [← List.map_append, ← heq]
    exact List.mem_map_of_mem (f := Prod.fst) hfield
  rw [ownFields, hdata, List.filter_append, List.filter_cons_of_neg (by simp),
    ← List.filter_append, List.filter_eq_self.mpr hkeep]

theorem ownFields_once : (keysOf update.ownFields).Nodup := by
  have hkeys : keysOf update.ownFields =
      (keysOf update.data).filter fun key => key ≠ update.targetAlias :=
    keysOf_filter update.data fun key => key ≠ update.targetAlias
  rw [hkeys]
  exact update.dataOnce.filter _

theorem ownFields_none : ∀ key ∈ keysOf update.ownFields, find update.relations key = none := by
  intro key hkey
  obtain ⟨field, hfield, rfl⟩ := List.mem_map.mp hkey
  obtain ⟨hmem, hne⟩ := List.mem_filter.mp hfield
  exact update.alone _ (List.mem_map_of_mem hmem) (of_decide_eq_true hne)

theorem heldChange_of_mem {column : String} (hcolumn : column ∈ keysOf update.ownFields) :
    update.heldChange column = none := by
  refine if_neg fun h => ?_
  obtain ⟨hholder, heq⟩ := Bool.and_eq_true_iff.mp h
  refine update.ownColumn hholder ?_
  rw [← of_decide_eq_true heq]
  obtain ⟨field, hfield, hkey⟩ := List.mem_map.mp hcolumn
  rw [← hkey]
  exact List.mem_map_of_mem (List.mem_filter.mp hfield).1

/-- The relation adds the column that it is held in. -/
theorem getUpdateRecord_relation (operation : Option (Option V → Option V)) (rest : SqlData V)
    (record : UpdateRecord V) : ∃ linked,
    getUpdateRecord update.relations ((update.targetAlias, .object update.fields operation) :: rest)
      record = getUpdateRecord update.relations rest linked ∧
    ∀ column, find linked column = (update.heldChange column).or (find record column) := by
  rw [getUpdateRecord, update.declared]
  unfold heldChange name
  cases hname : getRelationValue update.fields update.relation with
  | none => exact ⟨record, by simp only [hname], fun column => by simp⟩
  | some value =>
    cases hholder : update.relation.isHolder with
    | false =>
      exact ⟨record, by simp only [hname, hholder, Bool.false_eq_true, if_false],
        fun column => by simp⟩
    | true =>
      refine ⟨assign record update.relation.targetColumn fun _ => value,
        by simp only [hname, hholder, if_true], fun column => ?_⟩
      rw [find_assign]
      by_cases heq : update.relation.targetColumn = column
      · simp [heq]
      · simp [heq, Ne.symm heq]

/-- The record that is built changes each column once: as its own field asks, or to
the name that is given. -/
theorem ownRecord_find : ∃ record, getUpdateRecord update.relations update.data [] = .ok record ∧
    ∀ column, find record column =
      ((find update.ownFields column).bind columnChange).or (update.heldChange column) := by
  obtain ⟨left, right, operation, hdata, hown⟩ := update.data_split
  have honce := update.ownFields_once
  have hnone := update.ownFields_none
  have hheld : ∀ column ∈ keysOf update.ownFields, update.heldChange column = none :=
    fun column => update.heldChange_of_mem
  rw [hown] at honce hnone hheld ⊢
  unfold keysOf at honce hnone hheld
  rw [List.map_append] at honce hnone hheld
  obtain ⟨hleft, hright, hdisjoint⟩ := List.nodup_append.mp honce
  obtain ⟨first, hfirst, hfindFirst⟩ := getUpdateRecord_fields update.relations
    [] (fun key hkey => hnone key (List.mem_append_left _ hkey)) hleft
  obtain ⟨linked, hlinked, hfindLinked⟩ := update.getUpdateRecord_relation operation right first
  obtain ⟨record, hrecord, hfindRecord⟩ := getUpdateRecord_fields update.relations
    linked (fun key hkey => hnone key (List.mem_append_right _ hkey)) hright
  refine ⟨record, ?_, fun column => ?_⟩
  · rw [hdata, getUpdateRecord_append, hfirst]
    exact hlinked.trans hrecord
  · rw [hfindRecord, hfindLinked, hfindFirst, find_append, find_nil, Option.or_none]
    cases hcolumn : find left column with
    | some field =>
      have hmem : column ∈ keysOf left := mem_keysOf_of_mem (mem_of_find hcolumn)
      have hno : find right column = none :=
        find_eq_none.mpr fun hright => hdisjoint column hmem column hright rfl
      rw [hno, hheld column (List.mem_append_left _ hmem)]
      simp
    | none => simp

theorem ownRow_apply (row : Row V) (column : String) : update.ownRow row column =
    match update.heldChange column with
    | some change => change (row column)
    | none => applyFields update.ownFields row column := by
  unfold ownRow heldChange
  cases update.name with
  | none => simp
  | some value =>
    cases update.relation.isHolder with
    | false => simp
    | true =>
      by_cases heq : column = update.relation.targetColumn
      · simp [heq]
      · simp [heq]

theorem exists_heldChange_iff : (∃ column, update.heldChange column ≠ none) ↔
    (update.relation.isHolder && update.name.isSome) = true := by
  unfold heldChange
  cases update.relation.isHolder with
  | false => simp
  | true => simp [Option.ne_none_iff_isSome]

/-- The record that is built writes the updated record as the data has it. -/
theorem ownRecord : ∃ record, getUpdateRecord update.relations update.data [] = .ok record ∧
    (∀ row, applyRecord record row = update.ownRow row) ∧
      (!record.isEmpty || update.touch) = update.writesRecord := by
  obtain ⟨record, hrecord, hfind⟩ := update.ownRecord_find
  refine ⟨record, hrecord, fun row => funext fun column => ?_, ?_⟩
  · rw [ownRow_apply, applyRecord, hfind]
    unfold applyFields
    cases hfield : find update.ownFields column with
    | none => cases update.heldChange column <;> simp
    | some field =>
      have hheld := update.heldChange_of_mem (mem_keysOf_of_mem (mem_of_find hfield))
      cases hchange : columnChange field <;> simp [hheld, hchange]
  · have hempty : record.isEmpty = false ↔
        (∃ column, (find update.ownFields column).bind columnChange ≠ none) ∨
          ∃ column, update.heldChange column ≠ none := by
      rw [← Bool.not_eq_true, isEmpty_iff_find, not_forall, ← exists_or]
      refine exists_congr fun column => ?_
      rw [hfind, Option.or_eq_none_iff, not_and_or]
    rw [exists_change_iff update.ownFields_once, exists_heldChange_iff] at hempty
    rw [writesRecord, Bool.eq_iff_iff, Bool.or_eq_true, Bool.or_eq_true, Bool.or_eq_true,
      Bool.not_eq_true', hempty, List.any_eq_true]
    exact ⟨fun h => h.elim (fun h => h.symm.imp_left .inr) fun h => .inl (.inl h),
      fun h => h.elim (fun h => h.symm.imp_left .inr) fun h => .inl (.inl h)⟩

/-- A record that is only read is as its own data has it. -/
theorem ownRow_of_reads (hreads : update.writesRecord = false) (row : Row V) :
    update.ownRow row = row := by
  obtain ⟨record, _, hrow, hwrites⟩ := update.ownRecord
  rw [hreads, Bool.or_eq_false_iff, Bool.not_eq_false'] at hwrites
  rw [← hrow, List.isEmpty_iff.mp hwrites.1]
  rfl

/-! ## The statement -/

section
variable [DecidableEq V] {before : Tables V} {record : Row V}

omit [DecidableEq V] in
theorem find_other {targetAlias : String} {relation : Relation}
    (hmem : (targetAlias, relation) ∈ update.relations) (hne : targetAlias ≠ update.targetAlias) :
    find update.data targetAlias = none := by
  refine find_eq_none.mpr fun hdata => ?_
  have hnone := update.alone targetAlias hdata hne
  rw [find_of_mem update.relationsOnce hmem] at hnone
  cases hnone

/-- Only the relation that is given takes parts. -/
theorem preparePostUpdateRelations_eq (source : Option (Row V))
    (relations : List (String × Relation))
    (hsub : ∀ entry ∈ relations, entry ∈ update.relations) (honce : (keysOf relations).Nodup) :
    preparePostUpdateRelations update.toUpdateInput source before relations =
      if update.targetAlias ∈ keysOf relations then
        relationParts update.relations update.relation update.fields source before
      else .ok [] := by
  induction relations with
  | nil => rfl
  | cons entry relations ih =>
    obtain ⟨targetAlias, relation⟩ := entry
    obtain ⟨hnot, honce⟩ := List.nodup_cons.mp honce
    have hmem := hsub _ List.mem_cons_self
    have hrest := ih (fun entry h => hsub entry (List.mem_cons_of_mem _ h)) honce
    rw [preparePostUpdateRelations]
    by_cases heq : targetAlias = update.targetAlias
    · subst heq
      have hnot : update.targetAlias ∉ keysOf relations := hnot
      obtain ⟨operation, hgiven⟩ := update.given
      have hfound := find_of_mem update.relationsOnce hmem
      have hrelation := Option.some.inj (hfound.symm.trans update.declared)
      rw [hgiven, hrest, if_neg hnot, hrelation, if_pos (mem_keysOf_of_mem List.mem_cons_self)]
      show (relationParts _ _ _ _ _).bind (fun parts => .ok (parts ++ [])) = _
      cases relationParts update.relations update.relation update.fields source before with
      | error => rfl
      | ok parts => exact congrArg Except.ok (List.append_nil parts)
    · rw [update.find_other hmem heq, hrest]
      have hiff : update.targetAlias ∈ keysOf ((targetAlias, relation) :: relations) ↔
          update.targetAlias ∈ keysOf relations :=
        List.mem_cons.trans (or_iff_right (Ne.symm heq))
      simp only [hiff]

/-- The part that writes the updated record itself. -/
def ownPart : Part V where
  table := update.table
  write row := if update.matching row && update.writesRecord then some (update.ownRow row) else none

theorem prepareUpdateQuery_eq
    (hselected : (before update.table).find? update.matching = some record) :
    prepareUpdateQuery update.toUpdateInput before =
      (relationParts update.relations update.relation update.fields
        (some (update.ownRow record)) before).map (update.ownPart :: ·) := by
  obtain ⟨written, hwritten, hrow, hwrites⟩ := update.ownRecord
  have hrelations : update.targetAlias ∈ keysOf update.relations :=
    mem_keysOf_of_mem (mem_of_find update.declared)
  unfold prepareUpdateQuery
  rw [hwritten]
  show (preparePostUpdateRelations _ _ _ _).bind _ = _
  rw [preparePostUpdateRelations_eq update _ _ (fun _ h => h) update.relationsOnce,
    if_pos hrelations, hselected]
  have hown : (some record).map (applyRecord written) = some (update.ownRow record) :=
    congrArg some (hrow record)
  rw [hown]
  cases relationParts update.relations update.relation update.fields
    (some (update.ownRow record)) before with
  | error => rfl
  | ok parts =>
    refine congrArg (fun own => Except.ok (own :: parts)) ?_
    unfold ownPart
    simp only [hrow, hwrites]

end

end RelationUpdate

end Ez4.PgClient.UpdateRelations

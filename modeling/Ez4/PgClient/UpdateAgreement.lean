import Ez4.PgClient.RelationRows

/-! # Updates as the data names

The parts of an update write every row as the data names it exactly when they link
the records: no two of them write one row, but where a table is related to itself. -/
namespace Ez4.PgClient.UpdateRelations
open Ez4.Utils Ez4.PgClient.Upsert Ez4.PgClient.RelationStatement

namespace RelationUpdate
variable {V : Type} (update : RelationUpdate V) [DecidableEq V] {before : Tables V} {key : Option V}

/-! ## Every row -/

section
variable {parts : List (Part V)} {table : String} {row : Row V}

/-- A row that is neither named nor related is asked nothing. -/
theorem askedRow_alone (hnamed : update.named row = false)
    (hrelated : update.related key row = false) (current : Row V) :
    update.keeps key row = false ∧ update.askedRow key row current = current := by
  have hkeeps : update.keeps key row = false := by
    unfold keeps
    split
    · exact hrelated
    · rfl
    · rw [hnamed, hrelated, Bool.and_false]
      rfl
  refine ⟨hkeeps, ?_⟩
  simp [askedRow, hkeeps, hnamed, hrelated]

omit [DecidableEq V] in
theorem writes_cons (part : Part V) (parts : List (Part V)) (table : String) (row : Row V) :
    writes (part :: parts) table row =
      (if part.table = table then part.write row else none).toList ++ writes parts table row := by
  unfold writes
  rw [List.filterMap_cons]
  cases (if part.table = table then part.write row else none) <;> rfl

omit [DecidableEq V] in
/-- Without a part of the relation, a row becomes what its own data makes of it. -/
theorem outcomes_own (hnone : writes parts table row = []) :
    outcomes (update.ownPart :: parts) table row = [update.currentRow table row] := by
  unfold outcomes
  rw [writes_cons, hnone, List.append_nil]
  unfold ownPart currentRow
  dsimp only
  by_cases htable : update.table = table
  · subst htable
    cases hmatching : update.matching row with
    | false => simp
    | true =>
      cases hwrites : update.writesRecord with
      | false => simp [update.ownRow_of_reads hwrites row]
      | true => simp
  · have hne : ¬table = update.table := Ne.symm htable
    simp [htable, hne]

omit [DecidableEq V] in
/-- Where its own data does not write a row, only the parts of the relation do. -/
theorem outcomes_parts (parts : List (Part V))
    (hown : table = update.table → update.matching row = true → update.writesRecord = false) :
    outcomes (update.ownPart :: parts) table row = outcomes parts table row ∧
      update.currentRow table row = row := by
  unfold outcomes currentRow
  rw [writes_cons]
  unfold ownPart
  dsimp only
  by_cases htable : table = update.table
  · cases hmatching : update.matching row with
    | false => simp
    | true =>
      have hwrites := hown htable hmatching
      simp [hwrites, htable, update.ownRow_of_reads hwrites row]
  · have hne : ¬update.table = table := Ne.symm htable
    simp [htable, hne]

variable {record : Row V}

/-- The updated record is none of those that the relation concerns, unless its own
data changes nothing: in a relation of a table with itself both would write it. -/
def Apart (record : Row V) : Prop :=
  update.relation.sourceTable = update.table → update.writesRecord = true →
    update.named record = false ∧
      update.related (update.ownRow record update.relation.targetColumn) record = false ∧
      (update.name.isSome → update.related (update.ownRow record update.relation.targetColumn)
        (update.ownRow record) = false)

omit [DecidableEq V] in
theorem eq_of_selected (hselected : (before update.table).filter update.matching = [record])
    (hrow : row ∈ before update.table) (hmatching : update.matching row = true) : row = record := by
  have hmem := List.mem_filter.mpr ⟨hrow, hmatching⟩
  rw [hselected] at hmem
  exact List.mem_singleton.mp hmem

omit [DecidableEq V] in
theorem find?_of_selected (hselected : (before update.table).filter update.matching = [record]) :
    (before update.table).find? update.matching = some record := by
  rw [← List.head?_filter, hselected]
  rfl

/-- A row that is not of the relation. -/
theorem outcomes_alone (hparts : update.PartsSpec key before parts)
    (halone : table = update.relation.sourceTable →
      update.named row = false ∧ update.related key row = false) :
    outcomes (update.ownPart :: parts) table row = [update.asked key table row] := by
  have hnone : writes parts table row = [] := by
    refine List.filterMap_eq_nil_iff.mpr fun part hpart => ?_
    rw [(hparts.ofSource part hpart).1]
    split
    · rename_i htable
      obtain ⟨hnamed, hrelated⟩ := halone htable.symm
      exact hparts.alone part hpart row hnamed hrelated
    · rfl
  rw [outcomes_own update hnone, asked]
  split
  · rename_i htable
    obtain ⟨hnamed, hrelated⟩ := halone htable
    rw [(update.askedRow_alone hnamed hrelated _).2]
  · rfl

/-- A row of the relation is not written by the data of the updated record. -/
theorem outcomes_concerned (parts : List (Part V)) (hapart : update.Apart record)
    (hselected : (before update.table).filter update.matching = [record])
    (hmem : row ∈ before update.relation.sourceTable)
    (hrow : update.named row = true ∨
      update.related (update.ownRow record update.relation.targetColumn) row = true) :
    outcomes (update.ownPart :: parts) update.relation.sourceTable row =
        outcomes parts update.relation.sourceTable row ∧
      update.asked (update.ownRow record update.relation.targetColumn)
          update.relation.sourceTable row =
        update.askedRow (update.ownRow record update.relation.targetColumn) row row := by
  have hown : update.relation.sourceTable = update.table → update.matching row = true →
      update.writesRecord = false := by
    intro htable hmatching
    refine Bool.eq_false_iff.mpr fun hwrites => ?_
    rw [htable] at hmem
    have hrecord := update.eq_of_selected hselected hmem hmatching
    obtain ⟨hnamed, hrelated, _⟩ := hapart htable hwrites
    rw [hrecord, hnamed, hrelated, or_self] at hrow
    cases hrow
  obtain ⟨houtcomes, hcurrent⟩ := update.outcomes_parts parts hown
  exact ⟨houtcomes, by rw [asked, if_pos rfl, hcurrent]⟩

/-- A row that is neither named nor related stays unrelated. -/
theorem asked_alone (hapart : update.Apart record)
    (hselected : (before update.table).filter update.matching = [record])
    (hmem : row ∈ before update.relation.sourceTable) (hname : update.name.isSome)
    (hnamed : update.named row = false)
    (hrelated : update.related (update.ownRow record update.relation.targetColumn) row = false) :
    update.related (update.ownRow record update.relation.targetColumn)
        (update.asked (update.ownRow record update.relation.targetColumn)
          update.relation.sourceTable row) =
      update.keeps (update.ownRow record update.relation.targetColumn) row := by
  obtain ⟨hkeeps, hasked⟩ :=
    update.askedRow_alone hnamed hrelated (update.currentRow update.relation.sourceTable row)
  rw [asked, if_pos rfl, hasked, hkeeps, currentRow]
  split
  · rename_i hcurrent
    rw [Bool.and_eq_true, decide_eq_true_eq] at hcurrent
    obtain ⟨htable, hmatching⟩ := hcurrent
    rw [htable] at hmem
    obtain rfl := update.eq_of_selected hselected hmem hmatching
    cases hwrites : update.writesRecord with
    | true => exact (hapart htable hwrites).2.2 hname
    | false =>
      rw [update.ownRow_of_reads hwrites] at hrelated ⊢
      exact hrelated
  · exact hrelated

/-- Every row becomes what is asked of it when the parts link the records. -/
theorem rows_iff (hapart : update.Apart record)
    (hselected : (before update.table).filter update.matching = [record])
    (hparts : update.PartsSpec (update.ownRow record update.relation.targetColumn) before parts) :
    ((∀ table, ∀ row ∈ before table, ∀ written ∈ outcomes (update.ownPart :: parts) table row,
        written = update.asked (update.ownRow record update.relation.targetColumn) table row) ∧
      (update.name.isSome → ∀ row ∈ before update.relation.sourceTable,
        update.related (update.ownRow record update.relation.targetColumn)
            (update.asked (update.ownRow record update.relation.targetColumn)
              update.relation.sourceTable row) =
          update.keeps (update.ownRow record update.relation.targetColumn) row)) ↔
    update.Links (update.ownRow record update.relation.targetColumn) before := by
  rw [← hparts.asked]
  constructor
  · intro ⟨hrows, hkeep⟩ row hmem hrow
    obtain ⟨houtcomes, hasked⟩ := update.outcomes_concerned parts hapart hselected hmem hrow
    have hall := hrows _ row hmem
    rw [houtcomes, hasked] at hall
    refine ⟨hall, fun hname => ?_⟩
    rw [← hasked]
    exact hkeep hname row hmem
  · intro hrows
    have hsplit : ∀ row, (update.named row = true ∨
          update.related (update.ownRow record update.relation.targetColumn) row = true) ∨
        update.named row = false ∧
          update.related (update.ownRow record update.relation.targetColumn) row = false := by
      intro row
      cases update.named row <;>
        cases update.related (update.ownRow record update.relation.targetColumn) row <;> simp
    constructor
    · intro table row hmem written hwritten
      by_cases htable : table = update.relation.sourceTable
      · subst htable
        rcases hsplit row with hrow | halone
        · obtain ⟨houtcomes, hasked⟩ :=
            update.outcomes_concerned parts hapart hselected hmem hrow
          rw [houtcomes] at hwritten
          rw [hasked]
          exact (hrows row hmem hrow).1 written hwritten
        · rw [update.outcomes_alone hparts fun _ => halone] at hwritten
          exact List.mem_singleton.mp hwritten
      · rw [update.outcomes_alone hparts fun h => absurd h htable] at hwritten
        exact List.mem_singleton.mp hwritten
    · intro hname row hmem
      rcases hsplit row with hrow | ⟨hnamed, hrelated⟩
      · rw [(update.outcomes_concerned parts hapart hselected hmem hrow).2]
        exact (hrows row hmem hrow).2 hname
      · exact update.asked_alone hapart hselected hmem hname hnamed hrelated

end

omit [DecidableEq V] in
/-- The tables after a statement whose parts insert no row. -/
theorem forall_outcomes_eq {parts : List (Part V)} (hnone : ∀ part ∈ parts, part.inserted = [])
    (expected : String → Row V → Row V) :
    (∀ after, Outcome parts before after →
      after = fun table => (before table).map (expected table)) ↔
      ∀ table, ∀ row ∈ before table, ∀ written ∈ outcomes parts table row,
        written = expected table row := by
  have hinserted : ∀ table, insertedRows parts table = [] := by
    intro table
    refine List.flatMap_eq_nil_iff.mpr fun part hpart => ?_
    rw [hnone part hpart, ite_self]
  rw [← forall_outcomes_iff]
  simp only [hinserted, List.append_nil]

omit [DecidableEq V] in
theorem ownRow_held (hholder : update.relation.isHolder = true) {value : Option V}
    (hname : update.name = some value) (row : Row V) :
    update.ownRow row update.relation.targetColumn = value := by
  rw [ownRow_apply, heldChange, hholder, hname]
  simp

theorem writtenAsNamed_iff {key : Option V} :
    update.WrittenAsNamed key before (update.askedTables key before) ↔
      (update.name.isSome → ∀ row ∈ before update.relation.sourceTable,
        update.related key (update.asked key update.relation.sourceTable row) =
          update.keeps key row) := by
  have hiff : List.Forall₂ (fun row written => update.related key written = update.keeps key row)
      (before update.relation.sourceTable)
      (update.askedTables key before update.relation.sourceTable) ↔
      ∀ row ∈ before update.relation.sourceTable,
        update.related key (update.asked key update.relation.sourceTable row) =
          update.keeps key row := by
    rw [askedTables, List.forall₂_map_right_iff, List.forall₂_same]
  rw [← hiff]
  exact ⟨fun h => h.related, fun h => ⟨rfl, h⟩⟩

/-- An update writes what its data names exactly when it is writable. It is assumed
to select one record, and no object is given for a field that is named as a relation
of the updated table. -/
theorem updateOne_iff (accepts : Tables V → Tables V → Bool) (before : Tables V) (record : Row V)
    (hselected : (before update.table).filter update.matching = [record])
    (hapart : update.Apart record)
    (hvalues : ∀ field ∈ update.fields, find update.relations field.1 ≠ none →
      ∃ value, field.2 = .value value) :
    (∀ result, Updates accepts update.toUpdateInput before result → ∃ after, result = .ok after ∧
      update.WrittenAsNamed (update.ownRow record update.relation.targetColumn) before after) ↔
    update.Writable (update.ownRow record update.relation.targetColumn) accepts before := by
  unfold Updates
  rw [update.prepareUpdateQuery_eq (update.find?_of_selected hselected)]
  by_cases hfields : isEmptyObject update.givenFields = false →
      (∀ fieldKey ∈ keysOf update.fields, find update.relations fieldKey = none) ∧
        ∃ field ∈ update.fields, (columnChange field.2).isSome = true
  · obtain ⟨parts, hparts, hspec⟩ := update.relationParts_spec before
      (fun hgiven => (hfields hgiven).1) (fun hgiven => (hfields hgiven).2)
      (fun hholder value hname => update.ownRow_held hholder hname record)
    have hnone : ∀ part ∈ update.ownPart :: parts, part.inserted = [] := by
      intro part hpart
      rcases List.mem_cons.mp hpart with rfl | hpart
      · rfl
      · exact (hspec.ofSource part hpart).2
    have hrows := update.rows_iff hapart hselected hspec
    rw [← forall_outcomes_eq hnone, ← writtenAsNamed_iff] at hrows
    rw [hparts]
    show (∀ result, (∃ after, Outcome (update.ownPart :: parts) before after ∧ _) → _) ↔ _
    constructor
    · intro hall
      have hafter : ∀ after, Outcome (update.ownPart :: parts) before after →
          accepts before after = true ∧
            update.WrittenAsNamed (update.ownRow record update.relation.targetColumn)
              before after := by
        intro after houtcome
        obtain ⟨written, hwritten, hnamed⟩ := hall _ ⟨after, houtcome, rfl⟩
        cases haccepts : accepts before after with
        | false =>
          rw [haccepts, if_neg Bool.false_ne_true] at hwritten
          cases hwritten
        | true =>
          rw [haccepts, if_pos rfl] at hwritten
          obtain rfl := Except.ok.inj hwritten
          exact ⟨rfl, hnamed⟩
      obtain ⟨after, houtcome⟩ := outcome_exists (update.ownPart :: parts) before
      obtain ⟨haccepts, hnamed⟩ := hafter after houtcome
      obtain ⟨rfl, _⟩ := id hnamed
      exact ⟨haccepts, fun hgiven => (hfields hgiven).1, fun hgiven => (hfields hgiven).2,
        hrows.mp ⟨fun after houtcome => (hafter after houtcome).2.rows, hnamed⟩⟩
    · intro hwritable result ⟨after, houtcome, hresult⟩
      obtain ⟨hasked, hnamed⟩ := hrows.mpr hwritable.links
      have hafter : after = update.askedTables _ before := hasked after houtcome
      rw [hafter, hwritable.accepted, if_pos rfl] at hresult
      exact ⟨_, hresult, hnamed⟩
  · obtain ⟨hgiven, hnot⟩ := Classical.not_imp.mp hfields
    have hfails : (∃ fieldKey ∈ keysOf update.fields, find update.relations fieldKey ≠ none) ∨
        ∀ field ∈ update.fields, columnChange field.2 = none := by
      by_contra hneither
      push Not at hneither
      refine hnot ⟨hneither.1, ?_⟩
      obtain ⟨field, hfield, hchange⟩ := hneither.2
      exact ⟨field, hfield, Option.isSome_iff_ne_none.mpr hchange⟩
    obtain ⟨error, herror⟩ := update.relationParts_error before hgiven hvalues hfails
      (some (update.ownRow record))
    rw [herror]
    refine iff_of_false (fun hall => ?_) fun h => hnot ⟨h.unshared hgiven, h.changes hgiven⟩
    obtain ⟨_, hresult, _⟩ := hall (.error error) rfl
    cases hresult

end RelationUpdate

/-! ## Samples -/

namespace Sample

/-- The settings of a user, one for each. -/
def relation : Relation where
  sourceTable := "settings"
  sourceColumn := "user_id"
  sourceIndex := some .unique
  primaryColumn := "id"
  targetColumn := "id"
  targetIndex := some .primary

/-- The first user is given the settings of the user named. -/
def update (userId : Nat) : RelationUpdate Nat where
  table := "users"
  relations := [("settings", relation)]
  data := [("settings", .object [("user_id", .value (some userId))] none)]
  matching row := row "id" = some 1
  targetAlias := "settings"
  relation := relation
  fields := [("user_id", .value (some userId))]
  declared := rfl
  relationsOnce := List.nodup_singleton _
  given := ⟨none, rfl⟩
  dataOnce := List.nodup_singleton _
  alone key hkey hne := absurd (List.mem_singleton.mp hkey) hne
  fieldsOnce := List.nodup_singleton _
  namedByValue field hfield := by
    have hfirst : find [("user_id", DataField.value (some userId))] "user_id" =
      some (.value (some userId)) := rfl
    exact ⟨some userId, Option.some.inj (hfield.symm.trans hfirst)⟩
  ownColumn hholder := absurd hholder (by decide)
  sourceColumn _ _ := rfl

def rowOf (fields : List (String × Nat)) : Row Nat := find fields

def user (id : Nat) : Row Nat := rowOf [("id", id)]

def settingsOf (userId : Nat) : Row Nat := rowOf [("id", 10 + userId), ("user_id", userId)]

def tables (settings : List (Row Nat)) : Tables Nat := fun table =>
  if table = "users" then [user 1, user 2] else if table = "settings" then settings else []

/-- The settings of each user are unique. -/
def accepts (_ after : Tables Nat) : Bool :=
  decide (((after "settings").filterMap fun row => row "user_id").Nodup)

/-- The settings of the second user are not connected with the first, who has none. -/
theorem settings_not_connected : ¬∀ result,
    Updates accepts (update 2).toUpdateInput (tables [settingsOf 2]) result → ∃ after,
      result = .ok after ∧ (update 2).WrittenAsNamed ((update 2).ownRow (user 1) "id")
        (tables [settingsOf 2]) after := by
  intro hall
  have hparts : prepareUpdateQuery (update 2).toUpdateInput (tables [settingsOf 2]) = .ok
      [(update 2).ownPart, detachPart relation (some ((update 2).ownRow (user 1))),
        connectPart relation (detached relation (some ((update 2).ownRow (user 1)))
          (tables [settingsOf 2])) 2] :=
    ((update 2).prepareUpdateQuery_eq rfl).trans rfl
  obtain ⟨after, houtcome⟩ := outcome_exists _ (tables [settingsOf 2])
  have hupdates : Updates accepts (update 2).toUpdateInput (tables [settingsOf 2])
      (if accepts (tables [settingsOf 2]) after then .ok after else .error .refused) := by
    unfold Updates
    rw [hparts]
    exact ⟨after, houtcome, rfl⟩
  obtain ⟨written, hresult, hnamed⟩ := hall _ hupdates
  cases haccepts : accepts (tables [settingsOf 2]) after with
  | false =>
    rw [haccepts] at hresult
    cases hresult
  | true =>
    rw [haccepts] at hresult
    obtain rfl := Except.ok.inj hresult
    -- No part writes the row.
    obtain ⟨rows, hrows, hafter⟩ := houtcome "settings"
    obtain ⟨row, _, hrow, hrest, rfl⟩ := List.forall₂_cons_left_iff.mp hrows
    obtain rfl := List.forall₂_nil_left_iff.mp hrest
    obtain rfl : row = settingsOf 2 := List.mem_singleton.mp hrow
    have hasked := congrFun hnamed.rows "settings"
    rw [hafter] at hasked
    have hvalues := congrArg (List.map fun row => row "user_id") hasked
    revert hvalues
    decide

/-- The settings of the second user are taken over, and those of the first have no
user. -/
theorem settings_connected :
    (update 2).Writable ((update 2).ownRow (user 1) "id") accepts
      (tables [settingsOf 1, settingsOf 2]) ∧
    ∀ result, Updates accepts (update 2).toUpdateInput (tables [settingsOf 1, settingsOf 2]) result →
      ∃ after, result = .ok after ∧ (update 2).WrittenAsNamed ((update 2).ownRow (user 1) "id")
        (tables [settingsOf 1, settingsOf 2]) after := by
  have hwritable : (update 2).Writable ((update 2).ownRow (user 1) "id") accepts
      (tables [settingsOf 1, settingsOf 2]) :=
    { accepted := by decide
      unshared := by decide
      changes := by decide
      links := ⟨by decide, by decide, by decide⟩ }
  refine ⟨hwritable, ((update 2).updateOne_iff accepts (tables [settingsOf 1, settingsOf 2]) (user 1)
    rfl (fun htable => absurd htable (by decide)) fun field hfield hne => ?_).mpr hwritable⟩
  obtain rfl := List.mem_singleton.mp hfield
  exact absurd rfl hne

end Sample

end Ez4.PgClient.UpdateRelations

import Mathlib.Data.List.MinMax
import Ez4.Library.Except
import Ez4.Dynamo.Queries

/-! # What a read finds through an index

An index holds the items that have a value for each of its attributes, so a read
through it finds what `where` selects of these. `IsBest` says which index a read
goes through, in terms of the keys of the query alone. -/
namespace Ez4.Dynamo
open Ez4.Utils Ez4.Schema

/-! ## Items and indexes -/

/-- The attributes of an item. -/
abbrev Item := Fields

/-- It has a value for the attribute. -/
def hasAttribute (item : Item) (key : String) : Bool :=
  match find item key with
  | none | some .undefined | some .null => false
  | some _ => true

/-- The item is part of the index. -/
def isIndexed (index : List String) (item : Item) : Bool := index.all (hasAttribute item)

/-- The items that a statement reads. -/
def itemsOf (indexes : TableIndexes) (content : List Item) (index : Option String) : List Item :=
  match index with
  | none => content
  | some name =>
    match indexes.secondaryIndexes.find? fun index => getIndexName index = name with
    | some index => content.filter (isIndexed index)
    | none => []

section
-- which items the database selects by the text of a condition and its values
variable (matches_ : String → List Value → Item → Bool)

def Command.meets (command : Command) (item : Item) : Bool :=
  match command.statement.whereFields with
  | some text => matches_ text command.parameters item
  | none => true

/-- The records that the command selects. -/
def Command.records (command : Command) (indexes : TableIndexes) (content : List Item) : List Item :=
  (itemsOf indexes content command.statement.index).filter (command.meets matches_)

/-- The same command over the table itself. -/
def Command.overTable (command : Command) : Command :=
  { command with statement := { command.statement with index := none } }

/-- The command selects the records that it selects over the table itself. -/
def Command.FindsTheSame (command : Command) (indexes : TableIndexes) (content : List Item) : Prop :=
  ∀ item, item ∈ command.records matches_ indexes content ↔
    item ∈ command.overTable.records matches_ indexes content

end

/-- The item is one that `where` selects. -/
def whereSelects (deepEqual : AnySchema → AnySchema → Bool) (schema : ObjectSchema)
    (matches_ : String → List Value → Item → Bool) (where_ : Option Fields) (item : Item) : Bool :=
  match where_ with
  | none => true
  | some where_ =>
    match prepareWhereFields deepEqual where_ schema with
    | .ok (text, values) => text = "" || matches_ text values item
    | .error _ => false

/-! ## Reads -/

/-- The inputs of the reads. -/
inductive ReadInput
  | findOne (select where_ : Fields) (consistent : Option Bool)
  | findMany (query : FindManyInput)
  | exists_ (where_ : Option Fields) (consistent : Option Bool)
  | count (where_ : Option Fields)
  | updateMany (query : FindManyInput)
  | deleteMany (query : FindManyInput)

namespace ReadInput

variable (deepEqual : AnySchema → AnySchema → Bool) (table : Table)

def prepare : ReadInput → Except QueryError Command
  | findOne select where_ consistent => prepareFindOne deepEqual table select where_ consistent
  | findMany query => prepareFindMany deepEqual table query
  | exists_ where_ consistent => prepareExists deepEqual table where_ consistent
  | count where_ => prepareCount deepEqual table where_
  | updateMany query => prepareFindWritten deepEqual table query
  | deleteMany query => prepareFindWritten deepEqual table query

def where_ : ReadInput → Option Fields
  | findOne _ where_ _ => some where_
  | findMany query | updateMany query | deleteMany query => query.where_
  | exists_ where_ _ | count where_ => where_

/-- The fields that the index is chosen by. -/
def indexFields : ReadInput → Fields
  | findMany query | updateMany query | deleteMany query => query.indexFields
  | input => input.where_.getD []

end ReadInput

/-! ## The index of a read -/

/-- The indexes that have all of the keys. -/
def holding (indexes : List (List String)) (keys : List String) : List (List String) :=
  indexes.filter fun index => keys.all fun key => index.contains key

/-- The index that a read goes through. -/
structure IsBest (indexes : TableIndexes) (fields : Fields) (index : List String) : Prop where
  nonempty : isEmptyObject fields = false
  notPrimary : indexes.partitionKey ∉ keysOf fields
  /-- It is the first of the shortest that have as many of the first keys as any. -/
  shortest : ∃ count, 0 < count ∧ count ≤ (keysOf fields).length ∧
    (∀ longer, count < longer → longer ≤ (keysOf fields).length →
      holding indexes.secondaryIndexes ((keysOf fields).take longer) = []) ∧
    index ∈ (holding indexes.secondaryIndexes ((keysOf fields).take count)).argmin List.length

theorem holding_cons (indexes : List (List String)) (key : String) (keys : List String) :
    holding indexes (key :: keys) = holding (indexes.filter fun index => index.contains key) keys := by
  rw [holding, holding, List.filter_filter]
  exact List.filter_congr fun index _ => by rw [List.all_cons, Bool.and_comm]

theorem holding_nil (indexes : List (List String)) : holding indexes [] = indexes := by
  simp [holding]

theorem bestIndexes_of_mem {partitionKey : String} {keys : List String} (h : partitionKey ∈ keys)
    (currentIndexes : List (List String)) (best : Option (List (List String))) :
    bestIndexes partitionKey currentIndexes best keys = none := by
  induction keys generalizing currentIndexes best with
  | nil => cases h
  | cons key rest ih =>
    rw [bestIndexes]
    split
    · rfl
    · rename_i hne
      exact ih ((List.mem_cons.mp h).resolve_left hne) _ _

/-- The loop ends with the indexes that have the most of the first keys. -/
theorem bestIndexes_of_not_mem {partitionKey : String} {keys : List String}
    (h : partitionKey ∉ keys) (currentIndexes : List (List String))
    (best : Option (List (List String))) :
    (∃ count, 0 < count ∧ count ≤ keys.length ∧ holding currentIndexes (keys.take count) ≠ [] ∧
      (∀ longer, count < longer → longer ≤ keys.length →
        holding currentIndexes (keys.take longer) = []) ∧
      bestIndexes partitionKey currentIndexes best keys =
        some (holding currentIndexes (keys.take count))) ∨
    (∀ count, 0 < count → count ≤ keys.length → holding currentIndexes (keys.take count) = []) ∧
      bestIndexes partitionKey currentIndexes best keys = best := by
  induction keys generalizing currentIndexes best with
  | nil => exact .inr ⟨fun count hpos hle => by simp at hle; omega, rfl⟩
  | cons key rest ih =>
    obtain ⟨hkey, hrest⟩ := not_or.mp fun hmem => h (List.mem_cons.mpr hmem)
    have htake : ∀ count, holding currentIndexes ((key :: rest).take (count + 1)) =
        holding (currentIndexes.filter fun index => index.contains key) (rest.take count) :=
      fun count => by rw [List.take_succ_cons, holding_cons]
    rw [bestIndexes, if_neg hkey]
    generalize currentIndexes.filter (fun index => index.contains key) = current at htake
    rcases ih hrest current (if current.isEmpty then best else some current) with
      ⟨count, hpos, hle, hne, hlonger, hrun⟩ | ⟨hnone, hrun⟩
    · refine .inl ⟨count + 1, by omega, by simpa using hle, by rwa [htake], ?_, by rwa [htake]⟩
      intro longer hlt hlength
      obtain ⟨n, rfl⟩ : ∃ n, longer = n + 1 := ⟨longer - 1, by omega⟩
      rw [htake]
      exact hlonger n (by omega) (by simpa using hlength)
    · have hlater : ∀ n, 0 < n → n + 1 ≤ (key :: rest).length →
          holding currentIndexes ((key :: rest).take (n + 1)) = [] := fun n hpos hle => by
        rw [htake]
        exact hnone n hpos (by simpa using hle)
      have hfirst : holding currentIndexes ((key :: rest).take 1) = current := by
        rw [htake, List.take_zero, holding_nil]
      by_cases hempty : current = []
      · refine .inr ⟨fun count hpos hle => ?_, by rw [hrun, hempty]; rfl⟩
        obtain ⟨n, rfl⟩ : ∃ n, count = n + 1 := ⟨count - 1, by omega⟩
        rcases Nat.eq_zero_or_pos n with rfl | hn
        · rw [hfirst, hempty]
        · exact hlater n hn hle
      · refine .inl ⟨1, by omega, by simp, by rwa [hfirst], fun longer hlt hle => ?_, ?_⟩
        · obtain ⟨n, rfl⟩ : ∃ n, longer = n + 1 := ⟨longer - 1, by omega⟩
          exact hlater n (by omega) hle
        · rw [hrun, hfirst, if_neg (by simpa using hempty)]

/-- The first of the shortest indexes is sorted to the front. -/
theorem head_mergeSort (indexes : List (List String)) :
    (indexes.mergeSort fun a b => a.length ≤ b.length).head? = indexes.argmin List.length := by
  have htrans : ∀ a b c : List String, decide (a.length ≤ b.length) → decide (b.length ≤ c.length) →
      decide (a.length ≤ c.length) := by
    intro a b c hab hbc
    simp only [decide_eq_true_eq] at hab hbc ⊢
    omega
  have htotal : ∀ a b : List String, decide (a.length ≤ b.length) || decide (b.length ≤ a.length) := by
    intro a b
    simp only [Bool.or_eq_true, decide_eq_true_eq]
    omega
  induction indexes with
  | nil => simp
  | cons index rest ih =>
    obtain ⟨before, after, hsorted, hrest, hbefore⟩ := List.mergeSort_cons htrans htotal index rest
    have hpairs := List.pairwise_mergeSort htrans htotal (index :: rest)
    rw [hsorted] at hpairs ⊢
    rw [hrest] at ih
    rw [List.argmin_cons, ← ih]
    cases before with
    | nil =>
      cases after with
      | nil => rfl
      | cons next after =>
        have hle := (List.pairwise_cons.mp hpairs).1 next List.mem_cons_self
        simp only [decide_eq_true_eq] at hle
        simp [Nat.not_lt.mpr hle]
    | cons first before =>
      have hlt := hbefore first List.mem_cons_self
      simp only [Bool.not_eq_true', decide_eq_false_iff_not, Nat.not_le] at hlt
      simp [hlt]

/-- What the loop and the sort make of the keys. -/
theorem findBestSecondaryIndex_eq {indexes : TableIndexes} {fields : Fields}
    (hnonempty : isEmptyObject fields = false) :
    findBestSecondaryIndex indexes fields =
      (bestIndexes indexes.partitionKey indexes.secondaryIndexes none (keysOf fields)).bind fun best =>
        (best.argmin List.length).map getIndexName := by
  rw [findBestSecondaryIndex, hnonempty, if_neg Bool.false_ne_true]
  cases bestIndexes indexes.partitionKey indexes.secondaryIndexes none (keysOf fields) with
  | none => rfl
  | some best =>
    have hhead : (if best.length > 1 then best.mergeSort fun a b => a.length ≤ b.length
        else best).head? = best.argmin List.length := by
      split
      · exact head_mergeSort best
      · rename_i hlength
        match best with
        | [] => rfl
        | [index] => rfl
        | _ :: _ :: _ => simp at hlength
    rw [Option.bind_some, ← hhead]

/-- **The index of a read** is named by its keys. -/
theorem findBestSecondaryIndex_spec (indexes : TableIndexes) (fields : Fields) :
    (∃ index, IsBest indexes fields index ∧ index ∈ indexes.secondaryIndexes ∧
      (∀ other, IsBest indexes fields other → other = index) ∧
      findBestSecondaryIndex indexes fields = some (getIndexName index)) ∨
    (∀ index, ¬ IsBest indexes fields index) ∧ findBestSecondaryIndex indexes fields = none := by
  by_cases hnonempty : isEmptyObject fields = false
  · rw [findBestSecondaryIndex_eq hnonempty]
    by_cases hmem : indexes.partitionKey ∈ keysOf fields
    · refine .inr ⟨fun index h => h.notPrimary hmem, ?_⟩
      rw [bestIndexes_of_mem hmem]
      rfl
    · rcases bestIndexes_of_not_mem hmem indexes.secondaryIndexes none with
        ⟨count, hpos, hle, hne, hlonger, hrun⟩ | ⟨hnone, hrun⟩
      · obtain ⟨index, hindex⟩ : ∃ index,
            (holding indexes.secondaryIndexes ((keysOf fields).take count)).argmin List.length =
              some index := by
          rw [← Option.isSome_iff_exists, ← Option.ne_none_iff_isSome]
          simpa using hne
        left
        refine ⟨index, ⟨hnonempty, hmem, count, hpos, hle, hlonger, hindex⟩, ?_, ?_, ?_⟩
        · exact (List.mem_filter.mp (List.argmin_mem hindex)).1
        · intro other hother
          obtain ⟨count', hpos', hle', hlonger', hother⟩ := hother.shortest
          have hother_ne : holding indexes.secondaryIndexes ((keysOf fields).take count') ≠ [] := by
            intro hnil
            rw [hnil] at hother
            cases hother
          have hcount : count' = count := by
            rcases Nat.lt_trichotomy count' count with hlt | heq | hlt
            · exact absurd (hlonger' count hlt hle) hne
            · exact heq
            · exact absurd (hlonger count' hlt hle') hother_ne
          subst hcount
          exact Option.some.inj (hother.symm.trans hindex)
        · rw [hrun, Option.bind_some, hindex]
          rfl
      · right
        refine ⟨fun index h => ?_, by rw [hrun]; rfl⟩
        obtain ⟨count, hpos, hle, -, hindex⟩ := h.shortest
        rw [hnone count hpos hle] at hindex
        cases hindex
  · refine .inr ⟨fun index h => hnonempty h.nonempty, ?_⟩
    rw [findBestSecondaryIndex, if_pos (by simpa using hnonempty)]

/-! ## What is selected -/

section
variable {deepEqual : AnySchema → AnySchema → Bool} {table : Table}
  {matches_ : String → List Value → Item → Bool}

theorem prepareSelect_spec {name : String} {schema : ObjectSchema} {index : Option String}
    {query : FindManyInput} {statement : SelectStatement} {values : List Value}
    (h : prepareSelect deepEqual name schema index query = .ok (statement, values)) :
    statement.index = index ∧ ∀ command : Command, command.statement = statement →
      command.parameters = values → ∀ item,
        command.meets matches_ item = whereSelects deepEqual schema matches_ query.where_ item := by
  rw [prepareSelect] at h
  obtain ⟨⟨text, found⟩, hwhere, h⟩ := Library.Except.bind_ok.mp h
  obtain ⟨orderFields, -, h⟩ := Library.Except.bind_ok.mp h
  obtain ⟨rfl, rfl⟩ := Prod.mk.inj (Except.ok.inj h)
  refine ⟨rfl, ?_⟩
  rintro ⟨⟩ rfl rfl item
  rw [FindManyInput.whereFields] at hwhere
  cases hquery : query.where_ with
  | none =>
    rw [hquery] at hwhere
    obtain ⟨rfl, rfl⟩ := Prod.mk.inj (Except.ok.inj hwhere)
    rfl
  | some where_ =>
    rw [hquery] at hwhere
    have hrun := Library.Except.mapError_ok.mp hwhere
    rw [Command.meets, whereSelects, hrun]
    by_cases hempty : text = ""
    · simp [nonEmpty, hempty]
    · simp [nonEmpty, hempty]

/-- The command reads through the index of the input, and meets the items that
`where` selects. -/
theorem prepare_spec {input : ReadInput} {command : Command}
    (h : input.prepare deepEqual table = .ok command) :
    command.statement.index = findBestSecondaryIndex table.indexes input.indexFields ∧
      ∀ item, command.meets matches_ item =
        whereSelects deepEqual table.schema matches_ input.where_ item := by
  have hcommand : ∃ query statement values,
      prepareSelect deepEqual table.name table.schema
        (findBestSecondaryIndex table.indexes input.indexFields) query = .ok (statement, values) ∧
      query.where_ = input.where_ ∧ command.statement = statement ∧ command.parameters = values := by
    cases input with
    | _ =>
      obtain ⟨⟨statement, values⟩, hselect, h⟩ := Library.Except.bind_ok.mp h
      obtain rfl := Except.ok.inj h
      exact ⟨_, _, _, hselect, rfl, rfl, rfl⟩
  obtain ⟨query, statement, values, hselect, hwhere, hstatement, hvalues⟩ := hcommand
  obtain ⟨hindex, hmeets⟩ := prepareSelect_spec hselect
  rw [hstatement, ← hwhere]
  exact ⟨hindex, hmeets command hstatement hvalues⟩

/-- The name of an index is that of no other index. -/
theorem find_index {indexes : List (List String)} (hnodup : (indexes.map getIndexName).Nodup)
    {index : List String} (h : index ∈ indexes) :
    indexes.find? (fun other => getIndexName other = getIndexName index) = some index := by
  induction indexes with
  | nil => cases h
  | cons first rest ih =>
    obtain ⟨hfirst, hrest⟩ := List.nodup_cons.mp hnodup
    rcases List.mem_cons.mp h with rfl | h
    · simp
    · have hne : getIndexName first ≠ getIndexName index := fun heq =>
        hfirst (heq ▸ List.mem_map_of_mem h)
      rw [List.find?_cons_of_neg (by simpa using hne)]
      exact ih hrest h

theorem mem_records_overTable {command : Command} {indexes : TableIndexes} {content : List Item}
    {item : Item} : item ∈ command.overTable.records matches_ indexes content ↔
      item ∈ content ∧ command.meets matches_ item = true := List.mem_filter

/-- **A read finds the records that `where` selects over the whole table** if and
only if each of them is in the index that the read goes through. -/
theorem findsTheSame_iff {input : ReadInput} {command : Command}
    (h : input.prepare deepEqual table = .ok command) (content : List Item) :
    command.FindsTheSame matches_ table.indexes content ↔
      ∀ index, IsBest table.indexes input.indexFields index → ∀ item ∈ content,
        whereSelects deepEqual table.schema matches_ input.where_ item = true →
          isIndexed index item = true := by
  obtain ⟨hindex, hmeets⟩ := @prepare_spec deepEqual table matches_ input command h
  rcases findBestSecondaryIndex_spec table.indexes input.indexFields with
    ⟨index, hbest, hmem, hunique, hfound⟩ | ⟨hnone, hfound⟩
  · rw [hfound] at hindex
    have hrecords : ∀ item, item ∈ command.records matches_ table.indexes content ↔
        (item ∈ content ∧ isIndexed index item = true) ∧ command.meets matches_ item = true := by
      intro item
      rw [Command.records, hindex, itemsOf,
        find_index table.indexes.names_nodup hmem, List.mem_filter, List.mem_filter]
    simp only [Command.FindsTheSame, hrecords, mem_records_overTable, hmeets]
    constructor
    · intro hsame other hother item hcontent hselected
      rw [hunique other hother]
      exact ((hsame item).mpr ⟨hcontent, hselected⟩).1.2
    · intro hall item
      refine ⟨fun ⟨⟨hcontent, _⟩, hselected⟩ => ⟨hcontent, hselected⟩, fun ⟨hcontent, hselected⟩ => ?_⟩
      exact ⟨⟨hcontent, hall index hbest item hcontent hselected⟩, hselected⟩
  · rw [hfound] at hindex
    refine iff_of_true (fun item => ?_) fun index hbest => absurd hbest (hnone index)
    rw [mem_records_overTable, Command.records, hindex, itemsOf, List.mem_filter]

end

/-! ## Samples -/

namespace Sample

/-- A table of orders by their status, and by their customer and date. -/
def orders : Table where
  name := "orders"
  schema := .mk {} none {} [("id", .string {}), ("status", .string {}), ("customer", .string {}),
    ("date", .string {})] none
  indexes := {
    partitionKey := "id"
    secondaryIndexes := [["status"], ["customer", "date"]]
    names_nodup := by decide }

/-- The orders without a status. -/
def withoutStatus : ReadInput :=
  .findMany { where_ := some [("status", .obj [("isMissing", .bool true)])] }

/-- The tests of the samples, as the database makes them. -/
def evaluate (text : String) (values : List Value) (item : Item) : Bool :=
  match text, values with
  | "\"status\" IS MISSING", [] => (find item "status").isNone
  | "\"customer\" = ?", [.str name] =>
    match find item "customer" with
    | some (.str customer) => customer = name
    | _ => false
  | _, _ => false

theorem orders_not_found : ∃ command,
    withoutStatus.prepare (fun _ _ => false) orders = .ok command ∧
      ¬ command.FindsTheSame evaluate orders.indexes [[("id", .str "a")]] := by
  refine ⟨_, rfl, fun h => ?_⟩
  have hsame := (h [("id", .str "a")]).mpr (List.mem_filter.mpr ⟨List.mem_singleton_self _, rfl⟩)
  cases hsame

/-- The orders of a customer, which all have a date. -/
def ofCustomer : ReadInput := .deleteMany { where_ := some [("customer", .str "b")] }

def dated : List Item := [[("id", .str "a"), ("customer", .str "b"), ("date", .str "c")],
  [("id", .str "d")]]

theorem dated_found : ∃ command, ofCustomer.prepare (fun _ _ => false) orders = .ok command ∧
    command.FindsTheSame evaluate orders.indexes dated := by
  obtain ⟨command, hcommand⟩ :
    ∃ command, ofCustomer.prepare (fun _ _ => false) orders = .ok command := ⟨_, rfl⟩
  refine ⟨command, hcommand, (findsTheSame_iff hcommand dated).mpr ?_⟩
  intro index hbest item hitem hselected
  obtain ⟨count, hpos, hle, -, hindex⟩ := hbest.shortest
  obtain rfl : count = 1 := Nat.le_antisymm hle hpos
  obtain rfl : ["customer", "date"] = index := Option.some.inj hindex
  simp only [dated, List.mem_cons, List.not_mem_nil, or_false] at hitem
  rcases hitem with rfl | rfl
  · rfl
  · cases hselected

end Sample

end Ez4.Dynamo

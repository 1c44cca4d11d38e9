import Ez4.PgSql.FilterMeaning

/-! # Several operators on a column

Whether the operators of a column mean their conjunction: what is built for an
object of several operators, beside what is built for the `AND` of objects of
one operator each, under the same path of columns. -/
namespace Ez4.PgSql
open Ez4.Utils Ez4.Schema
open Library Library.Lexing Library.Precedence

variable {Q W : Type}

/-! ## The two filters -/

/-- The filters under the columns of a path. -/
def under : List String → SqlFilters Q → SqlFilters Q
  | [], filters => filters
  | column :: path, filters => [(column, .object (under path filters))]

/-- The schema that the filters under a path are read with. -/
def schemaUnder (deepEqual : AnySchema → AnySchema → Bool) (schema : Option AnySchema) :
    List String → Option AnySchema
  | [] => schema
  | column :: path => schemaUnder deepEqual (columnSchema deepEqual schema column) path

/-- Whether the column at the end of a path is one of JSON. -/
def isJsonColumn (deepEqual : AnySchema → AnySchema → Bool) (schema : Option AnySchema)
    (path : List String) (column : String) : Bool :=
  ((columnSchema deepEqual (schemaUnder deepEqual schema path) column).map isNestedSchema).getD false

def groupNames : List String := ["AND", "OR", "NOT"]

/-- The names of a path: below a column, the operators and flags of it are none. -/
def IsPath : List String → Prop
  | [] => True
  | name :: deeper => name ∉ groupNames ∧
    ∀ other ∈ deeper, other ∉ groupNames ∧ other ∉ operatorNames ∧ other ∉ flagNames

instance (path : List String) : Decidable (IsPath path) :=
  match path with
  | [] => isTrue trivial
  | _ :: _ => inferInstanceAs (Decidable (_ ∧ _))

def flagEntries (fields : List (String × SqlOperand Q)) : List (String × SqlOperand Q) :=
  fields.filter fun entry => flagNames.contains entry.1

/-- One object for each operator, with the flags of the column. -/
def splitOperators (column : String) (fields : List (String × SqlOperand Q)) : List (SqlOperand Q) :=
  (operatorEntries fields).map fun entry => .object [(column, .object (entry :: flagEntries fields))]

/-- Two or more operators with defined operands. -/
structure IsOperatorSet (fields : List (String × SqlOperand Q)) : Prop where
  several : 2 ≤ (operatorEntries fields).length
  operators : ∀ entry ∈ operatorEntries fields, entry.1 ∈ operatorNames
  defined : ∀ entry ∈ operatorEntries fields, entry.2.isUndefined = false

/-- Two texts with one value, whatever their comparisons are worth. -/
def SameMeaning (text other : Text W) : Prop :=
  ∀ {L : Type} [Lattice L] [BoundedOrder L] (neg : L → L) (v : List Tree → L),
    (read (treesOf text)).eval neg v = (read (treesOf other)).eval neg v

/-- The operators of the column mean their conjunction. -/
def MeanConjunction (context : SqlOperationContext Q W) (schema : Option AnySchema)
    (path : List String) (column : String) (fields : List (String × SqlOperand Q)) : Prop :=
  Relates (buildConditions context schema (under path [(column, .object fields)]))
    (buildConditions context schema (under path [("AND", .array (splitOperators column fields))]))
    (Option.Rel fun built other => SameMeaning built.1 other.1 ∧ built.2 = other.2)

/-! ## On a plain column -/

theorem flagsOf_cons {fields : List (String × SqlOperand Q)} {entry : String × SqlOperand Q}
    (h : entry ∈ operatorEntries fields) : flagsOf (entry :: flagEntries fields) = flagsOf fields := by
  have hkey : flagNames.contains entry.1 = false := by
    simpa using (List.mem_filter.mp h).2
  have hfind : ∀ name, flagNames.contains name = true →
      find (entry :: flagEntries fields) name = find fields name := by
    intro name hname
    have hne : entry.1 ≠ name := by
      intro heq
      rw [heq, hname] at hkey
      cases hkey
    rw [find, find, List.find?_cons_of_neg (by simpa using hne), flagEntries, List.find?_filter]
    congr 2
    funext a
    refine decide_eq_decide.mpr ⟨fun ha => of_decide_eq_true ha.2, fun ha => ?_⟩
    exact ⟨ha ▸ hname, decide_eq_true ha⟩
  rw [flagsOf, flagsOf, hfind "insensitive" (by decide), hfind "count" (by decide)]

theorem operatorEntries_cons {fields : List (String × SqlOperand Q)} {entry : String × SqlOperand Q}
    (h : entry ∈ operatorEntries fields) : operatorEntries (entry :: flagEntries fields) = [entry] := by
  have hkey : (!flagNames.contains entry.1) = true := (List.mem_filter.mp h).2
  have hnone : (flagEntries fields).filter (fun entry => !flagNames.contains entry.1) = [] := by
    rw [flagEntries, List.filter_filter]
    refine List.filter_eq_nil_iff.mpr fun other _ => ?_
    simp
  rw [operatorEntries, List.filter_cons, if_pos hkey, hnone]

/-- One operator, alone on its column. -/
theorem getFieldOperation_single {context : SqlOperationContext Q W} {schema : Option AnySchema}
    {column : String} {fields : List (String × SqlOperand Q)} {entry : String × SqlOperand Q}
    (hcolumn : column ∉ groupNames) (h : operatorEntries fields = [entry])
    (hoperator : entry.1 ∈ operatorNames) (hdefined : entry.2.isUndefined = false) :
    getFieldOperation column (.object fields) schema context =
      getFinalOperation (columnOf context schema column).path (columnOf context schema column).schema
        entry.1 entry.2 { context with flags := some (flagsOf fields) } := by
  simp only [groupNames, List.mem_cons, List.not_mem_nil, or_false, not_or] at hcolumn
  rw [getFieldOperation, if_neg (by simp [hcolumn]), if_neg hcolumn.2.2]
  rw [operatorEntries] at h
  rw [h]
  dsimp only
  have hsome : Yields (getFinalOperation (columnOf context schema column).path
      (columnOf context schema column).schema entry.1 entry.2
      { context with flags := some (flagsOf fields) }) fun operation => operation.isSome = true :=
    yields_getFinalOperation (List.contains_iff_mem.mpr hoperator) hdefined
  refine (hsome.bind_congr (l := pure) fun operation hoperation => ?_).trans (bind_pure _)
  cases operation with
  | none => cases hoperation
  | some operation => rfl

/-- The items that the operators of a column are split into. -/
theorem getLogicalOperations_split {context : SqlOperationContext Q W} {schema : Option AnySchema}
    {column : String} {fields : List (String × SqlOperand Q)} (hcolumn : column ∉ groupNames)
    {entries : List (String × SqlOperand Q)} (hentries : ∀ entry ∈ entries, entry ∈ operatorEntries fields)
    (hoperators : ∀ entry ∈ entries, entry.1 ∈ operatorNames)
    (hdefined : ∀ entry ∈ entries, entry.2.isUndefined = false) :
    getLogicalOperations "AND" (entries.map fun entry =>
        .object [(column, .object (entry :: flagEntries fields))]) schema context =
      getMultipleOperations (columnOf context schema column).path
        (columnOf context schema column).schema entries
        { context with field := some column, flags := some (flagsOf fields) } := by
  induction entries with
  | nil => rfl
  | cons entry rest ih =>
    have hentry := hentries entry List.mem_cons_self
    have hsingle : getFieldOperation column (.object (entry :: flagEntries fields)) schema
        { context with field := some column } =
          getFinalOperation (columnOf context schema column).path
            (columnOf context schema column).schema entry.1 entry.2
            { context with field := some column, flags := some (flagsOf fields) } := by
      rw [getFieldOperation_single hcolumn (operatorEntries_cons hentry)
        (hoperators entry List.mem_cons_self) (hdefined entry List.mem_cons_self), flagsOf_cons hentry]
      rfl
    rw [List.map_cons, getLogicalOperations, getMultipleOperations_cons,
      ih (fun e he => hentries e (List.mem_cons_of_mem _ he))
        (fun e he => hoperators e (List.mem_cons_of_mem _ he))
        fun e he => hdefined e (List.mem_cons_of_mem _ he)]
    rw [getFilterOperations, if_neg (by simp [SqlOperand.isUndefined]), hsingle]
    simp only [getFilterOperations, bind_assoc, pure_bind, List.append_nil, if_true]

theorem getMultipleOperations_length {path : Text W} {schema : Option AnySchema}
    {entries : List (String × SqlOperand Q)} {context : SqlOperationContext Q W}
    (hoperators : ∀ entry ∈ entries, entry.1 ∈ operatorNames)
    (hdefined : ∀ entry ∈ entries, entry.2.isUndefined = false) :
    Yields (getMultipleOperations path schema entries context) fun operations =>
      operations.length = entries.length := by
  induction entries with
  | nil => exact .pure rfl
  | cons entry rest ih =>
    rw [getMultipleOperations_cons]
    have hhead : Yields (getFinalOperation path schema entry.1 entry.2 context) fun operation =>
        operation.isSome = true :=
      yields_getFinalOperation (List.contains_iff_mem.mpr (hoperators entry List.mem_cons_self))
        (hdefined entry List.mem_cons_self)
    refine hhead.bind fun operation hoperation => ?_
    refine (ih (fun e he => hoperators e (List.mem_cons_of_mem _ he))
      fun e he => hdefined e (List.mem_cons_of_mem _ he)).bind fun operations hlength => .pure ?_
    obtain ⟨operation, rfl⟩ := Option.isSome_iff_exists.mp hoperation
    simp [hlength]

/-- A group of several operations, and the same operations combined. -/
theorem groupOperations_eq_combine {operations : List (Text W)} (h : 2 ≤ operations.length) :
    groupOperations "AND" operations = combineOperations operations := by
  match operations, h with
  | operation :: next :: rest, _ => rfl

/-- On a plain column the operators are split without a change. -/
theorem getFieldOperation_split {context : SqlOperationContext Q W} {schema : Option AnySchema}
    {column : String} {fields : List (String × SqlOperand Q)} (hcolumn : column ∉ groupNames)
    (hset : IsOperatorSet fields) (hplain : (columnOf context schema column).nested = false) :
    getFieldOperation column (.object fields) schema { context with field := some column } =
      getFieldOperation "AND" (.array (splitOperators column fields)) schema
        { context with field := some "AND" } := by
  have hnames := hcolumn
  simp only [groupNames, List.mem_cons, List.not_mem_nil, or_false, not_or] at hnames
  have hlength : Yields (getMultipleOperations (columnOf context schema column).path
      (columnOf context schema column).schema (operatorEntries fields)
      { context with field := some column, flags := some (flagsOf fields) }) fun operations =>
        operations.length = (operatorEntries fields).length :=
    getMultipleOperations_length hset.operators hset.defined
  have hand : getFieldOperation "AND" (.array (splitOperators column fields)) schema
      { context with field := some "AND" } = (do
        return groupOperations "AND" (← getMultipleOperations (columnOf context schema column).path
          (columnOf context schema column).schema (operatorEntries fields)
          { context with field := some column, flags := some (flagsOf fields) })) := by
    rw [getFieldOperation, if_pos (by decide), splitOperators,
      getLogicalOperations_split hcolumn (fun _ he => he) hset.operators hset.defined]
    rfl
  have hseveral := hset.several
  rw [hand, getFieldOperation, if_neg (by simp [hnames]), if_neg hnames.2.2]
  rcases hentries : operatorEntries fields with - | ⟨entry, - | ⟨next, rest⟩⟩
  · simp [hentries] at hseveral
  · simp [hentries] at hseveral
  · rw [hentries] at hlength hseveral
    rw [operatorEntries] at hentries
    rw [hentries]
    dsimp only
    have hcolumnOf : columnOf { context with field := some column } schema column =
        columnOf context schema column := rfl
    rw [hcolumnOf, hplain, Bool.not_false, if_pos rfl]
    refine hlength.bind_congr fun operations hoperations => ?_
    rw [groupOperations_eq_combine (by omega)]

/-! ### Under a path -/

/-- The only key of the filters under a path that goes on. -/
theorem under_single {path : List String} {name : String} {value : SqlOperand Q}
    (h : ∀ other ∈ path ++ [name], other ∉ operatorNames ∧ other ∉ flagNames) :
    ∃ key operand, under path [(name, value)] = [(key, operand)] ∧ key ∉ operatorNames ∧
      key ∉ flagNames := by
  cases path with
  | nil => exact ⟨name, value, rfl, h name (by simp)⟩
  | cons key rest => exact ⟨key, _, rfl, h key (by simp)⟩

/-- One key of a column that is no operator is read under the path of the column. -/
theorem getFieldOperation_under {context : SqlOperationContext Q W} {schema : Option AnySchema}
    {column : String} (hcolumn : column ∉ groupNames) {key : String} {operand : SqlOperand Q}
    (hkey : key ∉ operatorNames) (hflag : key ∉ flagNames) :
    getFieldOperation column (.object [(key, operand)]) schema context = (do
      return combineOperations (← getFilterOperations flagNames [(key, operand)]
        (columnSchema context.runtime.deepEqual schema column)
        { context with flags := some {}, path := some (columnOf context schema column).path })) := by
  simp only [groupNames, List.mem_cons, List.not_mem_nil, or_false, not_or] at hcolumn
  have hentries : [(key, operand)].filter (fun entry => !flagNames.contains entry.1) =
      [(key, operand)] := by
    rw [List.filter_cons, if_pos (by simpa using hflag), List.filter_nil]
  rw [getFieldOperation, if_neg (by simp [hcolumn]), if_neg hcolumn.2.2, hentries]
  have hflags : flagsOf [(key, operand)] = {} := by
    simp only [flagNames, List.mem_cons, List.not_mem_nil, or_false, not_or] at hflag
    simp [flagsOf, find, hflag]
  dsimp only
  rw [getFinalOperation_of_not_mem hkey, pure_bind, hflags]
  rfl

/-- Filters of one field. -/
theorem getFilterOperations_single {omitted : List String} {field : String} {value : SqlOperand Q}
    {schema : Option AnySchema} {context : SqlOperationContext Q W}
    (hfield : omitted.contains field = false) (hvalue : value.isUndefined = false) :
    getFilterOperations omitted [(field, value)] schema context = (do
      let operation ← getFieldOperation field value schema { context with field := some field }
      return operation.toList) := by
  rw [getFilterOperations, hfield, hvalue, Bool.or_self, if_neg Bool.false_ne_true]
  simp only [getFilterOperations, pure_bind, List.append_nil]

theorem getFilterOperations_split {column : String} {fields : List (String × SqlOperand Q)}
    (hset : IsOperatorSet fields) {path : List String} {omitted : List String}
    {schema : Option AnySchema} {context : SqlOperationContext Q W}
    (hpath : IsPath (path ++ [column])) (homitted : ∀ name ∈ omitted, name ∈ flagNames)
    (hhead : ∀ name ∈ (path ++ [column]).head?, omitted.contains name = false)
    (hplain : isJsonColumn context.runtime.deepEqual schema path column = false) :
    getFilterOperations omitted (under path [(column, .object fields)]) schema context =
      getFilterOperations omitted (under path [("AND", .array (splitOperators column fields))])
        schema context := by
  have hand : ∀ omitted : List String, (∀ name ∈ omitted, name ∈ flagNames) →
      omitted.contains "AND" = false := by
    intro omitted homitted
    refine Bool.eq_false_iff.mpr fun h => ?_
    exact absurd (homitted _ (List.contains_iff_mem.mp h)) (by decide)
  induction path generalizing omitted schema context with
  | nil =>
    have hcolumn : (columnOf context schema column).nested = false := hplain
    rw [under, under, getFilterOperations_single (hhead column rfl) rfl,
      getFilterOperations_single (hand omitted homitted) rfl, getFieldOperation_split hpath.1 hset hcolumn]
  | cons name rest ih =>
    obtain ⟨hname, hdeeper⟩ := hpath
    obtain ⟨key, operand, hunder, hkey, hflag⟩ := @under_single Q rest column (.object fields)
      fun other ho => (hdeeper other ho).2
    obtain ⟨key', operand', hunder', hkey', hflag'⟩ := @under_single Q rest "AND"
      (.array (splitOperators column fields)) fun other ho => by
        rcases List.mem_append.mp ho with ho | ho
        · exact (hdeeper other (List.mem_append_left _ ho)).2
        · rw [List.mem_singleton.mp ho]
          decide
    have hrest : IsPath (rest ++ [column]) := by
      cases rest with
      | nil => exact ⟨(hdeeper column (by simp)).1, by simp⟩
      | cons next deeper =>
        exact ⟨(hdeeper next (by simp)).1, fun other ho => hdeeper other (List.mem_cons_of_mem _ ho)⟩
    let inner : SqlOperationContext Q W := { context with field := some name }
    have hnested := @ih flagNames (columnSchema inner.runtime.deepEqual schema name)
      { inner with flags := some {}, path := some (columnOf inner schema name).path } hrest
      (fun _ h => h) (fun other ho => by
        have hflag := (hdeeper other (List.mem_of_mem_head? ho)).2.2
        simpa using hflag) hplain
    have hfield : getFieldOperation name (.object (under rest [(column, .object fields)])) schema inner =
        getFieldOperation name (.object (under rest [("AND", .array (splitOperators column fields))]))
          schema inner := by
      rw [hunder, hunder', getFieldOperation_under hname hkey hflag,
        getFieldOperation_under hname hkey' hflag', ← hunder, ← hunder', hnested]
    rw [under, under, getFilterOperations_single (hhead name rfl) rfl,
      getFilterOperations_single (hhead name rfl) rfl, hfield]

/-- **On a plain column several operators mean their conjunction**: the same is
built. -/
theorem buildConditions_split {context : SqlOperationContext Q W} {schema : Option AnySchema}
    {path : List String} {column : String} {fields : List (String × SqlOperand Q)}
    (hset : IsOperatorSet fields) (hpath : IsPath (path ++ [column]))
    (hplain : isJsonColumn context.runtime.deepEqual schema path column = false) :
    buildConditions context schema (under path [(column, .object fields)]) =
      buildConditions context schema (under path [("AND", .array (splitOperators column fields))]) := by
  rw [buildConditions, buildConditions,
    getFilterOperations_split hset hpath (by simp) (fun _ _ => rfl) hplain]

theorem meanConjunction_of_plain (runtime : Runtime Q W) (options : SqlBuilderOptions Q W)
    (references : Bool) (alias? : Option String) (schema : Option AnySchema) (path : List String)
    (column : String) (fields : List (String × SqlOperand Q)) (hset : IsOperatorSet fields)
    (hpath : IsPath (path ++ [column]))
    (hplain : isJsonColumn runtime.deepEqual schema path column = false) :
    MeanConjunction { runtime, options, references, alias? } schema path column fields := by
  rw [MeanConjunction, buildConditions_split hset hpath hplain]
  refine Relates.refl fun built => ?_
  cases built with
  | none => exact .none
  | some built => exact .some ⟨fun _ _ => rfl, rfl⟩

namespace Sample

/-- A range of a field of a column of which nothing is known. -/
def range : List (String × SqlOperand Empty) :=
  [("gte", one), ("insensitive", .boolean true), ("lt", one)]

theorem range_meanConjunction :
    MeanConjunction ({ runtime } : SqlOperationContext Empty Unit) none ["foo"] "bar" range :=
  meanConjunction_of_plain runtime {} true none none ["foo"] "bar" range
    ⟨by decide, by decide, by decide⟩ (by decide) (by decide)

/-- How many variables a run came to. -/
def variableCount {σ ε : Type} : Except ε (Option (Text Unit × List Unit) × σ) → Option Nat
  | .ok (some (_, values), _) => some values.length
  | _ => none

theorem variableCount_eq {σ ε : Type} {R : Text Unit → Text Unit → Prop}
    {x y : Except ε (Option (Text Unit × List Unit) × σ)}
    (h : Alike (Option.Rel fun built other => R built.1 other.1 ∧ built.2 = other.2) x y) :
    variableCount x = variableCount y := by
  cases h with
  | ok h =>
    cases h with
    | none => rfl
    | some h => exact congrArg (fun values : List Unit => some values.length) h.2
  | error e => rfl

def listSchema : AnySchema :=
  .object (.mk {} none {} [("tags", .array {} {} (.string {}))] none)

/-- On a column with a list the operators are read as fields. -/
theorem list_operators_split :
    ¬ MeanConjunction ({ runtime } : SqlOperationContext Empty Unit) (some listSchema) [] "tags"
      [("contains", .array [one]), ("isNull", .boolean false)] := by
  intro h
  have hcount := variableCount_eq (h {})
  revert hcount
  decide

end Sample

end Ez4.PgSql

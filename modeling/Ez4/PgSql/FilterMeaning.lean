import Ez4.PgSql.Meaning

/-! # What filters mean

The formula of a tree of filters: the conjunction of the fields of an object, of
the items of `AND` and of the operators and fields of a column, the disjunction
of the items of `OR`, and the negation of what stands under `NOT`. The formula
goes through the filters as the builder does, so that its atoms carry the same
placeholders. -/
namespace Ez4.PgSql
open Ez4.Utils Ez4.Schema
open Library Library.Lexing Library.Precedence

variable {Q W : Type}

/-! ## The formula of the filters -/

abbrev Condition := Formula (List Tree)

/-- A group without conditions is none. -/
def conjoin : List Condition → Option Condition
  | [] => none
  | formulas => some (.conj formulas)

def disjoin : List Condition → Option Condition
  | [] => none
  | formulas => some (.disj formulas)

/-- The keys of a column but for its flags. -/
def operatorEntries (fields : List (String × SqlOperand Q)) : List (String × SqlOperand Q) :=
  fields.filter fun entry => !flagNames.contains entry.1

/-- The fields of a column are read under its path, as they would be alone: the
flags go with the only one. -/
def fieldsContext (context : SqlOperationContext Q W) (fields : List (String × SqlOperand Q))
    (column : Column W) : SqlOperationContext Q W :=
  let flags := if (operatorEntries fields).length = 1 then some (flagsOf fields) else context.flags
  { context with flags, path := some column.path }

mutual

def filterFormulas (filters : List (String × SqlOperand Q)) (schema : Option AnySchema)
    (context : SqlOperationContext Q W) : Build W (List Condition) := do
  match filters with
  | [] => return []
  | (field, value) :: rest =>
    if value.isUndefined then filterFormulas rest schema context
    else
      let formula ← fieldFormula field value schema { context with field := some field }
      let formulas ← filterFormulas rest schema context
      return formula.toList ++ formulas

def fieldFormula (field : String) (value : SqlOperand Q) (schema : Option AnySchema)
    (context : SqlOperationContext Q W) : Build W (Option Condition) := do
  let column := columnOf context schema field
  match value with
  | .array items =>
    if field = "AND" then return conjoin (← itemFormulas items schema context)
    else if field = "OR" then return disjoin (← itemFormulas items schema context)
    else if field = "NOT" then throw (.invalidOperand none)
    else return some (atomOf (← getEqualOperation context column.path column.schema value))
  | .object fields =>
    if field = "AND" || field = "OR" then throw (.invalidOperand none)
    else if field = "NOT" then
      return (conjoin (← filterFormulas fields schema context)).map .neg
    else if (operatorEntries fields).isEmpty then throw (.missingOperator column.name)
    else
      return conjoin (← columnFormulas fields column { context with flags := some (flagsOf fields) }
        (fieldsContext context fields column))
  | _ =>
    if field = "AND" || field = "OR" then throw (.invalidOperand none)
    else if field = "NOT" then
      if value.isAnyObject then return none else throw (.invalidOperand none)
    else match value with
      | .null => return some (atomOf (getIsNullOperation column.path (.boolean true : SqlOperand Q)))
      | .select statement => return some (atomOf (← getExistsOperation context statement))
      | .instance_ _ | .condition _ _ => throw (.missingOperator column.name)
      | _ => return some (atomOf (← getEqualOperation context column.path column.schema value))

/-- The operators of a column, and its fields. -/
def columnFormulas (entries : List (String × SqlOperand Q)) (column : Column W)
    (context inner : SqlOperationContext Q W) : Build W (List Condition) := do
  match entries with
  | [] => return []
  | (key, value) :: rest =>
    if flagNames.contains key || value.isUndefined then columnFormulas rest column context inner
    else if operatorNames.contains key then
      let formula ← operatorFormula context column.path column.schema key value
      let formulas ← columnFormulas rest column context inner
      return formula.toList ++ formulas
    else
      let formula ← fieldFormula key value column.schema { inner with field := some key }
      let formulas ← columnFormulas rest column context inner
      return formula.toList ++ formulas

/-- The items of a group. A raw condition means what it reads as by itself. -/
def itemFormulas (items : List (SqlOperand Q)) (schema : Option AnySchema)
    (context : SqlOperationContext Q W) : Build W (List Condition) := do
  match items with
  | [] => return []
  | .condition parts last :: rest =>
    let body ← conditionBody context parts last
    return read (treesOf body) :: (← itemFormulas rest schema context)
  | .object filters :: rest =>
    let formulas ← filterFormulas filters schema context
    let others ← itemFormulas rest schema context
    return (conjoin formulas).toList ++ others
  | _ :: rest => itemFormulas rest schema context

end

/-- The formula of all filters, and the variables of its atoms. -/
def filtersFormula (context : SqlOperationContext Q W) (schema : Option AnySchema)
    (filters : SqlFilters Q) : Build W (Option (Condition × List W)) := do
  let (formulas, values) ← withVariables (filterFormulas filters schema context)
  return (conjoin formulas).map fun formula => (formula, values)

/-! ## Filters without raw SQL -/

/-- A text whose quotes and parentheses close. -/
def Balanced (text : Text W) : Prop := Reads text (treesOf text)

theorem Balanced.of_reads {text : Text W} {ts : List Tree} (h : Reads text ts) : Balanced text := by
  rw [Balanced, h.treesOf_eq]
  exact h

mutual

/-- No operand is raw SQL; what is left to the caller and to nested statements
closes its quotes and parentheses. -/
def ReadableFilters (runtime : Runtime Q W) (filters : List (String × SqlOperand Q)) : Prop :=
  match filters with
  | [] => True
  | (_, value) :: rest => ReadableValue runtime value ∧ ReadableFilters runtime rest

def ReadableValue (runtime : Runtime Q W) (value : SqlOperand Q) : Prop :=
  match value with
  | .array items => ReadableItems runtime items
  | .object fields => ReadableFilters runtime fields
  | .select statement => Yields (runtime.build statement) fun built => Balanced built.1
  | .condition parts last =>
    ∀ context : SqlOperationContext Q W, Yields (conditionBody context parts last) Balanced
  | _ => value.isRaw = false

def ReadableItems (runtime : Runtime Q W) (items : List (SqlOperand Q)) : Prop :=
  match items with
  | [] => True
  | value :: rest => ReadableValue runtime value ∧ ReadableItems runtime rest

end

/-! ## Columns of one kind -/

/-- A column has one key, or only operators, or only fields when it is one of
JSON. -/
def OneKind (fields : List (String × SqlOperand Q)) (nested : Bool) : Prop :=
  (operatorEntries fields).length ≤ 1 ∨ ∀ entry ∈ operatorEntries fields,
    entry.2.isUndefined = false → operatorNames.contains entry.1 = !nested

instance (fields : List (String × SqlOperand Q)) (nested : Bool) : Decidable (OneKind fields nested) :=
  inferInstanceAs (Decidable (_ ∨ _))

section
variable (deepEqual : AnySchema → AnySchema → Bool)

def columnSchema (schema : Option AnySchema) (field : String) : Option AnySchema :=
  schema.bind fun schema => getSchemaProperty deepEqual schema field

mutual

/-- Whether each column of the filters is of one kind. -/
def filtersOfOneKind (filters : List (String × SqlOperand Q)) (schema : Option AnySchema) : Bool :=
  match filters with
  | [] => true
  | (field, value) :: rest => fieldOfOneKind field value schema && filtersOfOneKind rest schema

def fieldOfOneKind (field : String) (value : SqlOperand Q) (schema : Option AnySchema) : Bool :=
  match value with
  | .array items => (field != "AND" && field != "OR") || itemsOfOneKind items schema
  | .object fields =>
    if field = "NOT" then filtersOfOneKind fields schema
    else if field = "AND" || field = "OR" then true
    else
      decide (OneKind fields
        (((columnSchema deepEqual schema field).map isNestedSchema).getD false)) &&
        columnOfOneKind fields (columnSchema deepEqual schema field)
  | _ => true

def columnOfOneKind (entries : List (String × SqlOperand Q)) (schema : Option AnySchema) : Bool :=
  match entries with
  | [] => true
  | (key, value) :: rest =>
    (flagNames.contains key || operatorNames.contains key || fieldOfOneKind key value schema) &&
      columnOfOneKind rest schema

def itemsOfOneKind (items : List (SqlOperand Q)) (schema : Option AnySchema) : Bool :=
  match items with
  | [] => true
  | .object filters :: rest => filtersOfOneKind filters schema && itemsOfOneKind rest schema
  | _ :: rest => itemsOfOneKind rest schema

end

end

/-! ## The builder writes the formula -/

theorem ReadableValue.not_raw {runtime : Runtime Q W} {value : SqlOperand Q}
    (h : ReadableValue runtime value) : value.isRaw = false := by
  cases value <;> first | rfl | exact h

theorem ReadableFilters.of_mem {runtime : Runtime Q W} {filters : List (String × SqlOperand Q)}
    (h : ReadableFilters runtime filters) {field : String} {value : SqlOperand Q}
    (hmem : (field, value) ∈ filters) : ReadableValue runtime value := by
  induction filters with
  | nil => cases hmem
  | cons filter rest ih =>
    rcases List.mem_cons.mp hmem with rfl | hmem
    · exact h.1
    · exact ih h.2 hmem

theorem ReadableItems.not_raw {runtime : Runtime Q W} {items : List (SqlOperand Q)}
    (h : ReadableItems runtime items) : ∀ item ∈ items, item.isRaw = false := by
  induction items with
  | nil => simp
  | cons item rest ih => exact List.forall_mem_cons.mpr ⟨h.1.not_raw, ih h.2⟩

theorem ReadableValue.items {runtime : Runtime Q W} {value : SqlOperand Q}
    (h : ReadableValue runtime value) {items : List (SqlOperand Q)} (heq : value = .array items) :
    ∀ item ∈ items, item.isRaw = false := by
  subst heq
  exact ReadableItems.not_raw h

/-- The operations of a group with what its formulas come to. -/
structure GroupMeans (operations : List (Text W)) (formulas : List Condition) : Prop where
  empty : operations = [] ↔ formulas = []
  means : ∃ members, MeanAll operations members ∧
    ∀ {L : Type} [Lattice L] [BoundedOrder L] (neg : L → L) (v : List Tree → L),
      evalAll neg v members = evalAll neg v formulas

theorem MeanAll.combine {operations : List (Text W)} {formulas : List Condition}
    (h : MeanAll operations formulas) :
    Option.Rel Means (combineOperations operations) (conjoin formulas) := by
  cases h with
  | nil => exact .none
  | @cons operation formula operations formulas hhead htail =>
    cases htail with
    | nil => exact .some hhead.conj_singleton
    | cons hnext htail => exact .some (Means.all (.cons hhead (.cons hnext htail)) (by simp))

theorem MeanAll.cons_option {operation : Option (Text W)} {formula : Option Condition}
    {operations : List (Text W)} {formulas : List Condition}
    (hhead : Option.Rel Means operation formula) (h : MeanAll operations formulas) :
    MeanAll (operation.toList ++ operations) (formula.toList ++ formulas) := by
  cases hhead with
  | none => exact h
  | some hhead => exact .cons hhead h

theorem getMultipleOperations_cons (column : Text W) (schema : Option AnySchema)
    (entry : String × SqlOperand Q) (rest : List (String × SqlOperand Q))
    (context : SqlOperationContext Q W) :
    getMultipleOperations column schema (entry :: rest) context = (do
      let operation ← getFinalOperation column schema entry.1 entry.2 context
      let operations ← getMultipleOperations column schema rest context
      return operation.toList ++ operations) := by
  have hreduce : ∀ (operation : Option (Text W)) operations,
      List.reduceOption (operation :: operations) = operation.toList ++ operations.reduceOption := by
    intro operation operations
    cases operation <;> rfl
  simp only [getMultipleOperations, List.mapM_cons, bind_assoc, pure_bind, hreduce]

section
variable {context : SqlOperationContext Q W} {column : Column W}

/-- What is undefined is no operator. -/
theorem getFinalOperation_undefined {path : Text W} {schema : Option AnySchema} {operator : String}
    {operand : SqlOperand Q} (h : operand.isUndefined = true) :
    getFinalOperation path schema operator operand context = pure none := if_pos h

/-- Operators, each on its own. -/
theorem relates_operators {inner : SqlOperationContext Q W} {entries : List (String × SqlOperand Q)}
    (hcolumn : Term column.path) (hpath : ∀ path ∈ context.path, Term path)
    (hread : ReadableFilters context.runtime entries)
    (hoperators : ∀ entry ∈ operatorEntries entries, entry.2.isUndefined = false →
      operatorNames.contains entry.1 = true) :
    Relates (getMultipleOperations column.path column.schema (operatorEntries entries) context)
      (columnFormulas entries column context inner) MeanAll := by
  induction entries with
  | nil => exact .pure .nil
  | cons entry rest ih =>
    obtain ⟨key, value⟩ := entry
    obtain ⟨hvalue, hrest⟩ := hread
    rw [columnFormulas]
    by_cases hflag : flagNames.contains key = true
    · have hentries : operatorEntries ((key, value) :: rest) = operatorEntries rest :=
        List.filter_cons_of_neg (by simpa using hflag)
      rw [hentries] at hoperators ⊢
      rw [if_pos (by rw [hflag, Bool.true_or])]
      exact ih hrest hoperators
    · have hentries : operatorEntries ((key, value) :: rest) = (key, value) :: operatorEntries rest :=
        List.filter_cons_of_pos (by simpa using hflag)
      rw [hentries] at hoperators ⊢
      have ih := ih hrest fun entry he => hoperators entry (List.mem_cons_of_mem _ he)
      rw [getMultipleOperations_cons]
      by_cases hundefined : value.isUndefined = true
      · rw [getFinalOperation_undefined hundefined, pure_bind, if_pos (by rw [hundefined, Bool.or_true])]
        exact ih.map_left fun _ _ hops => hops
      · have hoperator := hoperators _ List.mem_cons_self (Bool.eq_false_iff.mpr hundefined)
        rw [if_neg (by rw [Bool.or_eq_true]; exact not_or.mpr ⟨hflag, hundefined⟩), if_pos hoperator]
        have hhead : Relates (getFinalOperation column.path column.schema key value context)
            (operatorFormula context column.path column.schema key value) (Option.Rel Means) :=
          relates_operator hcolumn hpath hvalue.not_raw (fun operands heq => hvalue.items heq) key
        exact hhead.bind fun _ _ hop => ih.bind fun _ _ hops => .pure (.cons_option hop hops)

end

theorem columnFormulas_nil {context inner : SqlOperationContext Q W} {column : Column W}
    {entries : List (String × SqlOperand Q)} (h : operatorEntries entries = []) :
    columnFormulas entries column context inner = pure [] := by
  induction entries with
  | nil => rfl
  | cons entry rest ih =>
    obtain ⟨key, value⟩ := entry
    have hflag : flagNames.contains key = true := by
      by_contra hflag
      rw [operatorEntries, List.filter_cons_of_pos (by simpa using hflag)] at h
      cases h
    rw [operatorEntries, List.filter_cons_of_neg (by simpa using hflag)] at h
    rw [columnFormulas, if_pos (by rw [hflag, Bool.true_or])]
    exact ih h

/-- The only operator of a column. -/
theorem columnFormulas_single {context inner : SqlOperationContext Q W} {column : Column W}
    {entries : List (String × SqlOperand Q)} {operator : String} {operand : SqlOperand Q}
    (h : operatorEntries entries = [(operator, operand)])
    (hoperator : operatorNames.contains operator = true) (hdefined : operand.isUndefined = false) :
    columnFormulas entries column context inner = (do
      let formula ← operatorFormula context column.path column.schema operator operand
      return formula.toList) := by
  induction entries with
  | nil => cases h
  | cons entry rest ih =>
    obtain ⟨key, value⟩ := entry
    rw [columnFormulas]
    by_cases hflag : flagNames.contains key = true
    · rw [operatorEntries, List.filter_cons_of_neg (by simpa using hflag)] at h
      rw [if_pos (by rw [hflag, Bool.true_or])]
      exact ih h
    · rw [operatorEntries, List.filter_cons_of_pos (by simpa using hflag), List.cons.injEq,
        Prod.mk.injEq] at h
      obtain ⟨⟨rfl, rfl⟩, hrest⟩ := h
      rw [if_neg (by rw [hdefined, Bool.or_false]; exact hflag), if_pos hoperator,
        columnFormulas_nil hrest]
      simp only [pure_bind, List.append_nil]

/-- An operator writes an operation. -/
theorem yields_getFinalOperation {path : Text W} {schema : Option AnySchema} {operator : String}
    {operand : SqlOperand Q} {context : SqlOperationContext Q W}
    (hoperator : operatorNames.contains operator = true) (hdefined : operand.isUndefined = false) :
    Yields (getFinalOperation path schema operator operand context) fun text? =>
      text?.isSome = true := by
  have hmap : ∀ m : Build W (Text W), Yields (some <$> m) fun text? => text?.isSome = true :=
    fun m => (Yields.any m).map fun _ _ => rfl
  unfold getFinalOperation
  rw [if_neg (by rw [hdefined]; exact Bool.false_ne_true)]
  split <;> first | exact .pure rfl | exact hmap _ | skip
  simp_all [operatorNames]

/-! ### Groups -/

theorem GroupMeans.nil : GroupMeans ([] : List (Text W)) [] := ⟨by simp, [], .nil, fun _ _ => rfl⟩

/-- The fields of an item go into the group one by one. -/
theorem GroupMeans.fields {operations others : List (Text W)} {formulas otherFormulas : List Condition}
    (h : MeanAll operations formulas) (hothers : GroupMeans others otherFormulas) :
    GroupMeans (operations ++ others) ((conjoin formulas).toList ++ otherFormulas) := by
  obtain ⟨hempty, members, hmembers, heval⟩ := hothers
  refine ⟨?_, formulas ++ members, List.rel_append h hmembers, fun neg v => ?_⟩
  · cases h with
    | nil => exact hempty
    | cons => simp [conjoin]
  · rw [evalAll_append, heval]
    cases formulas with
    | nil => simp [conjoin, evalAll]
    | cons formula formulas => rfl

theorem GroupMeans.single {operation : Text W} {formula : Condition} {others : List (Text W)}
    {otherFormulas : List Condition} (h : Means operation formula)
    (hothers : GroupMeans others otherFormulas) :
    GroupMeans (operation :: others) (formula :: otherFormulas) := by
  obtain ⟨-, members, hmembers, heval⟩ := hothers
  refine ⟨by simp, formula :: members, .cons h hmembers, fun neg v => ?_⟩
  rw [evalAll, evalAll, heval]

theorem GroupMeans.group {operations : List (Text W)} {formulas : List Condition}
    (h : GroupMeans operations formulas) :
    Option.Rel Means (groupOperations "AND" operations) (conjoin formulas) := by
  obtain ⟨hempty, members, hmembers, heval⟩ := h
  cases hoperations : operations with
  | nil =>
    rw [hempty.mp hoperations]
    exact .none
  | cons operation rest =>
    rw [hoperations] at hempty hmembers
    obtain ⟨formula, formulas, rfl⟩ := List.exists_cons_of_ne_nil fun hnil =>
      absurd (hempty.mpr hnil) (by simp)
    refine .some ((Means.all hmembers (by simp)).congr fun neg v => ?_)
    rw [Formula.eval, Formula.eval, heval]

theorem MeanAll.disjunction {operations : List (Text W)} {formulas : List Condition}
    (h : MeanAll operations formulas) :
    Option.Rel Means (groupOperations "OR" operations) (disjoin formulas) := by
  cases h with
  | nil => exact .none
  | cons hhead htail => exact .some (Means.any (.cons hhead htail) (by simp))

/-- A raw condition in its parentheses. -/
theorem means_body {body : Text W} (h : Balanced body) :
    Means (sql "(" ++ body ++ sql ")") (read (treesOf body)) :=
  .grouped h fun _ _ => .of_read (treesOf body)

/-! ### Fields -/

section
variable {context : SqlOperationContext Q W}

theorem relates_equal {column : Text W} {schema : Option AnySchema} {value : SqlOperand Q}
    (hcolumn : Term column) (hvalue : value.isRaw = false) :
    Relates (do return some (← getEqualOperation context column schema value))
      (do return some (atomOf (← getEqualOperation context column schema value)))
      (Option.Rel Means) := by
  have hequal : Yields (getEqualOperation context column schema value) IsComparison :=
    yields_getEqualityOperation hcolumn hvalue (.of_symbols ['='] (by decide)) true
  refine (Relates.of_yields hequal).bind fun text text' hboth => .pure ?_
  obtain ⟨rfl, htext⟩ := hboth
  exact .some htext

theorem relates_exists {statement : Q}
    (h : Yields (context.runtime.build statement) fun built => Balanced built.1) :
    Relates (do return some (← getExistsOperation context statement))
      (do return some (atomOf (← getExistsOperation context statement))) (Option.Rel Means) := by
  have hexists : Yields (getExistsOperation context statement) IsComparison :=
    h.bind fun built hbuilt => .after fun _ => .pure (means_exists hbuilt)
  refine (Relates.of_yields hexists).bind fun text text' hboth => .pure ?_
  obtain ⟨rfl, htext⟩ := hboth
  exact .some htext

/-- What is no array and no object of operators. -/
theorem relates_single {field : String} {value : SqlOperand Q} {schema : Option AnySchema}
    (hpath : ∀ path ∈ context.path, Term path) (hvalue : ReadableValue context.runtime value)
    (harray : ∀ items, value ≠ .array items) (hobject : ∀ fields, value ≠ .object fields) :
    Relates (getFieldOperation field value schema context) (fieldFormula field value schema context)
      (Option.Rel Means) := by
  have hcolumn : Term (columnOf context schema field).path := term_columnOf context schema field hpath
  have hraw := hvalue.not_raw
  have hgroup : ∀ {m n : Build W _}, Relates m n (Option.Rel Means) →
      Relates (if (field = "AND" || field = "OR") = true then throw (.invalidOperand none)
        else if field = "NOT" then
          if value.isAnyObject = true then pure none else throw (.invalidOperand none) else m)
        (if (field = "AND" || field = "OR") = true then throw (.invalidOperand none)
        else if field = "NOT" then
          if value.isAnyObject = true then pure none else throw (.invalidOperand none) else n)
        (Option.Rel (Means (W := W))) := by
    intro m n h
    split
    · exact .throw _
    · split
      · split
        · exact .pure .none
        · exact .throw _
      · exact h
  cases value with
  | array items => exact absurd rfl (harray items)
  | object fields => exact absurd rfl (hobject fields)
  | null => exact hgroup (.pure (.some (means_isNull hcolumn _)))
  | select statement => exact hgroup (relates_exists hvalue)
  | instance_ name => exact hgroup (.throw _)
  | condition parts last => exact hgroup (.throw _)
  | undefined => exact hgroup (relates_equal hcolumn hraw)
  | boolean value => exact hgroup (relates_equal hcolumn hraw)
  | number value => exact hgroup (relates_equal hcolumn hraw)
  | string value => exact hgroup (relates_equal hcolumn hraw)
  | raw text => exact hgroup (relates_equal hcolumn hraw)
  | reference source => exact hgroup (relates_equal hcolumn hraw)

end

/-! ### Trees -/

mutual

theorem relates_filters (filters : List (String × SqlOperand Q)) (schema : Option AnySchema)
    (context : SqlOperationContext Q W) (hpath : ∀ path ∈ context.path, Term path)
    (hread : ReadableFilters context.runtime filters)
    (hkind : filtersOfOneKind context.runtime.deepEqual filters schema = true) :
    Relates (getFilterOperations [] filters schema context) (filterFormulas filters schema context)
      MeanAll := by
  match filters with
  | [] => exact .pure .nil
  | (field, value) :: rest =>
    obtain ⟨hvalue, hrest⟩ := hread
    obtain ⟨hfield, hkind⟩ := Bool.and_eq_true_iff.mp hkind
    have hothers := relates_filters rest schema context hpath hrest hkind
    rw [getFilterOperations, filterFormulas]
    by_cases hundefined : value.isUndefined = true
    · rw [if_pos (by rw [hundefined, Bool.or_true]), if_pos hundefined]
      exact hothers
    · rw [if_neg (by simpa using hundefined), if_neg hundefined]
      have hhead := relates_field field value schema { context with field := some field } hpath hvalue
        hfield
      exact hhead.bind fun _ _ hop => hothers.bind fun _ _ hops => .pure (.cons_option hop hops)

theorem relates_field (field : String) (value : SqlOperand Q) (schema : Option AnySchema)
    (context : SqlOperationContext Q W) (hpath : ∀ path ∈ context.path, Term path)
    (hread : ReadableValue context.runtime value)
    (hkind : fieldOfOneKind context.runtime.deepEqual field value schema = true) :
    Relates (getFieldOperation field value schema context) (fieldFormula field value schema context)
      (Option.Rel Means) := by
  have hcolumn : Term (columnOf context schema field).path := term_columnOf context schema field hpath
  match value with
  | .array items =>
    rw [getFieldOperation, fieldFormula]
    by_cases hand : field = "AND"
    · subst hand
      have hitems := relates_conjuncts items schema context hpath hread hkind
      exact hitems.bind fun _ _ hops => .pure hops.group
    · by_cases hor : field = "OR"
      · subst hor
        have hitems := relates_disjuncts items schema context hpath hread hkind
        exact hitems.bind fun _ _ hops => .pure hops.disjunction
      · rw [if_neg (by simp [hand, hor]), if_neg hand, if_neg hor]
        by_cases hnot : field = "NOT"
        · rw [if_pos hnot, if_pos hnot]
          exact .throw _
        · rw [if_neg hnot, if_neg hnot]
          exact relates_equal hcolumn rfl
  | .object fields =>
    rw [getFieldOperation, fieldFormula]
    by_cases hgroup : (field = "AND" || field = "OR") = true
    · rw [if_pos hgroup, if_pos hgroup]
      exact .throw _
    · rw [if_neg hgroup, if_neg hgroup]
      by_cases hnot : field = "NOT"
      · rw [if_pos hnot, if_pos hnot]
        rw [fieldOfOneKind, if_pos hnot] at hkind
        refine (relates_filters fields schema context hpath hread hkind).bind fun _ _ hops => ?_
        have hcombined := hops.combine
        generalize combineOperations _ = operation at hcombined ⊢
        generalize conjoin _ = formula at hcombined ⊢
        cases hcombined with
        | none => exact .pure .none
        | some hmeans => exact .pure (.some hmeans.negated)
      · rw [if_neg hnot, if_neg hnot]
        rw [fieldOfOneKind, if_neg hnot, if_neg hgroup, Bool.and_eq_true, decide_eq_true_eq] at hkind
        rcases hentries : operatorEntries fields with - | ⟨⟨operator, operand⟩, - | ⟨next, rest⟩⟩
        · rw [operatorEntries] at hentries
          rw [hentries]
          exact .throw _
        · -- one key: an operator, or a field under the path of the column
          have hinner : fieldsContext context fields (columnOf context schema field) =
              { context with
                flags := some (flagsOf fields), path := some (columnOf context schema field).path } := by
            rw [fieldsContext, hentries]
            rfl
          rw [operatorEntries] at hentries
          rw [hinner, hentries]
          by_cases hoperator : operatorNames.contains operator = true ∧ operand.isUndefined = false
          · rw [columnFormulas_single hentries hoperator.1 hoperator.2]
            have hmem : (operator, operand) ∈ fields :=
              (List.mem_filter.mp (hentries ▸ List.mem_cons_self)).1
            have hoperand := hread.of_mem hmem
            have hone := @relates_operator Q W { context with flags := some (flagsOf fields) }
              (columnOf context schema field).schema _ _ hcolumn hpath hoperand.not_raw
              (fun operands heq => hoperand.items heq) operator
            rw [bind_assoc]
            refine (hone.and_yields (yields_getFinalOperation hoperator.1 hoperator.2)).bind ?_
            intro operation formula hboth
            obtain ⟨hmeans, hsome⟩ := hboth
            cases hmeans with
            | none => cases hsome
            | some hmeans => exact .pure (.some hmeans.conj_singleton)
          · have hfields := relates_fields fields (columnOf context schema field)
              { context with flags := some (flagsOf fields) }
              { context with
                flags := some (flagsOf fields), path := some (columnOf context schema field).path }
              (fun path hp => Option.some.inj hp ▸ hcolumn) hread (by
                rw [operatorEntries, hentries]
                intro entry he hdefined
                rw [List.mem_singleton.mp he] at hdefined ⊢
                exact Bool.eq_false_iff.mpr fun h => hoperator ⟨h, hdefined⟩) hkind.2
            have hnone : getFinalOperation (columnOf context schema field).path
                (columnOf context schema field).schema operator operand
                { context with flags := some (flagsOf fields) } = pure none := by
              by_cases hundefined : operand.isUndefined = true
              · exact getFinalOperation_undefined hundefined
              · refine getFinalOperation_of_not_mem fun hmem => hoperator ⟨?_, ?_⟩
                · exact List.contains_iff_mem.mpr hmem
                · exact Bool.eq_false_iff.mpr hundefined
            dsimp only [List.isEmpty_cons]
            rw [if_neg Bool.false_ne_true, hnone, pure_bind]
            exact hfields.bind fun _ _ hops => .pure hops.combine
        · -- several: operators, unless the column is one of JSON
          have hinner : fieldsContext context fields (columnOf context schema field) =
              { context with path := some (columnOf context schema field).path } := by
            rw [fieldsContext, hentries, if_neg (by simp)]
          have hkinds : ∀ entry ∈ operatorEntries fields, entry.2.isUndefined = false →
              operatorNames.contains entry.1 = !(columnOf context schema field).nested :=
            hkind.1.resolve_left (by rw [hentries]; simp)
          have hlist := hentries
          rw [operatorEntries] at hentries
          rw [hinner, hentries]
          dsimp only [List.isEmpty_cons]
          rw [if_neg Bool.false_ne_true]
          cases hnested : (columnOf context schema field).nested with
          | false =>
            rw [Bool.not_false, if_pos rfl, ← hlist]
            refine (@relates_operators Q W { context with flags := some (flagsOf fields) } _ _ _ hcolumn
              hpath hread fun entry he hdefined => ?_).bind fun _ _ hops => .pure hops.combine
            rw [hkinds entry he hdefined, hnested]
            rfl
          | true =>
            rw [Bool.not_true, if_neg Bool.false_ne_true]
            have hfields := relates_fields fields (columnOf context schema field)
              { context with flags := some (flagsOf fields) }
              { context with path := some (columnOf context schema field).path }
              (fun path hp => Option.some.inj hp ▸ hcolumn) hread (fun entry he hdefined => by
                rw [hkinds entry he hdefined, hnested]
                rfl) hkind.2
            exact hfields.bind fun _ _ hops => .pure hops.combine
  | .undefined | .null | .boolean _ | .number _ | .string _ | .instance_ _ | .raw _ | .reference _
  | .select _ | .condition _ _ => exact relates_single hpath hread (by simp) (by simp)

/-- The keys of a column, as its fields. -/
theorem relates_fields (entries : List (String × SqlOperand Q)) (column : Column W)
    (context inner : SqlOperationContext Q W) (hpath : ∀ path ∈ inner.path, Term path)
    (hread : ReadableFilters inner.runtime entries)
    (hfields : ∀ entry ∈ operatorEntries entries, entry.2.isUndefined = false →
      operatorNames.contains entry.1 = false)
    (hkind : columnOfOneKind inner.runtime.deepEqual entries column.schema = true) :
    Relates (getFilterOperations flagNames entries column.schema inner)
      (columnFormulas entries column context inner) MeanAll := by
  match entries with
  | [] => exact .pure .nil
  | (key, value) :: rest =>
    obtain ⟨hvalue, hrest⟩ := hread
    obtain ⟨hfield, hkind⟩ := Bool.and_eq_true_iff.mp hkind
    have hsub : ∀ entry ∈ operatorEntries rest, entry ∈ operatorEntries ((key, value) :: rest) :=
      fun entry he => List.mem_filter.mpr
        ⟨List.mem_cons_of_mem _ (List.mem_filter.mp he).1, (List.mem_filter.mp he).2⟩
    have hothers := relates_fields rest column context inner hpath hrest
      (fun entry he => hfields entry (hsub entry he)) hkind
    rw [getFilterOperations, columnFormulas]
    by_cases hskip : (flagNames.contains key || value.isUndefined) = true
    · rw [if_pos hskip, if_pos hskip]
      exact hothers
    · rw [if_neg hskip, if_neg hskip]
      obtain ⟨hflag, hdefined⟩ := not_or.mp fun h => hskip (Bool.or_eq_true _ _ ▸ h)
      have hflag := Bool.eq_false_iff.mpr hflag
      have hnot : operatorNames.contains key = false :=
        hfields (key, value) (List.mem_filter.mpr ⟨List.mem_cons_self, by rw [hflag]; rfl⟩)
          (Bool.eq_false_iff.mpr hdefined)
      rw [if_neg (by rw [hnot]; exact Bool.false_ne_true)]
      have hhead := relates_field key value column.schema { inner with field := some key } hpath hvalue
        (by rwa [hflag, hnot, Bool.or_self, Bool.false_or] at hfield)
      exact hhead.bind fun _ _ hop => hothers.bind fun _ _ hops => .pure (.cons_option hop hops)

/-- The items of `AND`. -/
theorem relates_conjuncts (items : List (SqlOperand Q)) (schema : Option AnySchema)
    (context : SqlOperationContext Q W) (hpath : ∀ path ∈ context.path, Term path)
    (hread : ReadableItems context.runtime items)
    (hkind : itemsOfOneKind context.runtime.deepEqual items schema = true) :
    Relates (getLogicalOperations "AND" items schema context) (itemFormulas items schema context)
      GroupMeans := by
  match items with
  | [] => exact .pure .nil
  | .condition parts last :: rest =>
    have hothers := relates_conjuncts rest schema context hpath hread.2 hkind
    have hbody := Relates.of_yields (hread.1 context)
    rw [getLogicalOperations, itemFormulas, buildCondition, bind_assoc]
    refine hbody.bind fun body _ hboth => ?_
    obtain ⟨rfl, hbalanced⟩ := hboth
    rw [pure_bind]
    exact hothers.bind fun _ _ hops => .pure (hops.single (means_body hbalanced))
  | .object filters :: rest =>
    have hhead := relates_filters filters schema context hpath hread.1
      (Bool.and_eq_true_iff.mp hkind).1
    have hothers := relates_conjuncts rest schema context hpath hread.2
      (Bool.and_eq_true_iff.mp hkind).2
    rw [getLogicalOperations, itemFormulas]
    exact hhead.bind fun _ _ hop => hothers.bind fun _ _ hops => .pure (.fields hop hops)
  | .undefined :: rest | .null :: rest | .boolean _ :: rest | .number _ :: rest | .string _ :: rest
  | .array _ :: rest | .instance_ _ :: rest | .raw _ :: rest | .reference _ :: rest
  | .select _ :: rest => exact relates_conjuncts rest schema context hpath hread.2 hkind

/-- The items of `OR`. -/
theorem relates_disjuncts (items : List (SqlOperand Q)) (schema : Option AnySchema)
    (context : SqlOperationContext Q W) (hpath : ∀ path ∈ context.path, Term path)
    (hread : ReadableItems context.runtime items)
    (hkind : itemsOfOneKind context.runtime.deepEqual items schema = true) :
    Relates (getLogicalOperations "OR" items schema context) (itemFormulas items schema context)
      MeanAll := by
  match items with
  | [] => exact .pure .nil
  | .condition parts last :: rest =>
    have hothers := relates_disjuncts rest schema context hpath hread.2 hkind
    have hbody := Relates.of_yields (hread.1 context)
    rw [getLogicalOperations, itemFormulas, buildCondition, bind_assoc]
    refine hbody.bind fun body _ hboth => ?_
    obtain ⟨rfl, hbalanced⟩ := hboth
    rw [pure_bind]
    exact hothers.bind fun _ _ hops => .pure (.cons (means_body hbalanced) hops)
  | .object filters :: rest =>
    have hhead := relates_filters filters schema context hpath hread.1
      (Bool.and_eq_true_iff.mp hkind).1
    have hothers := relates_disjuncts rest schema context hpath hread.2
      (Bool.and_eq_true_iff.mp hkind).2
    rw [getLogicalOperations, itemFormulas]
    exact hhead.bind fun _ _ hop => hothers.bind fun _ _ hops =>
      .pure (.cons_option hop.combine hops)
  | .undefined :: rest | .null :: rest | .boolean _ :: rest | .number _ :: rest | .string _ :: rest
  | .array _ :: rest | .instance_ _ :: rest | .raw _ :: rest | .reference _ :: rest
  | .select _ :: rest => exact relates_disjuncts rest schema context hpath hread.2 hkind

end

/-! ## What is built reads as the formula -/

/-- The text, with the precedence of SQL, has the value of the formula whatever
its comparisons are worth. -/
structure ReadsAs (text : Text W) (formula : Condition) : Prop where
  closed : trees text.render.toList = some (treesOf text)
  value : ∀ {L : Type} [Lattice L] [BoundedOrder L] (neg : L → L) (v : List Tree → L),
    (read (treesOf text)).eval neg v = formula.eval neg v

/-- A condition is built whenever there is a formula, and reads as it. -/
def KeepsMeaning (context : SqlOperationContext Q W) (schema : Option AnySchema)
    (filters : SqlFilters Q) : Prop :=
  Relates (buildConditions context schema filters) (filtersFormula context schema filters)
    (Option.Rel fun built meant => ReadsAs built.1 meant.1 ∧ built.2 = meant.2)

theorem relates_withVariables {α β : Type} {clause : Build W α} {other : Build W β}
    {R : α → β → Prop} (h : Relates clause other R) :
    Relates (withVariables clause) (withVariables other) fun a b => R a.1 b.1 ∧ a.2 = b.2 := by
  intro scope
  have hs := h { scope with values := [] }
  have hrun : ∀ {γ : Type} (m : Build W γ), withVariables m scope =
      (m { scope with values := [] }).bind fun p =>
        .ok ((p.1, p.2.values), { p.2 with values := scope.values }) := fun m => rfl
  rw [hrun, hrun]
  generalize clause _ = x at hs ⊢
  generalize other _ = y at hs ⊢
  cases hs with
  | ok hab => exact .ok ⟨hab, rfl⟩
  | error e => exact .error e

/-- The conjunction of what the texts mean, as they are joined in the end. -/
theorem MeanAll.readsAs {operations : List (Text W)} {formulas : List Condition}
    (h : MeanAll operations formulas) (hne : operations ≠ []) :
    ReadsAs (join " AND " operations) (.conj formulas) := by
  have hreads := Reads.joined separates_and h.reads
  refine ⟨?_, fun neg v => (h.value_all neg v hne).read⟩
  rw [hreads.treesOf_eq, Text.render_toList]
  exact trees_of_lexes hreads

namespace Sample

/-- A runtime without nested statements. -/
def runtime : Runtime Empty Unit where
  bare _ := ()
  stringify _ := ""
  deepEqual _ _ := false
  build := nofun

def one : SqlOperand Empty := .number ⟨"1", by decide, List.all_eq_true.mp rfl⟩

/-- Whether a run came to a condition. -/
def conditioned {α σ ε : Type} : Except ε (Option α × σ) → Bool
  | .ok (result, _) => result.isSome
  | .error _ => false

theorem conditioned_eq {α β σ ε : Type} {R : α → β → Prop} {x : Except ε (Option α × σ)}
    {y : Except ε (Option β × σ)} (h : Alike (Option.Rel R) x y) : conditioned x = conditioned y := by
  cases h with
  | ok h => cases h <;> rfl
  | error e => rfl

/-- Two fields of a column of which nothing is known: no condition is built. -/
def fieldsOfPlainColumn : SqlFilters Empty := [("foo", .object [("bar", one), ("baz", one)])]

/-- Groups in groups, several operators on a column, and a raw condition. -/
def nestedGroups : SqlFilters Empty :=
  [("foo", one),
    ("OR", .array [.object [("bar", .object [("gte", one), ("lt", one)]), ("baz", .null)],
      .condition [] "\"qux\" > 1 OR \"qux\" IS NULL"]),
    ("NOT", .object [("quux", .object [("corge", .object [("isIn", .array [one, one])])])])]

end Sample

end Ez4.PgSql

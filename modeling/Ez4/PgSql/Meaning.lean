import Ez4.PgSql.Reading

/-! # What the operations of a condition mean

A text means a formula when it has the formula's value between any two `AND`s
and `OR`s. The atoms of a formula are comparisons, as they read. -/
namespace Ez4.PgSql
open Library Library.Lexing Library.Precedence

variable {Q W : Type}

structure Means (text : Text W) (f : Formula (List Tree)) : Prop where
  reads : Reads text (treesOf text)
  nonempty : treesOf text ≠ []
  value : ∀ {L : Type} [Lattice L] [BoundedOrder L] (neg : L → L) (v : List Tree → L),
    UnitValue neg v (treesOf text) (f.eval neg v)

def atomOf (text : Text W) : Formula (List Tree) := .atom (treesOf text)

namespace Means

variable {text : Text W} {f g : Formula (List Tree)}

theorem of_reads {ts : List Tree} (h : Reads text ts) (hne : ts ≠ [])
    (hvalue : ∀ {L : Type} [Lattice L] [BoundedOrder L] (neg : L → L) (v : List Tree → L),
      UnitValue neg v ts (f.eval neg v)) : Means text f := by
  have := h.treesOf_eq
  subst this
  exact ⟨h, hne, hvalue⟩

/-- Formulas of the same value are meant by the same texts. -/
theorem congr (h : Means text f)
    (heq : ∀ {L : Type} [Lattice L] [BoundedOrder L] (neg : L → L) (v : List Tree → L),
      g.eval neg v = f.eval neg v) : Means text g :=
  ⟨h.reads, h.nonempty, fun neg v => heq neg v ▸ h.value neg v⟩

/-- What a text means is in its characters. -/
theorem congr_chars {other : Text W} (h : Means text f) (hchars : other.chars = text.chars) :
    Means other f := by
  have hreads : Reads other (treesOf text) := by
    rw [Reads, hchars]
    exact h.reads
  exact of_reads hreads h.nonempty h.value

/-- A comparison means itself. -/
theorem of_term (h : Term text) (hgroup : ∀ inner, treesOf text ≠ [.group inner]) :
    Means text (atomOf text) :=
  ⟨h.reads, h.nonempty, fun _ _ => .atom (.of_plain h.plain) h.notNegated hgroup⟩

theorem of_longer (h : Term text) (hlength : 1 < (treesOf text).length) :
    Means text (atomOf text) := by
  refine of_term h fun inner heq => ?_
  rw [heq] at hlength
  exact absurd hlength (by simp)

end Means

/-! ## Comparisons -/

/-- What stands between the sides of a comparison. -/
structure Compares (operator : Text W) (ts : List Tree) : Prop where
  separates : Separates operator ts
  nonempty : ts ≠ []
  plain : ∀ tree ∈ ts, isPlain tree = true

theorem Compares.of_literal {operator : String} {ts : List Tree} (hne : operator.toList ≠ [])
    (hb : Boundary operator.toList) (hc : Closed operator.toList (flattenAll ts)) (hts : ts ≠ [])
    (hplain : ∀ tree ∈ ts, isPlain tree = true) : Compares (sql operator : Text W) ts :=
  ⟨.of_literal hne hb hc, hts, hplain⟩

/-- An operator of symbols. -/
theorem Compares.of_symbols {operator : String} (chars : List Char)
    (h : operator.toList ≠ [] ∧ Boundary operator.toList ∧
      Closed operator.toList (flattenAll (chars.map fun c => .leaf (.symbol c))) ∧ chars ≠ []) :
    Compares (sql operator : Text W) (chars.map fun c => .leaf (.symbol c)) := by
  obtain ⟨hne, hb, hc, hchars⟩ := h
  refine .of_literal hne hb hc (by simpa using hchars) fun tree ht => ?_
  obtain ⟨c, -, rfl⟩ := List.mem_map.mp ht
  rfl

theorem Term.compared {a b operator : Text W} {ts : List Tree} (ha : Term a)
    (h : Compares operator ts) (hb : Term b) :
    Means (a ++ operator ++ b) (atomOf (a ++ operator ++ b)) := by
  refine .of_longer (ha.separated h.separates h.plain hb) ?_
  rw [(ha.reads.separated h.separates hb.reads).treesOf_eq]
  have hlength := List.length_pos_iff.mpr ha.nonempty
  have hlength' := List.length_pos_iff.mpr h.nonempty
  simp only [List.length_append]
  omega

/-- A term with a test after it. -/
theorem Term.tested {a b : Text W} {ts : List Tree} (ha : Term a) (hb : Reads b ts)
    (hboundary : Boundary b.chars) (hne : ts ≠ []) (hplain : ∀ tree ∈ ts, isPlain tree = true) :
    Means (a ++ b) (atomOf (a ++ b)) := by
  refine .of_longer (ha.append hb hboundary hplain) ?_
  rw [(ha.reads.append hb hboundary).treesOf_eq]
  have hlength := List.length_pos_iff.mpr ha.nonempty
  have hlength' := List.length_pos_iff.mpr hne
  simp only [List.length_append]
  omega

/-! ## Conjunctions, disjunctions and negations -/

/-- The texts mean the formulas, one by one. -/
abbrev MeanAll (texts : List (Text W)) (fs : List (Formula (List Tree))) : Prop :=
  List.Forall₂ Means texts fs

theorem MeanAll.reads {texts : List (Text W)} {fs : List (Formula (List Tree))}
    (h : MeanAll texts fs) : ∀ text ∈ texts, Reads text (treesOf text) := by
  induction h with
  | nil => simp
  | cons hhead _ ih => exact List.forall_mem_cons.mpr ⟨hhead.reads, ih⟩

theorem separates_and : Separates (sql " AND " : Text W) [andWord] :=
  .of_literal (by decide) (by decide) (by decide)

theorem separates_or : Separates (sql " OR " : Text W) [orWord] :=
  .of_literal (by decide) (by decide) (by decide)

section
variable {L : Type} [Lattice L] [BoundedOrder L] (neg : L → L) (v : List Tree → L)

theorem MeanAll.units {texts : List (Text W)} {fs : List (Formula (List Tree))}
    (h : MeanAll texts fs) :
    ∃ units : List (List Tree × L), units.map Prod.fst = texts.map treesOf ∧
      units.map Prod.snd = fs.map (Formula.eval neg v) ∧
      ∀ unit ∈ units, UnitValue neg v unit.1 unit.2 := by
  induction h with
  | nil => exact ⟨[], rfl, rfl, by simp⟩
  | @cons text f texts fs hhead _ ih =>
    obtain ⟨units, hfst, hsnd, hunits⟩ := ih
    exact ⟨(treesOf text, f.eval neg v) :: units, by simp [hfst], by simp [hsnd],
      List.forall_mem_cons.mpr ⟨hhead.value neg v, hunits⟩⟩

theorem MeanAll.value_all {texts : List (Text W)} {fs : List (Formula (List Tree))}
    (h : MeanAll texts fs) (hne : texts ≠ []) :
    Value neg v (treesOf (join " AND " texts)) ((Formula.conj fs).eval neg v) := by
  obtain ⟨units, hfst, hsnd, hunits⟩ := h.units neg v
  have hunits_ne : units ≠ [] := fun hnil => hne (by simpa [hnil] using hfst.symm)
  rw [(Reads.joined separates_and h.reads).treesOf_eq, Formula.eval, evalAll_eq, ← hsnd, ← hfst]
  exact Value.all hunits_ne hunits

theorem MeanAll.value_any {texts : List (Text W)} {fs : List (Formula (List Tree))}
    (h : MeanAll texts fs) (hne : texts ≠ []) :
    Value neg v (treesOf (join " OR " texts)) ((Formula.disj fs).eval neg v) := by
  obtain ⟨units, hfst, hsnd, hunits⟩ := h.units neg v
  have hunits_ne : units ≠ [] := fun hnil => hne (by simpa [hnil] using hfst.symm)
  rw [(Reads.joined separates_or h.reads).treesOf_eq, Formula.eval, evalAny_eq, ← hsnd, ← hfst]
  exact Value.any hunits_ne hunits

end

/-- Parentheses around what has a value. -/
theorem Means.grouped {text : Text W} {f : Formula (List Tree)} (h : Reads text (treesOf text))
    (hvalue : ∀ {L : Type} [Lattice L] [BoundedOrder L] (neg : L → L) (v : List Tree → L),
      Value neg v (treesOf text) (f.eval neg v)) : Means (sql "(" ++ text ++ sql ")") f :=
  .of_reads h.group (by simp) fun neg v => (hvalue neg v).group

theorem Means.all {texts : List (Text W)} {fs : List (Formula (List Tree))}
    (h : MeanAll texts fs) (hne : texts ≠ []) :
    Means (sql "(" ++ join " AND " texts ++ sql ")") (.conj fs) := by
  refine .grouped ?_ fun neg v => h.value_all neg v hne
  have hreads := Reads.joined separates_and h.reads
  rw [hreads.treesOf_eq]
  exact hreads

theorem Means.any {texts : List (Text W)} {fs : List (Formula (List Tree))}
    (h : MeanAll texts fs) (hne : texts ≠ []) :
    Means (sql "(" ++ join " OR " texts ++ sql ")") (.disj fs) := by
  refine .grouped ?_ fun neg v => h.value_any neg v hne
  have hreads := Reads.joined separates_or h.reads
  rw [hreads.treesOf_eq]
  exact hreads

theorem Means.negated {text : Text W} {f : Formula (List Tree)} (h : Means text f) :
    Means (sql "NOT " ++ text) (.neg f) := by
  have hnot : Closed (sql "NOT " : Text W).chars (flattenAll [notWord]) := by
    rw [chars_sql]
    decide
  exact .of_reads (Reads.follow hnot h.reads) (by simp) fun neg v => (h.value neg v).negated h.nonempty

/-- One formula is its own conjunction. -/
theorem Means.conj_singleton {text : Text W} {f : Formula (List Tree)} (h : Means text f) :
    Means text (.conj [f]) :=
  h.congr fun neg v => by rw [Formula.eval, evalAll, evalAll, inf_top_eq]

/-! ## Operators -/

section
variable (context : SqlOperationContext Q W)

/-- A field that is missing has no key; one that is not has it. -/
def missingFormula (column : Text W) (operand : SqlOperand Q) : Formula (List Tree) :=
  match hasKey? context with
  | none => atomOf (getIsNullOperation column operand)
  | some hasKey => if operand.truthy then .neg (atomOf hasKey) else atomOf hasKey

def missingOrNullFormula (column : Text W) (operand : SqlOperand Q) : Formula (List Tree) :=
  match hasKey? context with
  | none => atomOf (getIsNullOperation column operand)
  | some hasKey =>
    if operand.truthy then .disj [.neg (atomOf hasKey), atomOf (column ++ sql " IS null")]
    else .conj [atomOf hasKey, atomOf (column ++ sql " IS NOT null")]

/-- One value of several: on JSON, it is in the first one, or in the second one,
and so on. -/
def isInFormula (column : Text W) (schema : Option Schema.AnySchema) (operand : SqlOperand Q) :
    Build W (Formula (List Tree)) :=
  match operand with
  | .array (first :: others) =>
    if isJsonSchema schema then do
      let rhsOperands ← (first :: others).mapM fun current =>
        getOperandValue context schema current true
      return .disj (rhsOperands.map fun rhsOperand =>
        atomOf (getOperandColumn context schema column ++ sql " <@ " ++ rhsOperand))
    else atomOf <$> getIsInOperation context column schema operand
  | _ => atomOf <$> getIsInOperation context column schema operand

def operatorNames : List String :=
  ["isNull", "isMissing", "isMissingOrNull", "equal", "not", "gt", "gte", "lt", "lte", "isIn",
    "isBetween", "startsWith", "contains"]

/-- What an operator says of a column. -/
def operatorFormula (column : Text W) (schema : Option Schema.AnySchema) (operator : String)
    (operand : SqlOperand Q) : Build W (Option (Formula (List Tree))) :=
  if operand.isUndefined then pure none
  else match operator with
    | "isMissing" => pure (some (missingFormula context column operand))
    | "isMissingOrNull" => pure (some (missingOrNullFormula context column operand))
    | "isIn" => some <$> isInFormula context column schema operand
    | _ => Option.map atomOf <$> getFinalOperation column schema operator operand context

end

/-- What is no operator makes no operation. -/
theorem getFinalOperation_of_not_mem {column : Text W} {schema : Option Schema.AnySchema}
    {operator : String} {operand : SqlOperand Q} {context : SqlOperationContext Q W}
    (h : operator ∉ operatorNames) :
    getFinalOperation column schema operator operand context = pure none := by
  unfold getFinalOperation
  split
  · rfl
  · split <;> first | rfl | exact absurd (by decide) h

/-! ### Each operator means its formula -/

section
variable {context : SqlOperationContext Q W} {schema : Option Schema.AnySchema} {column : Text W}
  {operand : SqlOperand Q}

theorem tested_literal {column : Text W} (hcolumn : Term column) {test : String}
    (before : List Tree) (last : List Char)
    (hscan : scan .start test.toList = (flattenAll before, .word last))
    (hboundary : Boundary test.toList)
    (hplain : ∀ tree ∈ before ++ [.leaf (.word last)], isPlain tree = true) :
    Means (column ++ sql test) (atomOf (column ++ sql test)) := by
  exact hcolumn.tested (Reads.of_scan before last hscan) (by rwa [chars_sql]) (by simp) hplain

theorem means_null (hcolumn : Term column) :
    Means (column ++ sql " IS null") (atomOf (column ++ sql " IS null")) :=
  tested_literal hcolumn [.leaf (.word "IS".toList)] "null".toList (by decide)
    (by decide) (by decide)

theorem means_notNull (hcolumn : Term column) :
    Means (column ++ sql " IS NOT null") (atomOf (column ++ sql " IS NOT null")) :=
  tested_literal hcolumn [.leaf (.word "IS".toList), notWord] "null".toList (by decide)
    (by decide) (by decide)

theorem means_isNull (hcolumn : Term column) (operand : SqlOperand Q) :
    Means (getIsNullOperation column operand) (atomOf (getIsNullOperation column operand)) := by
  unfold getIsNullOperation
  split
  · exact means_notNull hcolumn
  · exact means_null hcolumn

/-- Whether the test of a key is one, of which the path is a term. -/
theorem means_hasKey (hpath : ∀ path ∈ context.path, Term path) {hasKey : Text W}
    (h : hasKey? context = some hasKey) : Means hasKey (atomOf hasKey) := by
  unfold hasKey? at h
  split at h
  · rename_i path field hp hf
    split at h
    · cases h
    · obtain rfl := Option.some.inj h
      exact (hpath path hp).compared (.of_symbols ['?'] (by decide)) (term_escapeSqlKey field)
  · cases h

theorem means_missing (hcolumn : Term column) (hpath : ∀ path ∈ context.path, Term path)
    (operand : SqlOperand Q) :
    Means (getIsMissingOperation context column operand) (missingFormula context column operand) := by
  unfold getIsMissingOperation missingFormula
  cases hkey : hasKey? context with
  | none => exact means_isNull hcolumn operand
  | some hasKey =>
    have hhas := means_hasKey hpath hkey
    dsimp only
    split
    · -- the parentheses are around one comparison
      have hgroup : Means (sql "(" ++ hasKey ++ sql ")") (atomOf hasKey) :=
        .grouped hhas.reads fun neg v => (hhas.value neg v).alone
      exact hgroup.negated.congr_chars (by simp)
    · exact hhas

theorem means_missingOrNull (hcolumn : Term column) (hpath : ∀ path ∈ context.path, Term path)
    (operand : SqlOperand Q) :
    Means (getIsMissingOrNullOperation context column operand)
      (missingOrNullFormula context column operand) := by
  unfold getIsMissingOrNullOperation missingOrNullFormula
  cases hkey : hasKey? context with
  | none => exact means_isNull hcolumn operand
  | some hasKey =>
    have hhas := means_hasKey hpath hkey
    dsimp only
    split
    · have hgroup : Means (sql "(" ++ hasKey ++ sql ")") (atomOf hasKey) :=
        .grouped hhas.reads fun neg v => (hhas.value neg v).alone
      have hmembers : MeanAll [sql "NOT " ++ (sql "(" ++ hasKey ++ sql ")"), column ++ sql " IS null"]
          [.neg (atomOf hasKey), atomOf (column ++ sql " IS null")] :=
        .cons hgroup.negated (.cons (means_null hcolumn) .nil)
      exact (Means.any hmembers (by simp)).congr_chars (by simp [join, List.intercalate])
    · have hmembers : MeanAll [hasKey, column ++ sql " IS NOT null"]
          [atomOf hasKey, atomOf (column ++ sql " IS NOT null")] :=
        .cons hhas (.cons (means_notNull hcolumn) .nil)
      exact (Means.all hmembers (by simp)).congr_chars (by simp [join, List.intercalate])

/-- A comparison with the value of an operand. -/
abbrev IsComparison (text : Text W) : Prop := Means text (atomOf text)

theorem yields_getEqualityOperation (hcolumn : Term column) (hoperand : operand.isRaw = false)
    {operator : String} {ts : List Tree} (hoperator : Compares (sql operator : Text W) ts)
    (isNull : Bool) :
    Yields (getEqualityOperation context operator isNull column schema operand) IsComparison := by
  unfold getEqualityOperation
  split
  · exact .pure (means_isNull hcolumn _)
  · refine (yields_getOperandValue hoperand false).bind fun rhsValue hrhs => .pure ?_
    refine (term_flagged (term_getOperandColumn hcolumn)).compared hoperator ?_
    split
    · exact term_flagged hrhs
    · exact hrhs

theorem yields_getOrderOperation (hcolumn : Term column) (hoperand : operand.isRaw = false)
    {operator : String} {ts : List Tree} (hoperator : Compares (sql operator : Text W) ts) :
    Yields (getOrderOperation context operator column schema operand) IsComparison := by
  unfold getOrderOperation
  refine (yields_getOperandValue hoperand false).bind fun rhsOperand hrhs => .pure ?_
  exact (term_flagged (term_getOperandColumn hcolumn)).compared hoperator hrhs

variable (context) in
theorem compares_like : ∃ ts, Compares (likeOperator context) ts ∧
    ∃ ts', Compares (likeOperator context ++ sql "'%' || ") ts' := by
  unfold likeOperator
  split
  · refine ⟨[.leaf (.word "ILIKE".toList)], .of_literal (by decide) (by decide)
      (by decide) (by simp) (by decide), [.leaf (.word "ILIKE".toList),
        .leaf (.quoted '\'' ['%']), .leaf (.symbol '|'), .leaf (.symbol '|')], ⟨?_, ?_, ?_⟩, by simp,
      by decide⟩ <;> rw [chars_append, chars_sql, chars_sql] <;> decide
  · refine ⟨[.leaf (.word "LIKE".toList)], .of_literal (by decide) (by decide)
      (by decide) (by simp) (by decide), [.leaf (.word "LIKE".toList),
        .leaf (.quoted '\'' ['%']), .leaf (.symbol '|'), .leaf (.symbol '|')], ⟨?_, ?_, ?_⟩, by simp,
      by decide⟩ <;> rw [chars_append, chars_sql, chars_sql] <;> decide

/-- A pattern that goes on with anything. -/
theorem Term.open_pattern {a operator b : Text W} {ts : List Tree} (ha : Term a)
    (hoperator : Compares operator ts) (hb : Term b) :
    IsComparison (a ++ operator ++ b ++ sql " || '%'") := by
  have hpattern : Term (sql "'%'" : Text W) := by
    refine term_quoted '\'' ['%'] rfl ?_
    rw [chars_sql]
    decide
  have hor : Compares (sql " || " : Text W) _ := .of_symbols ['|', '|'] (by decide)
  have hall := (ha.separated hoperator.separates hoperator.plain hb).compared hor hpattern
  have hchars : (a ++ operator ++ b ++ sql " || '%'" : Text W).chars =
      (a ++ operator ++ b ++ sql " || " ++ sql "'%'" : Text W).chars := by
    simp
  have htrees : treesOf (a ++ operator ++ b ++ sql " || '%'" : Text W) =
      treesOf (a ++ operator ++ b ++ sql " || " ++ sql "'%'" : Text W) := by
    rw [treesOf, treesOf, Text.render_toList, Text.render_toList, hchars]
  rw [IsComparison, atomOf, htrees]
  exact hall.congr_chars hchars

theorem yields_getStartsWithOperation (hcolumn : Term column) (hoperand : operand.isRaw = false) :
    Yields (getStartsWithOperation context column schema operand) IsComparison := by
  unfold getStartsWithOperation
  obtain ⟨ts, hlike, -⟩ := compares_like context
  refine (yields_getOperandPattern hoperand).bind fun rhsOperand hrhs => .pure ?_
  exact (term_getOperandColumn hcolumn).open_pattern hlike hrhs

theorem yields_getContainsOperation (hcolumn : Term column) (hoperand : operand.isRaw = false) :
    Yields (getContainsOperation context column schema operand) IsComparison := by
  unfold getContainsOperation
  split
  · refine (yields_getOperandValue hoperand true).bind fun rhsOperand hrhs => .pure ?_
    exact hcolumn.compared (.of_symbols ['@', '>'] (by decide)) hrhs
  · obtain ⟨-, -, ts, hlike⟩ := compares_like context
    refine (yields_getOperandPattern hoperand).bind fun rhsOperand hrhs => .pure ?_
    have hlhs : Term (getOperandColumn context schema column) := term_getOperandColumn hcolumn
    have hopen := hlhs.open_pattern hlike hrhs
    rwa [← List.append_assoc] at hopen

/-- The operands of a list are bound one by one. -/
theorem yields_operands {operands : List (SqlOperand Q)}
    (h : ∀ current ∈ operands, current.isRaw = false) (encode : Bool) :
    Yields (operands.mapM fun current => getOperandValue context schema current encode)
      fun texts => ∀ text ∈ texts, Term text :=
  .mapM fun current hc => yields_getOperandValue (h current hc) encode

/-- A term that a test with a list of its own follows. -/
theorem Term.tested_group {a inner : Text W} {ts : List Tree} (ha : Term a) (opening : String)
    (before : List Tree) (hopening : Closed opening.toList (flattenAll before ++ [.left]))
    (hboundary : Boundary opening.toList) (hne : opening.toList ≠ [])
    (hplain : ∀ tree ∈ before, isPlain tree = true) (hinner : Reads inner ts) :
    IsComparison (a ++ (sql opening ++ inner ++ sql ")")) := by
  refine ha.tested (Reads.wrapped before [] ?_ hinner ?_ ?_) ?_ (by simp) ?_
  · rw [chars_sql]
    exact hopening
  · rw [chars_sql]
    exact Closed.lexes (by decide)
  · rw [chars_sql]
    decide
  · have hseparates : Boundary (sql opening ++ (inner ++ sql ")") : Text W).chars := by
      rw [chars_append, chars_sql]
      rcases hc : opening.toList with - | ⟨c, rest⟩
      · exact absurd hc hne
      · rw [hc] at hboundary
        exact hboundary
    rwa [← List.append_assoc] at hseparates
  · intro tree ht
    rcases List.mem_append.mp ht with ht | ht
    · exact hplain tree ht
    · rw [List.mem_singleton.mp ht]
      rfl

theorem comparison_false : IsComparison (sql "false" : Text W) := by
  have hscan : scan .start "false".toList = ([], .word "false".toList) := by decide
  have hreads : Reads (sql "false" : Text W) [.leaf (.word "false".toList)] := .of_scan [] _ hscan
  refine .of_term (term_word "false" (chars_sql _) hscan (by decide) (by decide)) ?_
  intro inner
  rw [hreads.treesOf_eq]
  simp

/-- Of a list that is compared with as a whole, or by its members. -/
theorem yields_getIsInOperation (hcolumn : Term column) (hjson : isJsonSchema schema = false)
    (hoperands : ∀ operands, operand = .array operands →
      ∀ current ∈ operands, current.isRaw = false) :
    Yields (getIsInOperation context column schema operand) IsComparison := by
  have hlhs : Term (flagged context (getOperandColumn context schema column)) :=
    term_flagged (term_getOperandColumn hcolumn)
  unfold getIsInOperation
  split
  · exact .pure comparison_false
  · rename_i operands _
    rw [hjson, if_neg Bool.false_ne_true]
    refine (yields_getOperandArray operands).bind fun rhsArray hrhs => ?_
    split
    · rename_i rhsArray
      refine .pure ?_
      have hany := hlhs.tested_group " = ANY(" [.leaf (.symbol '='), .leaf (.word "ANY".toList)]
        (by decide) (by decide) (by decide)
        (by decide) (hrhs rhsArray rfl).reads
      rwa [← List.append_assoc, ← List.append_assoc] at hany
    · refine (yields_operands (hoperands operands rfl) false).bind fun rhsOperands hrhs => .pure ?_
      have hcomma : Separates (sql ", " : Text W) [.leaf (.symbol ',')] :=
        .of_literal (by decide) (by decide) (by decide)
      have hin := hlhs.tested_group " IN (" [.leaf (.word "IN".toList)]
        (by decide) (by decide) (by decide) (by decide)
        (Reads.joined hcomma fun text ht => (hrhs text ht).reads)
      rwa [← List.append_assoc, ← List.append_assoc] at hin
  · exact .throw _

theorem relates_getIsInOperation (hcolumn : Term column)
    (hoperands : ∀ operands, operand = .array operands →
      ∀ current ∈ operands, current.isRaw = false) :
    Relates (getIsInOperation context column schema operand)
      (isInFormula context column schema operand) Means := by
  have hlhs : Term (getOperandColumn context schema column) := term_getOperandColumn hcolumn
  unfold isInFormula
  split
  · rename_i first others
    have hterms := hoperands _ rfl
    split
    · rename_i hjson
      have hrun : getIsInOperation context column schema (.array (first :: others)) = (do
          let rhsOperands ← (first :: others).mapM fun current =>
            getOperandValue context schema current true
          return sql "(" ++ join " OR " (rhsOperands.map fun rhsOperand =>
            getOperandColumn context schema column ++ sql " <@ " ++ rhsOperand) ++ sql ")") := by
        simp only [getIsInOperation, if_pos hjson]
      rw [hrun]
      refine (Relates.of_yields ((yields_operands hterms true).and .mapM_length)).bind ?_
      intro rhsOperands others' hboth
      obtain ⟨rfl, hrhs, hlength⟩ := hboth
      refine .pure (Means.any ?_ ?_)
      · rw [MeanAll, List.forall₂_map_left_iff, List.forall₂_map_right_iff, List.forall₂_same]
        exact fun rhsOperand hr =>
          hlhs.compared (.of_symbols ['<', '@'] (by decide)) (hrhs rhsOperand hr)
      · rw [ne_eq, List.map_eq_nil_iff, ← List.length_eq_zero_iff, hlength]
        simp
    · rename_i hjson
      exact .map_right (yields_getIsInOperation hcolumn (Bool.eq_false_iff.mpr hjson) hoperands)
        fun _ h => h
  · rename_i hnot
    refine .map_right ?_ fun _ (h : IsComparison _) => h
    cases operand with
    | array operands =>
      cases operands with
      | nil => exact .pure comparison_false
      | cons first others => exact absurd rfl (hnot first others)
    | _ => exact .throw _

/-- `BETWEEN`, which takes an `AND` of its own. -/
theorem Term.between {a low high : Text W} (ha : Term a) (hlow : Term low) (hhigh : Term high) :
    IsComparison (a ++ sql " BETWEEN " ++ low ++ sql " AND " ++ high) := by
  have hbetween : Separates (sql " BETWEEN " : Text W) [.leaf (.word "BETWEEN".toList)] :=
    .of_literal (by decide) (by decide) (by decide)
  have hreads := (ha.reads.separated hbetween hlow.reads).separated separates_and hhigh.reads
  have hor : ∀ {text : Text W}, Term text → ∀ tree ∈ treesOf text, isKeyword "OR" tree = false :=
    fun h tree ht => (Sealed.of_plain h.plain).noOr tree ht
  refine .of_reads hreads (by simp [ha.nonempty]) fun neg v => ?_
  rw [atomOf, Formula.eval, hreads.treesOf_eq]
  refine .atom ⟨?_, ?_⟩ ?_ ?_
  · intro tree ht
    simp only [List.mem_append, List.mem_singleton] at ht
    rcases ht with (((ht | rfl) | ht) | rfl) | ht
    · exact hor ha tree ht
    · decide
    · exact hor hlow tree ht
    · decide
    · exact hor hhigh tree ht
  · have hopen : andEnd false [.leaf (.word "BETWEEN".toList)] = some true := by decide
    have hclose : andEnd true [andWord] = some false := by decide
    rw [andEnd_append, andEnd_append, andEnd_append, andEnd_append, andEnd_plain ha.plain,
      Option.bind_some, hopen, Option.bind_some, andEnd_plain hlow.plain, Option.bind_some, hclose,
      Option.bind_some, andEnd_plain hhigh.plain]
  · simp only [List.append_assoc]
    exact Term.head_append ha.nonempty ha.notNegated
  · intro inner heq
    have hlength := congrArg List.length heq
    have := List.length_pos_iff.mpr ha.nonempty
    simp only [List.length_append, List.length_singleton] at hlength
    omega

theorem yields_getIsBetweenOperation (hcolumn : Term column)
    (hoperands : ∀ operands, operand = .array operands →
      ∀ current ∈ operands, current.isRaw = false) :
    Yields (getIsBetweenOperation context column schema operand) IsComparison := by
  unfold getIsBetweenOperation
  split
  · rename_i first second
    have hterms := hoperands _ rfl
    refine (yields_getOperandValue (hterms first (by simp)) false).bind fun low hlow => ?_
    refine (yields_getOperandValue (hterms second (by simp)) false).bind fun high hhigh => .pure ?_
    exact (term_flagged (term_getOperandColumn hcolumn)).between hlow hhigh
  · exact .throw _

/-- A statement in parentheses of its own. -/
theorem means_exists {text : Text W} {ts : List Tree} (h : Reads text ts) :
    IsComparison (sql "EXISTS (" ++ text ++ sql ")") := by
  have hreads : Reads (sql "EXISTS (" ++ text ++ sql ")")
      ([.leaf (.word "EXISTS".toList)] ++ [.group ts]) := by
    refine Reads.wrapped [.leaf (.word "EXISTS".toList)] [] ?_ h ?_ ?_ <;> rw [chars_sql]
    · decide
    · exact Closed.lexes (by decide)
    · decide
  refine .of_longer (.of_reads hreads (by simp) ?_ ?_) ?_
  · intro tree ht
    rcases List.mem_append.mp ht with ht | ht <;> rw [List.mem_singleton.mp ht]
    · decide
    · rfl
  · intro tree ht
    rw [← Option.some.inj ht]
    decide
  · rw [hreads.treesOf_eq]
    simp

/-- **An operator means its formula**, for operands that are not raw SQL. -/
theorem relates_operator (hcolumn : Term column) (hpath : ∀ path ∈ context.path, Term path)
    (hoperand : operand.isRaw = false)
    (hoperands : ∀ operands, operand = .array operands →
      ∀ current ∈ operands, current.isRaw = false) (operator : String) :
    Relates (getFinalOperation column schema operator operand context)
      (operatorFormula context column schema operator operand) (Option.Rel Means) := by
  have hcompares : ∀ {m : Build W (Text W)}, Yields m IsComparison →
      Relates (some <$> m) (Option.map atomOf <$> (some <$> m)) (Option.Rel Means) := by
    intro m h
    refine .map_right (h.map (Q := fun text? => ∃ text, text? = some text ∧ IsComparison text)
      fun text htext => ⟨text, rfl, htext⟩) ?_
    intro text? htext?
    obtain ⟨text, rfl, htext⟩ := htext?
    exact .some htext
  unfold operatorFormula
  by_cases hundefined : operand.isUndefined = true
  · have hnone : getFinalOperation column schema operator operand context = pure none :=
      if_pos hundefined
    rw [if_pos hundefined, hnone]
    exact .pure .none
  · rw [if_neg hundefined]
    split
    · have hrun : getFinalOperation column schema "isMissing" operand context =
          pure (some (getIsMissingOperation context column operand)) := if_neg hundefined
      rw [hrun]
      exact .pure (.some (means_missing hcolumn hpath operand))
    · have hrun : getFinalOperation column schema "isMissingOrNull" operand context =
          pure (some (getIsMissingOrNullOperation context column operand)) := if_neg hundefined
      rw [hrun]
      exact .pure (.some (means_missingOrNull hcolumn hpath operand))
    · have hrun : getFinalOperation column schema "isIn" operand context =
          some <$> getIsInOperation context column schema operand := if_neg hundefined
      rw [hrun]
      exact (relates_getIsInOperation hcolumn hoperands).map fun _ _ h => .some h
    · rename_i hmissing hmissingOrNull hisIn
      unfold getFinalOperation
      rw [if_neg hundefined]
      split
      · exact .pure (.some (means_isNull hcolumn operand))
      · exact absurd rfl hmissing
      · exact absurd rfl hmissingOrNull
      · exact hcompares (yields_getEqualityOperation hcolumn hoperand
          (.of_symbols ['='] (by decide)) true)
      · exact hcompares (yields_getEqualityOperation hcolumn hoperand
          (.of_symbols ['!', '='] (by decide)) false)
      · exact hcompares (yields_getOrderOperation hcolumn hoperand
          (.of_symbols ['>'] (by decide)))
      · exact hcompares (yields_getOrderOperation hcolumn hoperand
          (.of_symbols ['>', '='] (by decide)))
      · exact hcompares (yields_getOrderOperation hcolumn hoperand
          (.of_symbols ['<'] (by decide)))
      · exact hcompares (yields_getOrderOperation hcolumn hoperand
          (.of_symbols ['<', '='] (by decide)))
      · exact absurd rfl hisIn
      · exact hcompares (yields_getIsBetweenOperation hcolumn hoperands)
      · exact hcompares (yields_getStartsWithOperation hcolumn hoperand)
      · exact hcompares (yields_getContainsOperation hcolumn hoperand)
      · exact .pure .none

end

end Ez4.PgSql

import Ez4.PgClient.RelationFilters

/-! # What filters on relations select

Each subquery refers to the source right above it, whose alias no inner one
takes, so the conditions say what the filters do: all of them, but those that
the condition of a join replaces. -/
namespace Ez4.PgClient.RelationFilters
open Ez4.PgSql

variable {Ω V : Type} {relations : RelationRepository}

/-! ## Conditions -/

theorem both_assoc (a b c : Option Truth) : both (both a b) c = both a (both b c) :=
  (Option.associative_merge (· ⊓ · : Truth → Truth → Truth)).assoc a b c

theorem both_comm (a b : Option Truth) : both a b = both b a :=
  (Option.commutative_merge (· ⊓ · : Truth → Truth → Truth)).comm a b

theorem both_none (a : Option Truth) : both a none = a := Option.merge_none_right

theorem none_both (a : Option Truth) : both none a = a := Option.merge_none_left

theorem both_left_comm (a b c : Option Truth) : both a (both b c) = both b (both a c) := by
  rw [← both_assoc, both_comm a, both_assoc]

/-- What is true besides a test is true with it. -/
theorem satisfied_both (condition : Option Truth) (test : Truth) :
    Satisfied (both condition (some test)) ↔ test = 1 ∧ Satisfied condition := by
  unfold Satisfied both
  cases condition with
  | none => simp
  | some truth =>
    revert truth test
    decide

theorem truthOf_not (holds : Bool) : truthOf (!holds) = -truthOf holds := by
  cases holds <;> rfl

section
variable {database : Database Ω V} {table : String} {record : Record V} {sources : Sources V}

theorem conditionOf_append (first second : List (SqlFilter Ω)) :
    conditionOf database table record sources (first ++ second) =
      both (conditionOf database table record sources first)
        (conditionOf database table record sources second) := by
  induction first with
  | nil => rw [conditionOf, none_both, List.nil_append]
  | cons filter rest ih => rw [List.cons_append, conditionOf, conditionOf, ih, both_assoc]

theorem logicalOf_and_append (first second : List (List (SqlFilter Ω))) :
    logicalOf database table record sources .and (first ++ second) =
      both (logicalOf database table record sources .and first)
        (logicalOf database table record sources .and second) := by
  induction first with
  | nil => rw [logicalOf, none_both, List.nil_append]
  | cons operation rest ih => rw [List.cons_append, logicalOf, logicalOf, ih, both_assoc]

theorem conditionOf_singleton (filter : SqlFilter Ω) :
    conditionOf database table record sources [filter] =
      operationOf database table record sources filter := by
  rw [conditionOf, conditionOf, both_none]

/-- Whether a filter stands under another key than the joined column. -/
def keeps (joined : Option String) (filter : SqlFilter Ω) : Bool := some filter.key ≠ joined

/-- The missing relations are among the conjuncts. -/
theorem conditionOf_appendConjuncts {joined : Option String} (hjoined : joined ≠ some "AND")
    (result : List (SqlFilter Ω)) (missing : List (List (SqlFilter Ω))) :
    conditionOf database table record sources ((appendConjuncts result missing).filter (keeps joined)) =
      both (conditionOf database table record sources (result.filter (keeps joined)))
        (logicalOf database table record sources .and missing) := by
  have hkeeps : ∀ operations : List (List (SqlFilter Ω)),
      keeps joined (.group .and operations) = true :=
    fun operations => decide_eq_true (Ne.symm hjoined)
  induction result with
  | nil =>
    rw [appendConjuncts, List.filter_cons_of_pos (hkeeps _), List.filter_nil, conditionOf_singleton,
      operationOf, conditionOf, none_both]
  | cons current rest ih =>
    have hskip : conditionOf database table record sources
        ((current :: appendConjuncts rest missing).filter (keeps joined)) =
        both (conditionOf database table record sources ((current :: rest).filter (keeps joined)))
          (logicalOf database table record sources .and missing) := by
      by_cases hkept : keeps joined current = true
      · rw [List.filter_cons_of_pos hkept, List.filter_cons_of_pos hkept, conditionOf, conditionOf, ih,
          both_assoc]
      · rw [List.filter_cons_of_neg hkept, List.filter_cons_of_neg hkept, ih]
    cases current with
    | group filterKey operations =>
      cases filterKey with
      | or => exact hskip
      | and =>
        rw [appendConjuncts, List.filter_cons_of_pos (hkeeps _), List.filter_cons_of_pos (hkeeps _),
          conditionOf, conditionOf, operationOf, operationOf, logicalOf_and_append, both_assoc,
          both_assoc, both_comm (logicalOf _ _ _ _ _ missing)]
    | not _ | field _ _ | reference _ _ _ | select _ _ _ _ => exact hskip

theorem conditionOf_finish {joined : Option String} (hjoined : joined ≠ some "AND")
    (collected : Collected Ω) :
    conditionOf database table record sources (collected.finish.filter (keeps joined)) =
      both (conditionOf database table record sources (collected.result.filter (keeps joined)))
        (logicalOf database table record sources .and collected.missingRelations) := by
  unfold Collected.finish
  split
  · rename_i hempty
    rw [List.isEmpty_iff.mp hempty, logicalOf, both_none]
  · exact conditionOf_appendConjuncts hjoined _ _

theorem filter_keeps_none (filters : List (SqlFilter Ω)) : filters.filter (keeps none) = filters :=
  List.filter_eq_self.mpr fun _ _ => rfl

/-- The condition of a join, beside the filters under other keys. -/
theorem conditionOf_assignFilter (filters : List (SqlFilter Ω)) (filter : SqlFilter Ω) :
    conditionOf database table record sources (assignFilter filters filter) =
      both (conditionOf database table record sources (filters.filter (keeps (some filter.key))))
        (operationOf database table record sources filter) := by
  induction filters with
  | nil => rw [assignFilter, conditionOf_singleton, List.filter_nil, conditionOf, none_both]
  | cons current rest ih =>
    rw [assignFilter]
    have hkeeps : keeps (some filter.key) current = decide (current.key ≠ filter.key) := by
      simp [keeps]
    split
    · rename_i hkey
      have hrest : (rest.filter fun other => decide (other.key ≠ filter.key)) =
          rest.filter (keeps (some filter.key)) :=
        List.filter_congr fun other _ => by simp [keeps]
      rw [List.filter_cons_of_neg (by simp [hkeeps, hkey]), conditionOf, hrest, both_comm]
    · rename_i hkey
      rw [List.filter_cons_of_pos (by simp [hkeeps, hkey]), conditionOf, conditionOf, ih, both_assoc]

end

/-! ## Aliases -/

/-- The alias of the source is none that a subquery is still to take. -/
def Apart (scope : SourceScope) : Prop :=
  ∀ name, scope.alias? = some name → ∀ n, scope.aliases "T" ≤ n → name ≠ "T" ++ toString n

/-- What the filters leave of a scope: aliases are taken, and a source that has
one keeps it. -/
structure Follows (scope after : SourceScope) : Prop where
  taken : scope.aliases "T" ≤ after.aliases "T"
  kept : ∀ name, scope.alias? = some name → after.alias? = some name
  apart : Apart scope → Apart after

namespace Follows

theorem refl (scope : SourceScope) : Follows scope scope := ⟨Nat.le_refl _, fun _ h => h, id⟩

theorem trans {scope middle after : SourceScope} (h : Follows scope middle)
    (h' : Follows middle after) : Follows scope after :=
  ⟨h.taken.trans h'.taken, fun name hname => h'.kept name (h.kept name hname),
    fun hapart => h'.apart (h.apart hapart)⟩

end Follows

theorem toString_injective {m n : Nat} (h : toString m = toString n) : m = n := by
  have hvalue : ∀ k : Nat, Nat.ofDigitChars 10 (toString k).toList 0 = k := fun k => by
    rw [Nat.toString_eq_repr, Nat.toList_repr, Nat.ofDigitChars_ten_toDigits]
  rw [← hvalue m, h, hvalue n]

theorem sourceAlias_ne (rest rest' : String) : "R" ++ rest ≠ "T" ++ rest' := by
  intro heq
  have hlist := congrArg String.toList heq
  rw [String.toList_append, String.toList_append] at hlist
  exact absurd (List.cons.inj hlist).1 (by decide)

/-- A source gets an alias of its own kind. -/
theorem named_follows (scope : SourceScope) :
    Follows scope scope.named.2 ∧ scope.named.2.alias? = some scope.named.1 := by
  unfold SourceScope.named
  cases halias : scope.alias? with
  | some name => exact ⟨.refl scope, halias⟩
  | none =>
    refine ⟨⟨?_, ?_, ?_⟩, rfl⟩
    · show scope.aliases "T" ≤ if "T" = "R" then scope.aliases "R" + 1 else scope.aliases "T"
      rw [if_neg (by decide)]
    · intro name hname
      rw [halias] at hname
      cases hname
    · intro _ name hname n _
      obtain rfl := Option.some.inj hname
      exact sourceAlias_ne _ _

theorem unique_taken (aliases : String → Nat) :
    (SourceScope.unique aliases "T").2 "T" = aliases "T" + 1 := by
  show (if "T" = "T" then aliases "T" + 1 else aliases "T") = aliases "T" + 1
  rw [if_pos rfl]

/-- The alias of a subquery is none that another one takes after it. -/
theorem apart_subquery (scope : SourceScope) (after : String → Nat)
    (h : scope.aliases "T" + 1 ≤ after "T") :
    Apart { aliases := after, alias? := some (SourceScope.unique scope.aliases "T").1 } := by
  intro name hname n hn heq
  obtain rfl := Option.some.inj hname
  have hsame := toString_injective ((String.append_right_inj "T").mp heq)
  dsimp only at hn
  omega

/-- The alias of a subquery, and those given by then. -/
def subqueryAlias (scope : SourceScope) : String := (SourceScope.unique scope.aliases "T").1

/-- The scope of a record whose relation is filtered. -/
def referredScope (scope : SourceScope) : String × SourceScope :=
  SourceScope.named { scope with aliases := (SourceScope.unique scope.aliases "T").2 }

/-- The filters of the subquery, and the aliases given after them. -/
def subqueryFilters (relations : RelationRepository) (relation : PgRelation) (value : FilterValue Ω) (scope : SourceScope) :
    List (SqlFilter Ω) × (String → Nat) :=
  relatedFilters relations relation.sourceTable value
    { (referredScope scope).2 with alias? := some (subqueryAlias scope) }

theorem collectFilter_relation {path filterKey : String} {relation : PgRelation}
    (h : relations (fieldPath path filterKey) = some relation) (value : FilterValue Ω)
    (scope : SourceScope) :
    collectFilter relations path (.field filterKey value) scope =
      let relationQuery := .select filterKey relation.sourceTable (subqueryAlias scope)
        (assignFilter (subqueryFilters relations relation value scope).1
          (.reference relation.sourceColumn (referredScope scope).1 relation.targetColumn))
      (match value with
        | .null => { missingRelations := [[.not [relationQuery]]] }
        | _ => { result := [relationQuery] },
        { (referredScope scope).2 with
          aliases := (subqueryFilters relations relation value scope).2 }) := by
  rw [collectFilter, h]
  cases value <;> rfl

theorem referredScope_follows (scope : SourceScope) :
    Follows scope (referredScope scope).2 ∧
      (referredScope scope).2.alias? = some (referredScope scope).1 := by
  have htaken : Follows scope { scope with aliases := (SourceScope.unique scope.aliases "T").2 } := by
    refine ⟨?_, fun _ h => h, fun hapart name hname n hn => hapart name hname n ?_⟩
    · exact (Nat.le_succ _).trans (Nat.le_of_eq (unique_taken _).symm)
    · have hn : (SourceScope.unique scope.aliases "T").2 "T" ≤ n := hn
      rw [unique_taken] at hn
      omega
  obtain ⟨hnamed, halias⟩ := named_follows
    { scope with aliases := (SourceScope.unique scope.aliases "T").2 }
  exact ⟨htaken.trans hnamed, halias⟩

/-- The level above a subquery has another alias. -/
theorem referredScope_ne {scope : SourceScope} (hapart : Apart scope) :
    (referredScope scope).1 ≠ subqueryAlias scope := by
  unfold referredScope subqueryAlias SourceScope.named
  cases halias : scope.alias? with
  | some name => exact hapart name halias _ (Nat.le_refl _)
  | none => exact sourceAlias_ne _ _

mutual

theorem follows_filters (relations : RelationRepository) (path : String) (filters : List (Filter Ω)) (scope : SourceScope) :
    Follows scope (collectFilters relations path filters scope).2 := by
  match filters with
  | [] => exact .refl scope
  | filter :: rest =>
    exact (follows_filter relations path filter scope).trans (follows_filters relations path rest _)

theorem follows_filter (relations : RelationRepository) (path : String) (filter : Filter Ω) (scope : SourceScope) :
    Follows scope (collectFilter relations path filter scope).2 := by
  match filter with
  | .skipped _ => exact .refl scope
  | .group _ operations => exact follows_operations relations path operations scope
  | .not filters => exact follows_filters relations path filters scope
  | .field filterKey value =>
    cases hrelation : relations (fieldPath path filterKey) with
    | none =>
      rw [collectFilter, hrelation]
      exact .refl scope
    | some relation =>
      rw [collectFilter_relation hrelation]
      have hinner := follows_related relations relation.sourceTable value
        { (referredScope scope).2 with alias? := some (subqueryAlias scope) }
      refine (referredScope_follows scope).1.trans ⟨hinner, fun _ h => h, ?_⟩
      exact fun hapart name hname n hn => hapart name hname n (hinner.trans hn)

theorem follows_related (relations : RelationRepository) (path : String) (value : FilterValue Ω) (scope : SourceScope) :
    scope.aliases "T" ≤ (relatedFilters relations path value scope).2 "T" := by
  match value with
  | .object filters => exact (follows_filters relations path filters scope).taken
  | .null | .operand _ => exact Nat.le_refl _

theorem follows_operations (relations : RelationRepository) (path : String) (operations : List (List (Filter Ω)))
    (scope : SourceScope) : Follows scope (collectOperations relations path operations scope).2 := by
  match operations with
  | [] => exact .refl scope
  | operation :: rest =>
    exact (follows_filters relations path operation scope).trans (follows_operations relations path rest _)

end

/-! ## The conditions say what the filters do -/

section
variable (database : Database Ω V) (path : String) (record : Record V) (sources : Sources V)

/-- What the keys of an object came to, but for the one of the joined column. -/
def collectedMeaning (joined : Option String) (collected : Collected Ω) : Option Truth :=
  both (conditionOf database path record sources (collected.result.filter (keeps joined)))
    (logicalOf database path record sources .and collected.missingRelations)

variable {database path record sources} {joined : Option String}

theorem collectedMeaning_append (first others : Collected Ω) :
    collectedMeaning database path record sources joined
      { result := first.result ++ others.result
        missingRelations := first.missingRelations ++ others.missingRelations } =
      both (collectedMeaning database path record sources joined first)
        (collectedMeaning database path record sources joined others) := by
  unfold collectedMeaning
  rw [List.filter_append, conditionOf_append, logicalOf_and_append, both_assoc, both_assoc,
    both_left_comm (conditionOf _ _ _ _ (others.result.filter _))]

theorem collectedMeaning_empty :
    collectedMeaning database path record sources joined {} = none := by
  rw [collectedMeaning, List.filter_nil, conditionOf, logicalOf, none_both]

/-- One filter of the result, unless it is under the name of the joined column. -/
theorem collectedMeaning_single (filter : SqlFilter Ω) :
    collectedMeaning database path record sources joined { result := [filter] } =
      if joined.isSome ∧ some filter.key = joined then none
      else operationOf database path record sources filter := by
  unfold collectedMeaning
  by_cases hkey : some filter.key = joined
  · rw [if_pos ⟨hkey ▸ rfl, hkey⟩, List.filter_cons_of_neg (by simp [keeps, hkey]), List.filter_nil,
      conditionOf, logicalOf, none_both]
  · rw [if_neg fun h => hkey h.2, List.filter_cons_of_pos (by simp [keeps, hkey]), List.filter_nil,
      conditionOf_singleton, logicalOf, both_none]

theorem collectedMeaning_missing (filters : List (SqlFilter Ω)) :
    collectedMeaning database path record sources joined { missingRelations := [filters] } =
      conditionOf database path record sources filters := by
  rw [collectedMeaning, List.filter_nil, conditionOf, none_both, logicalOf, logicalOf]
  exact both_none _

theorem conditionOf_finish_all (collected : Collected Ω) :
    conditionOf database path record sources collected.finish =
      collectedMeaning database path record sources none collected := by
  rw [← filter_keeps_none collected.finish, conditionOf_finish (by simp), collectedMeaning]

/-- A subquery finds the related records that satisfy its filters. -/
theorem operationOf_subquery (path : String) {scope : SourceScope} (hapart : Apart scope) {relation : PgRelation}
    {filters : List (SqlFilter Ω)} {meaning : Record V → Option Truth} (outer : Sources V)
    (filterKey : String)
    (hfilters : ∀ related, conditionOf database relation.sourceTable related
        ((some (subqueryAlias scope), related) :: (some (referredScope scope).1, record) :: outer)
        (filters.filter (keeps (some relation.sourceColumn))) = meaning related) :
    operationOf database path record ((some (referredScope scope).1, record) :: outer)
      (.select filterKey relation.sourceTable (subqueryAlias scope)
        (assignFilter filters
          (.reference relation.sourceColumn (referredScope scope).1 relation.targetColumn))) =
      some (truthOf ((database.records relation.sourceTable).any fun related =>
        Related database relation record related ∧ Satisfied (meaning related))) := by
  rw [operationOf]
  refine congrArg some (congrArg truthOf (congrArg _ (funext fun related => decide_eq_decide.mpr ?_)))
  have hread : Sources.read
      ((some (subqueryAlias scope), related) :: (some (referredScope scope).1, record) :: outer)
      (referredScope scope).1 relation.targetColumn = some (record relation.targetColumn) := by
    have hne : some (subqueryAlias scope) ≠ some (referredScope scope).1 :=
      fun heq => referredScope_ne hapart (Option.some.inj heq).symm
    rw [Sources.read, List.find?_cons_of_neg (by simpa using hne), List.find?_cons_of_pos (by simp)]
    rfl
  rw [conditionOf_assignFilter, SqlFilter.key, hfilters, operationOf, hread]
  exact satisfied_both _ _

end

/-- No joined column has the name of a group. -/
def JoinsColumns (relations : RelationRepository) : Prop :=
  ∀ path relation, relations path = some relation → relation.sourceColumn ∉ logicalKeys

section
variable {database : Database Ω V}

theorem writtenKey_column {path filterKey : String} (h : relations (fieldPath path filterKey) = none)
    (value : FilterValue Ω) : writtenKey relations path (.field filterKey value) = some filterKey := by
  simp only [writtenKey, h]

theorem writtenKey_relation {path filterKey : String} {relation : PgRelation}
    (h : relations (fieldPath path filterKey) = some relation) (value : FilterValue Ω) :
    writtenKey relations path (.field filterKey value) =
      match value with
      | .null => none
      | _ => some filterKey := by
  cases value <;> simp only [writtenKey, h]

mutual

theorem means_filters (hjoins : JoinsColumns relations) (path : String) (joined : Option String)
    (hjoined : joined ≠ some "AND") (filters : List (Filter Ω)) {scope : SourceScope} (hapart : Apart scope) {alias? : Option String}
    (halias : ∀ name, (collectFilters relations path filters scope).2.alias? = some name →
      alias? = some name) (record : Record V) (outer : Sources V) :
    collectedMeaning database path record ((alias?, record) :: outer) joined
        (collectFilters relations path filters scope).1 =
      meaningOf database relations path record (omitJoins relations path joined filters) := by
  match filters with
  | [] => exact collectedMeaning_empty
  | filter :: rest =>
    have hfollows := follows_filter relations path filter scope
    have hothers := means_filters hjoins path joined hjoined rest (hfollows.apart hapart) halias record outer
    have hfirst := means_filter hjoins path joined filter hapart (fun name hname =>
      halias name ((follows_filters relations path rest _).kept name hname)) record outer
    rw [collectFilters, omitJoins]
    refine (collectedMeaning_append _ _).trans ?_
    rw [hfirst, hothers]
    split
    · exact none_both _
    · rw [meaningOf]

theorem means_filter (hjoins : JoinsColumns relations) (path : String) (joined : Option String)
    (filter : Filter Ω) {scope : SourceScope} (hapart : Apart scope) {alias? : Option String}
    (halias : ∀ name, (collectFilter relations path filter scope).2.alias? = some name →
      alias? = some name) (record : Record V) (outer : Sources V) :
    collectedMeaning database path record ((alias?, record) :: outer) joined
        (collectFilter relations path filter scope).1 =
      if joined.isSome ∧ writtenKey relations path filter = joined then none
      else filterMeaning database relations path record (omitJoin relations path filter) := by
  match filter with
  | .skipped _ =>
    have hnot : ¬(joined.isSome ∧ none = joined) := fun ⟨hsome, hnone⟩ => by simp [← hnone] at hsome
    rw [writtenKey, if_neg hnot, omitJoin, filterMeaning]
    exact collectedMeaning_empty
  | .group filterKey operations =>
    rw [writtenKey, omitJoin, filterMeaning]
    refine (collectedMeaning_single _).trans ?_
    rw [operationOf, means_operations hjoins path filterKey operations hapart halias record outer]
    rfl
  | .not filters =>
    rw [writtenKey, omitJoin, filterMeaning]
    refine (collectedMeaning_single _).trans ?_
    rw [operationOf, conditionOf_finish_all,
      means_filters hjoins path none (by simp) filters hapart halias record outer]
    rfl
  | .field filterKey value =>
    cases hrelation : relations (fieldPath path filterKey) with
    | none =>
      rw [writtenKey_column hrelation, collectFilter, hrelation, omitJoin, hrelation, filterMeaning,
        hrelation]
      refine (collectedMeaning_single _).trans ?_
      rw [operationOf]
      rfl
    | some relation =>
      rw [collectFilter_relation hrelation] at halias ⊢
      obtain rfl := halias _ (referredScope_follows scope).2
      have hquery := operationOf_subquery path hapart outer filterKey fun related =>
        means_related hjoins relation (hjoins _ _ hrelation) value related
          ((some (referredScope scope).1, record) :: outer)
      rw [writtenKey_relation hrelation, omitJoin, hrelation, filterMeaning, hrelation]
      cases value with
      | null =>
        have hnot : ¬(joined.isSome ∧ none = joined) :=
          fun ⟨hsome, hnone⟩ => by simp [← hnone] at hsome
        rw [if_neg hnot]
        refine (collectedMeaning_missing _).trans ?_
        rw [conditionOf_singleton, operationOf, conditionOf_singleton, hquery, Option.map_some,
          ← truthOf_not]
        rfl
      | object filters =>
        refine (collectedMeaning_single _).trans ?_
        rw [hquery]
        rfl
      | operand operand =>
        refine (collectedMeaning_single _).trans ?_
        rw [hquery]
        rfl

/-- The filters of a subquery, but for the one under the name of the joined
column, say what the object does without it. -/
theorem means_related (hjoins : JoinsColumns relations) (relation : PgRelation)
    (hcolumn : relation.sourceColumn ∉ logicalKeys) (value : FilterValue Ω) {scope : SourceScope} (related : Record V) (outer : Sources V) :
    conditionOf database relation.sourceTable related
        ((some (subqueryAlias scope), related) :: outer)
        ((subqueryFilters relations relation value scope).1.filter
          (keeps (some relation.sourceColumn))) =
      relatedMeaning database relations relation.sourceTable related
        (omitRelated relations relation value) := by
  match value with
  | .object filters =>
    have hjoined : some relation.sourceColumn ≠ some "AND" :=
      fun heq => hcolumn (Option.some.inj heq ▸ List.mem_cons_self)
    have htaken : scope.aliases "T" + 1 ≤ (referredScope scope).2.aliases "T" := by
      have hnamed := (named_follows
        { scope with aliases := (SourceScope.unique scope.aliases "T").2 }).1.taken
      exact (Nat.le_of_eq (unique_taken scope.aliases).symm).trans hnamed
    rw [omitRelated, relatedMeaning]
    refine (conditionOf_finish hjoined _).trans ?_
    refine means_filters hjoins relation.sourceTable _ hjoined filters (apart_subquery scope _ htaken) ?_
      related outer
    intro name hname
    rw [(follows_filters relations relation.sourceTable filters _).kept _ rfl] at hname
    exact hname
  | .null | .operand _ => rfl

theorem means_operations (hjoins : JoinsColumns relations) (path : String) (filterKey : GroupKey)
    (operations : List (List (Filter Ω))) {scope : SourceScope} (hapart : Apart scope)
    {alias? : Option String}
    (halias : ∀ name, (collectOperations relations path operations scope).2.alias? = some name →
      alias? = some name) (record : Record V) (outer : Sources V) :
    logicalOf database path record ((alias?, record) :: outer) filterKey
        (collectOperations relations path operations scope).1 =
      groupMeaning database relations path record filterKey (omitEach relations path operations) := by
  match operations with
  | [] => rfl
  | operation :: rest =>
    have hfollows := follows_filters relations path operation scope
    have hothers := means_operations hjoins path filterKey rest (hfollows.apart hapart) halias record outer
    have hfirst := means_filters hjoins path none (by simp) operation hapart (fun name hname =>
      halias name ((follows_operations relations path rest _).kept name hname)) record outer
    rw [collectOperations, omitEach]
    cases filterKey <;>
      rw [logicalOf, groupMeaning, conditionOf_finish_all, hfirst, hothers]

end

/-- **A record is selected when the filters hold for it**, but for those that the
condition of a join replaces. -/
theorem selected_iff_holds (hjoins : JoinsColumns relations) (table : String)
    (filters : List (Filter Ω)) (scope : SourceScope) (hapart : Apart scope) (record : Record V) :
    Selected database table (getSelectFilters relations table filters scope).2.alias? record
        (getSelectFilters relations table filters scope).1 ↔
      Holds database relations table record (omitJoins relations table none filters) := by
  unfold Selected Holds
  rw [← means_filters hjoins table none (by simp) filters hapart (fun _ h => h) record [],
    ← conditionOf_finish_all]
  rfl

end

/-! ## Samples -/

namespace Sample

/-- Records of `table_a` refer to ones of `table_b`, and so do those of `table_c`. -/
def repository : RelationRepository := fun path =>
  if path = "table_a.relation_1" then
    some { sourceTable := "table_b", sourceColumn := "id_b", targetColumn := "relation_1_id" }
  else if path = "table_b.relation" then
    some { sourceTable := "table_c", sourceColumn := "unique_1_id", targetColumn := "id_b" }
  else none

theorem repository_joins : JoinsColumns repository := by
  intro path relation h
  unfold repository at h
  split at h
  · obtain rfl := Option.some.inj h
    decide
  · split at h
    · obtain rfl := Option.some.inj h
      decide
    · cases h

def recordOf (fields : List (String × Nat)) : Record Nat := fun column =>
  ((fields.find? fun field => field.1 = column).map Prod.snd).getD 0

/-- Two records of `table_b`, of which a record of `table_c` refers to the first. -/
def database : Database Nat Nat where
  records table :=
    if table = "table_b" then [recordOf [("id_b", 1)], recordOf [("id_b", 2)]]
    else if table = "table_c" then [recordOf [("unique_1_id", 1), ("value", 5)]]
    else []
  equal value other := truthOf (value = other)
  compare _ filterKey value :=
    match value with
    | .operand operand => some fun record => truthOf (record filterKey = operand)
    | _ => none

/-- It refers to the first record. -/
def record : Record Nat := recordOf [("relation_1_id", 1)]

def scope : SourceScope := { aliases := fun _ => 0, alias? := none }

/-- Those that refer to the second record, by the column of the join. -/
def joinFiltered : List (Filter Nat) :=
  [.field "relation_1" (.object [.field "id_b" (.operand 2)])]

/-- The filter on the joined column is replaced: a record is selected for which
the filters do not hold. -/
theorem joined_column_replaced :
    Selected database "table_a" (getSelectFilters repository "table_a" joinFiltered scope).2.alias?
        record (getSelectFilters repository "table_a" joinFiltered scope).1 ∧
      ¬Holds database repository "table_a" record joinFiltered := by
  constructor <;> decide

/-- Filters under `OR` and `NOT`, on two levels of relations. -/
def nestedFilters : List (Filter Nat) :=
  [.not [.field "relation_1" .null],
    .field "relation_1" (.object
      [.group .or [[.field "relation" (.object [.field "value" (.operand 5)])],
        [.field "relation" .null, .field "id_b" (.operand 2)]]])]

theorem nested_selected :
    (∀ name, scope.alias? = some name → ∀ n, scope.aliases "T" ≤ n → name ≠ "T" ++ toString n) ∧
      Selected database "table_a"
        (getSelectFilters repository "table_a" nestedFilters scope).2.alias? record
        (getSelectFilters repository "table_a" nestedFilters scope).1 := by
  have hapart : Apart scope := fun name h => by cases h
  exact ⟨hapart, (selected_iff_holds repository_joins "table_a" nestedFilters scope hapart record).mpr
    (by decide)⟩

end Sample

end Ez4.PgClient.RelationFilters

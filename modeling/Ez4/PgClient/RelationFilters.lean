import Mathlib.Data.Sign.Defs
import Ez4.PgSql.Text

/-! # Filters on relations

`getSelectFilters` (`queries/select.ts`): a filter on a relation becomes a
subquery on the related table. Beside it, what the conditions made of these
filters say of a record, and what the filters say of it by themselves. -/
namespace Ez4.PgClient.RelationFilters
open Ez4.PgSql

/-! ## Filters -/

/-- `AND` and `OR` -/
inductive GroupKey
  | and
  | or
  deriving DecidableEq

def GroupKey.text : GroupKey → String
  | and => "AND"
  | or => "OR"

mutual

/-- A key of an object of filters, with its value. The keys of an object differ,
and stand in their order. `Ω` is the type of the operands that are compared with. -/
inductive Filter (Ω : Type)
  /-- A key whose value is undefined. -/
  | skipped (filterKey : String)
  | group (filterKey : GroupKey) (operations : List (List (Filter Ω)))
  | not (filters : List (Filter Ω))
  | field (filterKey : String) (value : FilterValue Ω)

inductive FilterValue (Ω : Type)
  | null
  | object (filters : List (Filter Ω))
  | operand (operand : Ω)

end

/-- `PgRelationWithSchema`, with what a filter reads of it. -/
structure PgRelation where
  sourceTable : String
  sourceColumn : String
  targetColumn : String
  deriving DecidableEq

/-- `PgRelationRepositoryWithSchema`, by the path of the relation. -/
abbrev RelationRepository := String → Option PgRelation

/-- `${path}.${filterKey}` -/
def fieldPath (path filterKey : String) : String := path ++ "." ++ filterKey

/-! ## `getSelectFilters` -/

/-- The filters of a statement. -/
inductive SqlFilter (Ω : Type)
  | group (filterKey : GroupKey) (operations : List (List (SqlFilter Ω)))
  | not (filters : List (SqlFilter Ω))
  /-- A filter on a column, as it was given. -/
  | field (filterKey : String) (value : FilterValue Ω)
  /-- A column of the source with this alias. -/
  | reference (filterKey : String) (sourceAlias column : String)
  /-- `SELECT 1 FROM table AS alias WHERE filters` -/
  | select (filterKey : String) (table tableAlias : String) (filters : List (SqlFilter Ω))

variable {Ω V : Type}

def SqlFilter.key : SqlFilter Ω → String
  | group filterKey _ => filterKey.text
  | not _ => "NOT"
  | field filterKey _ | reference filterKey _ _ | select filterKey _ _ _ => filterKey

/-- `{ ...filters, [filter.key]: filter.value }` -/
def assignFilter (filters : List (SqlFilter Ω)) (filter : SqlFilter Ω) : List (SqlFilter Ω) :=
  match filters with
  | [] => [filter]
  | current :: rest =>
    if current.key = filter.key then filter :: rest.filter fun other => other.key ≠ filter.key
    else current :: assignFilter rest filter

/-- `result.AND = [...(result.AND ?? []), ...missingRelations]` -/
def appendConjuncts (result : List (SqlFilter Ω)) (missingRelations : List (List (SqlFilter Ω))) :
    List (SqlFilter Ω) :=
  match result with
  | [] => [.group .and missingRelations]
  | .group .and operations :: rest => .group .and (operations ++ missingRelations) :: rest
  | current :: rest => current :: appendConjuncts rest missingRelations

/-- The aliases that the builder has given, and the alias of the source. -/
structure SourceScope where
  aliases : String → Nat
  alias? : Option String

/-- `builder.alias` -/
def SourceScope.unique (aliases : String → Nat) (name : String) : String × (String → Nat) :=
  (name ++ toString (aliases name),
    fun other => if other = name then aliases name + 1 else aliases other)

/-- It gives the aliases that `getUniqueAlias` does. -/
theorem getUniqueAlias_eq {W : Type} (name : String) (scope : Scope W) :
    (getUniqueAlias name).run scope = .ok ((SourceScope.unique scope.aliases name).1,
      { scope with aliases := (SourceScope.unique scope.aliases name).2 }) := rfl

/-- `if (!source.alias) source.as(builder.alias('R'))` -/
def SourceScope.named (scope : SourceScope) : String × SourceScope :=
  match scope.alias? with
  | some name => (name, scope)
  | none =>
    let (name, aliases) := unique scope.aliases "R"
    (name, { aliases, alias? := some name })

/-- What the keys came to: the filters of the result, and those of the missing
relations. -/
structure Collected (Ω : Type) where
  result : List (SqlFilter Ω) := []
  missingRelations : List (List (SqlFilter Ω)) := []

/-- The end of `getSelectFilters`. -/
def Collected.finish (collected : Collected Ω) : List (SqlFilter Ω) :=
  if collected.missingRelations.isEmpty then collected.result
  else appendConjuncts collected.result collected.missingRelations

section
variable (relations : RelationRepository)

mutual

/-- The keys of an object, one after another. -/
def collectFilters (path : String) (filters : List (Filter Ω)) (scope : SourceScope) :
    Collected Ω × SourceScope :=
  match filters with
  | [] => ({}, scope)
  | filter :: rest =>
    let (first, scope) := collectFilter path filter scope
    let (others, scope) := collectFilters path rest scope
    ({ result := first.result ++ others.result
       missingRelations := first.missingRelations ++ others.missingRelations }, scope)

def collectFilter (path : String) (filter : Filter Ω) (scope : SourceScope) :
    Collected Ω × SourceScope :=
  match filter with
  | .skipped _ => ({}, scope)
  | .group filterKey operations =>
    let (operations, scope) := collectOperations path operations scope
    ({ result := [.group filterKey operations] }, scope)
  | .not filters =>
    let (collected, scope) := collectFilters path filters scope
    ({ result := [.not collected.finish] }, scope)
  | .field filterKey value =>
    match relations (fieldPath path filterKey) with
    | none => ({ result := [.field filterKey value] }, scope)
    | some fieldRelation =>
      let (tableAlias, aliases) := SourceScope.unique scope.aliases "T"
      let (sourceAlias, scope) := SourceScope.named { scope with aliases }
      let (filters, aliases) := relatedFilters fieldRelation.sourceTable value
        { scope with alias? := some tableAlias }
      let relationQuery := SqlFilter.select filterKey fieldRelation.sourceTable tableAlias
        (assignFilter filters
          (.reference fieldRelation.sourceColumn sourceAlias fieldRelation.targetColumn))
      let scope := { scope with aliases }
      match value with
      | .null => ({ missingRelations := [[.not [relationQuery]]] }, scope)
      | _ => ({ result := [relationQuery] }, scope)

/-- The filters of a relation, in a subquery with an alias of its own. Types allow
objects and null; a number or a boolean has no keys either. -/
def relatedFilters (path : String) (value : FilterValue Ω) (scope : SourceScope) :
    List (SqlFilter Ω) × (String → Nat) :=
  match value with
  | .object filters =>
    let (collected, inner) := collectFilters path filters scope
    (collected.finish, inner.aliases)
  | .null | .operand _ => ([], scope.aliases)

/-- The items of a group. -/
def collectOperations (path : String) (operations : List (List (Filter Ω))) (scope : SourceScope) :
    List (List (SqlFilter Ω)) × SourceScope :=
  match operations with
  | [] => ([], scope)
  | operation :: rest =>
    let (collected, scope) := collectFilters path operation scope
    let (others, scope) := collectOperations path rest scope
    (collected.finish :: others, scope)

end

def getSelectFilters (path : String) (filters : List (Filter Ω)) (scope : SourceScope) :
    List (SqlFilter Ω) × SourceScope :=
  let (collected, scope) := collectFilters relations path filters scope
  (collected.finish, scope)

end

/-! ## Meanings

A condition is a truth of SQL, and filters without any condition have none. -/

/-- False, unknown and true. -/
abbrev Truth := SignType

def both : Option Truth → Option Truth → Option Truth := Option.merge (· ⊓ ·)

def either : Option Truth → Option Truth → Option Truth := Option.merge (· ⊔ ·)

/-- A record is selected when its conditions are true. -/
def Satisfied (condition : Option Truth) : Prop := condition.getD 1 = 1

instance (condition : Option Truth) : Decidable (Satisfied condition) :=
  inferInstanceAs (Decidable (_ = _))

def truthOf (holds : Bool) : Truth := if holds then 1 else -1

abbrev Record (V : Type) := String → V

/-- The tables, what makes two values equal, and what a filter on a column of a
table says of a record. -/
structure Database (Ω V : Type) where
  records : String → List (Record V)
  equal : V → V → Truth
  compare : String → String → FilterValue Ω → Option (Record V → Truth)

section
variable (database : Database Ω V)

/-- The sources that a condition sees, the innermost first. -/
abbrev Sources (V : Type) := List (Option String × Record V)

/-- What a reference reads: a name that no source has fails the statement, and
is nothing here. -/
def Sources.read (sources : Sources V) (sourceAlias column : String) : Option V :=
  (sources.find? fun source => source.1 = some sourceAlias).map fun source => source.2 column

mutual

/-- What `SqlConditions` makes of filters, for the innermost source. -/
def conditionOf (table : String) (record : Record V) (sources : Sources V)
    (filters : List (SqlFilter Ω)) : Option Truth :=
  match filters with
  | [] => none
  | filter :: rest =>
    both (operationOf table record sources filter) (conditionOf table record sources rest)

/-- `getFieldOperation` -/
def operationOf (table : String) (record : Record V) (sources : Sources V) (filter : SqlFilter Ω) :
    Option Truth :=
  match filter with
  | .group filterKey operations => logicalOf table record sources filterKey operations
  | .not filters => (conditionOf table record sources filters).map Neg.neg
  | .field filterKey value => (database.compare table filterKey value).map fun holds => holds record
  | .reference filterKey sourceAlias column =>
    some (match sources.read sourceAlias column with
      | some value => database.equal (record filterKey) value
      | none => 0)
  | .select _ source tableAlias filters =>
    some (truthOf ((database.records source).any fun related =>
      Satisfied (conditionOf source related ((some tableAlias, related) :: sources) filters)))

/-- `getLogicalOperations` -/
def logicalOf (table : String) (record : Record V) (sources : Sources V) (filterKey : GroupKey)
    (operations : List (List (SqlFilter Ω))) : Option Truth :=
  match operations with
  | [] => none
  | operation :: rest =>
    (match filterKey with | .and => both | .or => either)
      (conditionOf table record sources operation) (logicalOf table record sources filterKey rest)

end

/-- The record is selected, under the alias that its source has. -/
def Selected (table : String) (alias? : Option String) (record : Record V)
    (filters : List (SqlFilter Ω)) : Prop :=
  Satisfied (conditionOf database table record [(alias?, record)] filters)

instance (table : String) (alias? : Option String) (record : Record V) (filters : List (SqlFilter Ω)) :
    Decidable (Selected database table alias? record filters) :=
  inferInstanceAs (Decidable (Satisfied _))

/-! ## What filters say -/

/-- A record of the related table, joined by the columns of the relation. -/
def Related (relation : PgRelation) (record related : Record V) : Prop :=
  database.equal (related relation.sourceColumn) (record relation.targetColumn) = 1

instance (relation : PgRelation) (record related : Record V) :
    Decidable (Related database relation record related) :=
  inferInstanceAs (Decidable (_ = _))

variable (relations : RelationRepository)

mutual

/-- What the filters say of a record, if they say anything. -/
def meaningOf (table : String) (record : Record V) (filters : List (Filter Ω)) : Option Truth :=
  match filters with
  | [] => none
  | filter :: rest => both (filterMeaning table record filter) (meaningOf table record rest)

def filterMeaning (table : String) (record : Record V) (filter : Filter Ω) : Option Truth :=
  match filter with
  | .skipped _ => none
  | .group filterKey operations => groupMeaning table record filterKey operations
  | .not filters => (meaningOf table record filters).map Neg.neg
  | .field filterKey value =>
    match relations (fieldPath table filterKey) with
    | none => (database.compare table filterKey value).map fun holds => holds record
    | some relation =>
      -- some related record satisfies the whole object; none is there for null
      let found := (database.records relation.sourceTable).any fun related =>
        Related database relation record related ∧
          Satisfied (relatedMeaning relation.sourceTable related value)
      match value with
      | .null => some (truthOf !found)
      | _ => some (truthOf found)

def relatedMeaning (table : String) (record : Record V) (value : FilterValue Ω) : Option Truth :=
  match value with
  | .object filters => meaningOf table record filters
  | .null | .operand _ => none

def groupMeaning (table : String) (record : Record V) (filterKey : GroupKey)
    (operations : List (List (Filter Ω))) : Option Truth :=
  match operations with
  | [] => none
  | operation :: rest =>
    (match filterKey with | .and => both | .or => either)
      (meaningOf table record operation) (groupMeaning table record filterKey rest)

end

def Holds (table : String) (record : Record V) (filters : List (Filter Ω)) : Prop :=
  Satisfied (meaningOf database relations table record filters)

instance (table : String) (record : Record V) (filters : List (Filter Ω)) :
    Decidable (Holds database relations table record filters) :=
  inferInstanceAs (Decidable (Satisfied _))

end

/-! ## Filters on the joined columns -/

def logicalKeys : List String := ["AND", "OR", "NOT"]

section
variable (relations : RelationRepository)

/-- The key under which a filter stands in the result. -/
def writtenKey (path : String) (filter : Filter Ω) : Option String :=
  match filter with
  | .skipped _ => none
  | .group filterKey _ => some filterKey.text
  | .not _ => some "NOT"
  | .field filterKey value =>
    match relations (fieldPath path filterKey), value with
    | some _, .null => none
    | _, _ => some filterKey

mutual

/-- The filters without those that the condition of a join replaces: in the
object of a relation, the one under the name of the joined column. -/
def omitJoins (path : String) (joined : Option String) (filters : List (Filter Ω)) :
    List (Filter Ω) :=
  match filters with
  | [] => []
  | filter :: rest =>
    if joined.isSome ∧ writtenKey relations path filter = joined then omitJoins path joined rest
    else omitJoin path filter :: omitJoins path joined rest

def omitJoin (path : String) (filter : Filter Ω) : Filter Ω :=
  match filter with
  | .skipped filterKey => .skipped filterKey
  | .group filterKey operations => .group filterKey (omitEach path operations)
  | .not filters => .not (omitJoins path none filters)
  | .field filterKey value =>
    match relations (fieldPath path filterKey) with
    | none => .field filterKey value
    | some relation => .field filterKey (omitRelated relation value)

def omitRelated (relation : PgRelation) (value : FilterValue Ω) : FilterValue Ω :=
  match value with
  | .object filters => .object (omitJoins relation.sourceTable (some relation.sourceColumn) filters)
  | .null => .null
  | .operand operand => .operand operand

def omitEach (path : String) (operations : List (List (Filter Ω))) : List (List (Filter Ω)) :=
  match operations with
  | [] => []
  | operation :: rest => omitJoins path none operation :: omitEach path rest

end

end

end Ez4.PgClient.RelationFilters

import Ez4.Library.Except
import Ez4.PgClient.Cursor

/-! # The condition of a cursor

The rows that meet the condition of a cursor are those after its position, in
the order the condition was made for. -/
namespace Ez4.PgClient
open Ez4.Library Ez4.Utils

variable {V : Type}

/-! ## Row comparisons -/

section RowComparison

variable {pg : Postgres V} {p r : Row V} {order : SqlOrder}

/-- The cells of the columns of an order, each with that of the position. -/
def positionCells (pg : Postgres V) (order : SqlOrder) (p r : Row V) :
    List (Criterion V × V × V) :=
  order.map fun e => (pg.compare e.1, r e.1, p e.1)

theorem orderCriterion_same (e : String × Direction) :
    (orderCriterion pg e).same p r = (pg.compare e.1).same (r e.1) (p e.1) := by
  obtain ⟨column, direction⟩ := e
  cases direction with
  | asc => exact Bool.and_comm _ _
  | desc => rfl

theorem orderCriterion_before (e : String × Direction) :
    (orderCriterion pg e).before p r = e.2.operator.strict (pg.compare e.1) (r e.1) (p e.1) := by
  obtain ⟨column, direction⟩ := e
  cases direction <;> rfl

theorem rowCompare_positionCells {direction : Direction}
    (h : ∀ e ∈ order, e.2 = direction) :
    rowCompare direction.operator (positionCells pg order p r) =
      lexBefore (rowCriteria pg order) p r := by
  induction order with
  | nil => cases direction <;> rfl
  | cons e rest ih =>
    have hrest := ih fun x hx => h x (List.mem_cons_of_mem _ hx)
    have he : e.2 = direction := h e List.mem_cons_self
    simp only [positionCells, List.map_cons, rowCompare, rowCriteria, lexBefore,
      orderCriterion_same, orderCriterion_before, he]
    rw [← rowCriteria, ← hrest, positionCells]

theorem rowCompare_bound {direction : Direction} (h : ∀ e ∈ order, e.2 = direction) :
    rowCompare direction.boundOperator (positionCells pg order p r) =
      (lexSame (rowCriteria pg order) p r || lexBefore (rowCriteria pg order) p r) := by
  induction order with
  | nil => cases direction <;> rfl
  | cons e rest ih =>
    have hrest := ih fun x hx => h x (List.mem_cons_of_mem _ hx)
    have he : e.2 = direction := h e List.mem_cons_self
    have hbefore : (orderCriterion pg e).before p r =
        direction.boundOperator.strict (pg.compare e.1) (r e.1) (p e.1) := by
      rw [orderCriterion_before, he]
      cases direction <;> rfl
    have hsame := @orderCriterion_same V pg p r e
    have hhead : rowCompare direction.boundOperator (positionCells pg (e :: rest) p r) =
        if (orderCriterion pg e).same p r then
          rowCompare direction.boundOperator (positionCells pg rest p r)
        else (orderCriterion pg e).before p r := by
      rw [hsame, hbefore]
      rfl
    rw [hhead, hrest]
    cases hs : (orderCriterion pg e).same p r with
    | true => simp [rowCriteria, lexBefore, hs]
    | false => simp [rowCriteria, lexBefore, hs]

end RowComparison

theorem rowCompare_single (direction : Direction) (c : Criterion V) (x y : V) :
    rowCompare direction.operator [(c, x, y)] = direction.operator.strict c x y := by
  cases hs : c.same x y with
  | false => simp [rowCompare, hs]
  | true =>
    have hxy : c.before x y = false := by
      cases hb : c.before x y with
      | false => rfl
      | true => simp [c.not_same_of_before hb] at hs
    have hyx : c.before y x = false := by
      cases hb : c.before y x with
      | false => rfl
      | true =>
        rw [c.same_comm, c.not_same_of_before hb] at hs
        cases hs
    cases direction <;>
      simp [rowCompare, hs, SqlOperator.reflexive, SqlOperator.strict, Direction.operator, hxy, hyx]

/-! ## Values of a position -/

/-- The texts of a position, each cast back to the value it was taken from. -/
structure Casts (pg : Postgres V) (order : SqlOrder) (p : Row V) (value : String → SqlValue) :
    Prop where
  cast : ∀ e ∈ order, pg.cast (value e.1).type (value e.1).text = some (p e.1)

section Conditions

variable {pg : Postgres V} {p : Row V} {order : SqlOrder} {value : String → SqlValue}

theorem Casts.of_subset {part : SqlOrder} (h : Casts pg order p value)
    (hpart : ∀ e ∈ part, e ∈ order) : Casts pg part p value :=
  ⟨fun e he => h.cast e (hpart e he)⟩

theorem Casts.holds (h : Casts pg order p value) (operator : SqlOperator) (r : Row V) :
    Comparison.holds pg r ⟨keysOf order, operator, order.map fun e => value e.1⟩ =
      some (rowCompare operator (positionCells pg order p r)) := by
  have hvalues : (order.map fun e => value e.1).mapM
      (fun value => pg.cast value.type value.text) = some (order.map fun e => p e.1) := by
    rw [List.mapM_map]
    exact Except.mapM_pure fun e he => h.cast e he
  simp only [Comparison.holds, hvalues, Option.bind_eq_bind, Option.bind_some, Option.pure_def,
    keysOf, List.zip_map', List.map_map, positionCells]
  rfl

/-- A comparison of one column. -/
theorem Casts.holds_single (h : Casts pg order p value) {e : String × Direction}
    (he : e ∈ order) (operator : SqlOperator) (r : Row V) :
    Comparison.holds pg r ⟨[e.1], operator, [value e.1]⟩ =
      some (rowCompare operator [(pg.compare e.1, r e.1, p e.1)]) := by
  have hcasts : Casts pg [e] p value := h.of_subset (by simpa using he)
  exact hcasts.holds operator r

/-! ## The whole condition -/

/-- The comparisons of one alternative: every earlier column is equal, and this
one is further on. -/
def alternative (order : SqlOrder) (value : String → SqlValue) (index : Nat)
    (e : String × Direction) : List Comparison :=
  ((order.take index).map fun e => ⟨[e.1], .equal, [value e.1]⟩) ++
    [⟨[e.1], e.2.operator, [value e.1]⟩]

theorem positionCondition_mixed {direction : Direction} (h : ¬∀ e ∈ order, e.2 = direction)
    (hfirst : (order.map Prod.snd).headD .asc = direction) :
    ∃ leading, (∀ e ∈ order.take leading, e.2 = direction) ∧
      positionCondition order (order.map fun e => value e.1) =
        .expanded
          ⟨keysOf (order.take leading), direction.boundOperator,
            (order.take leading).map fun e => value e.1⟩
          (order.mapIdx (alternative order value)) := by
  refine ⟨(order.map Prod.snd).findIdx (· ≠ direction), ?_, ?_⟩
  · intro e he
    obtain ⟨i, hi, hget⟩ := List.mem_take_iff_getElem.mp he
    have hi' : i < (order.map Prod.snd).findIdx (· ≠ direction) := by omega
    have := List.not_of_lt_findIdx hi'
    simpa [hget] using this
  · have hall : ¬(order.map Prod.snd).all (· = direction) := by simpa using h
    have hzip : (order.map Prod.fst).zip (order.map fun e => value e.1) =
        order.map fun e => (e.1, value e.1) := List.zip_map'
    unfold positionCondition
    simp only [hfirst, if_neg hall, CursorCondition.expanded.injEq, keysOf, List.map_take,
      true_and]
    refine List.mapIdx_eq_mapIdx_iff.mpr fun i hi => ?_
    have hone : ((order.map fun e => value e.1).drop i).take 1 = [value order[i].1] := by
      rw [← List.map_drop, ← List.map_take, List.drop_eq_getElem_cons hi]
      rfl
    simp only [alternative, hone, hzip, ← List.map_take, List.map_map]
    rfl

theorem alternative_holds (h : Casts pg order p value) (r : Row V) {i : Nat}
    (hi : i < order.length) :
    (alternative order value i order[i]).mapM (·.holds pg r) =
      some ((order.take i).map (fun e => (orderCriterion pg e).same p r) ++
        [(orderCriterion pg order[i]).before p r]) := by
  have hequal : ((order.take i).map fun e =>
        (⟨[e.1], .equal, [value e.1]⟩ : Comparison)).mapM (·.holds pg r) =
      some ((order.take i).map fun e => (orderCriterion pg e).same p r) := by
    rw [List.mapM_map]
    refine Except.mapM_pure fun e he => ?_
    rw [Function.comp_apply, h.holds_single (List.mem_of_mem_take he), orderCriterion_same]
    simp [rowCompare, SqlOperator.reflexive, SqlOperator.strict]
  have hlast := h.holds_single (List.getElem_mem hi) order[i].2.operator r
  rw [rowCompare_single, ← orderCriterion_before] at hlast
  rw [alternative, List.mapM_append, hequal]
  simp only [List.mapM_cons, List.mapM_nil, hlast, Option.pure_def, Option.bind_eq_bind,
    Option.bind_some]

/-- Whether a row is the first to be further on in the given column. -/
def alternativeCells (pg : Postgres V) (order : SqlOrder) (p r : Row V) (index : Nat)
    (e : String × Direction) : List Bool :=
  ((order.take index).map fun e => (orderCriterion pg e).same p r) ++
    [(orderCriterion pg e).before p r]

theorem mapM_alternatives (h : Casts pg order p value) (r : Row V) :
    (order.mapIdx (alternative order value)).mapM (fun cells => cells.mapM (·.holds pg r)) =
      some (order.mapIdx (alternativeCells pg order p r)) := by
  rw [List.mapIdx_eq_zipIdx_map, List.mapIdx_eq_zipIdx_map, List.mapM_map]
  refine Except.mapM_pure fun (e, i) hmem => ?_
  obtain ⟨hi, he⟩ := List.mem_zipIdx' hmem
  show (alternative order value i e).mapM _ = some (alternativeCells pg order p r i e)
  rw [he]
  exact alternative_holds h r hi

theorem any_alternatives {r : Row V} :
    (order.mapIdx (alternativeCells pg order p r)).any (fun cells => cells.all id) = true ↔
      lexBefore (rowCriteria pg order) p r = true := by
  rw [lexBefore_iff_exists, List.any_eq_true]
  constructor
  · intro ⟨cells, hcells, hall⟩
    obtain ⟨i, hi, rfl⟩ := List.mem_mapIdx.mp hcells
    refine ⟨i, by simpa [rowCriteria] using hi, ?_⟩
    simpa [alternativeCells, lexSame, rowCriteria, ← List.map_take, Function.comp_def] using hall
  · intro ⟨i, hi, hsame, hbefore⟩
    have hi' : i < order.length := by simpa [rowCriteria] using hi
    refine ⟨_, List.mem_mapIdx.mpr ⟨i, hi', rfl⟩, ?_⟩
    have hboth := And.intro hsame hbefore
    simpa [alternativeCells, lexSame, rowCriteria, ← List.map_take, Function.comp_def] using hboth

/-- The condition of a position holds of the rows after it. -/
theorem positionCondition_holds (h : Casts pg order p value) (r : Row V) :
    (positionCondition order (order.map fun e => value e.1)).holds pg r =
      some (lexBefore (rowCriteria pg order) p r) := by
  by_cases hall : ∀ e ∈ order, e.2 = (order.map Prod.snd).headD .asc
  · have hcond : (order.map Prod.snd).all (· = (order.map Prod.snd).headD .asc) := by
      simpa using hall
    simp only [positionCondition, if_pos hcond, CursorCondition.holds]
    rw [h.holds, rowCompare_positionCells hall]
  · obtain ⟨leading, hleading, heq⟩ := @positionCondition_mixed order value _ hall rfl
    have hcasts : Casts pg (order.take leading) p value :=
      h.of_subset fun e he => List.mem_of_mem_take he
    have hbound := hcasts.holds
      ((order.map Prod.snd).headD .asc).boundOperator r
    rw [rowCompare_bound hleading] at hbound
    rw [heq]
    simp only [CursorCondition.holds, hbound, Option.bind_eq_bind, Option.bind_some,
      mapM_alternatives h r, Option.pure_def, Option.some.injEq]
    refine Bool.eq_iff_iff.mpr ?_
    rw [Bool.and_eq_true, any_alternatives, Bool.or_eq_true]
    constructor
    · exact fun hr => hr.2
    · intro hr
      have htake := lexBefore_take leading hr
      rw [rowCriteria, ← List.map_take] at htake
      exact ⟨htake, hr⟩

end Conditions

end Ez4.PgClient

import Ez4.Utils.ObjectEqual
import Mathlib.Data.List.Infix

/-! # Deep comparison

`deepCompareObject` and `deepCompareArray`: what a target has and a source
has not, what it lacks, what it has differently, and which of the keys gained
and lost go by a new name. -/

namespace Ez4.Utils
open Ez4.Library

mutual

/-- The changes of an object. A part the code leaves out is empty here. -/
structure ObjectComparison where
  counts : Int
  nested : List (String × ObjectComparison)
  rename : List (String × String)
  create : List (String × Value)
  update : List (String × Change)
  remove : List (String × Value)

/-- The changes of an array, by index. -/
structure ArrayComparison where
  counts : Nat
  create : List (Nat × Value)
  update : List (Nat × Change)
  remove : List (Nat × Value)

/-- What an update holds: the new value, or the changes of an array (or, in an
array, of an object). -/
inductive Change
  | value (value : Value)
  | array (changes : ArrayComparison)
  | object (changes : ObjectComparison)

end

structure CompareOptions extends EqualityOptions where
  onCompareName : Option (String → String → Bool) := none
  onRename : Option (Value → Value → Bool) := none

/-- The options of the object under a key. -/
def CompareOptions.at (o : CompareOptions) (key : String) : CompareOptions :=
  { o with toEqualityOptions := o.toEqualityOptions.nested key }

/-- The entries of each kind the comparison has counted. -/
structure Counter where
  create : Int := 0
  update : Int := 0
  remove : Int := 0
  rename : Int := 0
  nested : Int := 0

/-- The variables of the loop over the keys. -/
structure CompareState where
  toCreateKeys : List String := []
  toRemoveKeys : List String := []
  nested : List (String × ObjectComparison) := []
  toRename : List (String × String) := []
  toCreate : Fields := []
  toUpdate : List (String × Change) := []
  toRemove : Fields := []
  counter : Counter := {}

/-- `getSimilarName`: the first key the name is similar to, with the keys left
without it. -/
def getSimilarName (name : String) (keys : List String)
    (predicate : Option (String → String → Bool)) : Option String × List String :=
  let similar (key : String) : Bool :=
    match predicate with
    | some predicate => predicate name key
    | none => decide (name.toList <:+: key.toList) || decide (key.toList <:+: name.toList)
  (keys.find? similar, keys.eraseP similar)

/-- A name found that the rename callback, if any, accepts. The empty name is
as good as none. -/
def accepts (o : CompareOptions) (found : Option String) (rename : String → Value × Value) :
    Option String :=
  match found with
  | some name =>
    if name = "" then none else
      match o.onRename with
      | none => some name
      | some onRename => if onRename (rename name).1 (rename name).2 then some name else none
  | none => none

namespace CompareState

/-- A key with a value in the target only. -/
def gain (o : CompareOptions) (key : String) (value : Value) (st : CompareState) :
    CompareState :=
  let st := { st with toCreateKeys := st.toCreateKeys ++ [key] }
  let (found, toRemoveKeys) := getSimilarName key st.toRemoveKeys o.onCompareName
  let st := { st with toRemoveKeys }
  match accepts o found fun name => (value, get st.toRemove name) with
  | some removeKey =>
    { st with
      toRemove := remove st.toRemove removeKey
      toRename := assign st.toRename removeKey key
      counter :=
        { st.counter with remove := st.counter.remove - 1, rename := st.counter.rename + 1 } }
  | none =>
    { st with
      toCreate := assign st.toCreate key value
      counter := { st.counter with create := st.counter.create + 1 } }

/-- A key with a value in the source only. -/
def lose (o : CompareOptions) (key : String) (value : Value) (st : CompareState) :
    CompareState :=
  let st := { st with toRemoveKeys := st.toRemoveKeys ++ [key] }
  let (found, toCreateKeys) := getSimilarName key st.toCreateKeys o.onCompareName
  let st := { st with toCreateKeys }
  match accepts o found fun name => (get st.toCreate name, value) with
  | some createKey =>
    { st with
      toCreate := remove st.toCreate createKey
      toRename := assign st.toRename key createKey
      counter :=
        { st.counter with create := st.counter.create - 1, rename := st.counter.rename + 1 } }
  | none =>
    { st with
      toRemove := assign st.toRemove key value
      counter := { st.counter with remove := st.counter.remove + 1 } }

/-- A key with a new value. -/
def change (key : String) (change : Change) (st : CompareState) : CompareState :=
  { st with
    toUpdate := assign st.toUpdate key change
    counter := { st.counter with update := st.counter.update + 1 } }

/-- A key with changes inside its value, if there are any. -/
def nest (key : String) (changes : ObjectComparison) (st : CompareState) : CompareState :=
  if 0 < changes.counts then
    { st with
      nested := assign st.nested key changes
      counter := { st.counter with nested := st.counter.nested + 1 } }
  else st

/-- A key with a value in both. -/
def both (array : List Value → List Value → ArrayComparison)
    (object : Fields → Fields → ObjectComparison) (deep : Bool) (key : String) :
    Value → Value → CompareState → CompareState
  | .arr target, .arr source, st =>
    if deep then
      let changes := array target source
      if 0 < changes.counts then st.change key (.array changes) else st
    else st.change key (.value (.arr target))
  | .obj target, .obj source, st =>
    if deep then st.nest key (object target source) else st.change key (.value (.obj target))
  | target, source, st =>
    if target.strictEq source then st else st.change key (.value target)

/-- The body of the loop over the keys. -/
def compareKey (array : List Value → List Value → ArrayComparison)
    (object : Fields → Fields → ObjectComparison) (o : CompareOptions) (target source : Fields)
    (st : CompareState) (key : String) : CompareState :=
  if o.selection.skips key then st
  else
    let targetValue := get target key
    let sourceValue := get source key
    match targetValue.isUndefined, sourceValue.isUndefined with
    | true, true => st
    | false, true => st.gain o key targetValue
    | true, false => st.lose o key sourceValue
    | false, false => st.both array object o.deep key targetValue sourceValue

/-- The result: a part is left out when nothing of it was counted. -/
def result (st : CompareState) : ObjectComparison where
  counts := st.counter.create + st.counter.update + st.counter.remove + st.counter.rename +
    st.counter.nested
  create := if st.counter.create ≠ 0 then st.toCreate else []
  update := if st.counter.update ≠ 0 then st.toUpdate else []
  remove := if st.counter.remove ≠ 0 then st.toRemove else []
  rename := if st.counter.rename ≠ 0 then st.toRename else []
  nested := if st.counter.nested ≠ 0 then st.nested else []

end CompareState

namespace ArrayComparison

def empty : ArrayComparison := ⟨0, [], [], []⟩

def change (index : Nat) (change : Change) (c : ArrayComparison) : ArrayComparison :=
  { c with counts := c.counts + 1, update := c.update ++ [(index, change)] }

/-- The body of the loop over the indices. -/
def compareIndex (array : List Value → List Value → ArrayComparison)
    (object : Fields → Fields → ObjectComparison) (target source : List Value)
    (c : ArrayComparison) (index : Nat) : ArrayComparison :=
  match target.getD index .undefined, source.getD index .undefined with
  | .undefined, .undefined => c
  | .undefined, value => { c with counts := c.counts + 1, remove := c.remove ++ [(index, value)] }
  | value, .undefined => { c with counts := c.counts + 1, create := c.create ++ [(index, value)] }
  | .arr target, .arr source =>
    let changes := array target source
    if 0 < changes.counts then c.change index (.array changes) else c
  | .obj target, .obj source =>
    let changes := object target source
    if changes.counts ≠ 0 then c.change index (.object changes) else c
  | targetValue, sourceValue =>
    if targetValue.strictEq sourceValue then c else c.change index (.value targetValue)

end ArrayComparison

mutual

def compareObject : Nat → CompareOptions → Fields → Fields → ObjectComparison
  | 0, _, _, _ => CompareState.result {}
  | fuel + 1, o, target, source =>
    ((allKeys target source).foldl (fun st key =>
      CompareState.compareKey (compareArray fuel) (compareObject fuel (o.at key)) o target source
        st key) {}).result

def compareArray : Nat → List Value → List Value → ArrayComparison
  | 0, _, _ => .empty
  | fuel + 1, target, source =>
    (List.range (max target.length source.length)).foldl
      (ArrayComparison.compareIndex (compareArray fuel) (compareObject fuel {}) target source) .empty

end

/-- `deepCompareObject` -/
def deepCompareObject (o : CompareOptions) (target source : Fields) : ObjectComparison :=
  compareObject (Value.heightFields target + 1) o target source

/-- `deepCompareArray` -/
def deepCompareArray (target source : List Value) : ArrayComparison :=
  compareArray (Value.heightList target + 1) target source

/-! ## The fuel suffices -/

theorem CompareState.both_congr {array array' : List Value → List Value → ArrayComparison}
    {object object' : Fields → Fields → ObjectComparison} {deep : Bool} {key : String} {t s : Value}
    (st : CompareState)
    (ha : ∀ items s, Value.heightList items < t.height → array items s = array' items s)
    (ho : ∀ fields s, Value.heightFields fields < t.height → object fields s = object' fields s) :
    st.both array object deep key t s = st.both array' object' deep key t s := by
  cases t <;> cases s <;> simp only [both]
  case arr.arr items other => rw [ha items other (by simp [Value.height])]
  case obj.obj fields other => rw [ho fields other (by simp [Value.height])]

theorem CompareState.compareKey_congr {array array' : List Value → List Value → ArrayComparison}
    {object object' : Fields → Fields → ObjectComparison} {o : CompareOptions}
    {target source : Fields} (st : CompareState) (key : String)
    (ha : ∀ items s, Value.heightList items < Value.heightFields target →
      array items s = array' items s)
    (ho : ∀ fields s, Value.heightFields fields < Value.heightFields target →
      object fields s = object' fields s) :
    st.compareKey array object o target source key =
      st.compareKey array' object' o target source key := by
  have hk := height_get_le target key
  have hb : st.both array object o.deep key (get target key) (get source key) =
      st.both array' object' o.deep key (get target key) (get source key) :=
    both_congr st (fun items s h => ha items s (by omega)) fun fields s h => ho fields s (by omega)
  simp only [compareKey, hb]

theorem ArrayComparison.compareIndex_congr
    {array array' : List Value → List Value → ArrayComparison}
    {object object' : Fields → Fields → ObjectComparison} {target source : List Value}
    (c : ArrayComparison) (index : Nat)
    (ha : ∀ items s, Value.heightList items < Value.heightList target →
      array items s = array' items s)
    (ho : ∀ fields s, Value.heightFields fields < Value.heightList target →
      object fields s = object' fields s) :
    c.compareIndex array object target source index =
      c.compareIndex array' object' target source index := by
  have hk := height_getD_le target index
  unfold compareIndex
  cases ht : target.getD index .undefined <;> cases source.getD index .undefined <;>
    simp only [ht, Value.height] at hk ⊢
  case arr.arr items other => rw [ha items other (by omega)]
  case obj.obj fields other => rw [ho fields other (by omega)]

/-- Enough fuel is as good as any more. -/
theorem compare_fuel (n m : Nat) :
    (∀ o target source, Value.heightFields target < n → Value.heightFields target < m →
      compareObject n o target source = compareObject m o target source) ∧
    (∀ target source, Value.heightList target < n → Value.heightList target < m →
      compareArray n target source = compareArray m target source) := by
  induction n generalizing m with
  | zero => simp
  | succ n ih =>
    refine ⟨fun o target source hn hm => ?_, fun target source hn hm => ?_⟩
    · obtain ⟨m, rfl⟩ := Nat.exists_eq_succ_of_ne_zero (Nat.ne_of_gt (Nat.zero_lt_of_lt hm))
      rw [compareObject, compareObject]
      congr 2
      funext st key
      refine CompareState.compareKey_congr st key (fun items s hi => ?_) fun fields s hf => ?_
      · exact (ih m).2 items s (by omega) (by omega)
      · exact (ih m).1 _ fields s (by omega) (by omega)
    · obtain ⟨m, rfl⟩ := Nat.exists_eq_succ_of_ne_zero (Nat.ne_of_gt (Nat.zero_lt_of_lt hm))
      rw [compareArray, compareArray]
      congr 1
      funext c index
      refine ArrayComparison.compareIndex_congr c index (fun items s hi => ?_) fun fields s hf => ?_
      · exact (ih m).2 items s (by omega) (by omega)
      · exact (ih m).1 _ fields s (by omega) (by omega)

/-- The body of the loop of `deepCompareObject`. -/
def CompareState.step (o : CompareOptions) (target source : Fields) (st : CompareState)
    (key : String) : CompareState :=
  st.compareKey deepCompareArray (deepCompareObject (o.at key)) o target source key

/-- The recursion of `deepCompareObject`, as the code has it. -/
theorem deepCompareObject_eq (o : CompareOptions) (target source : Fields) :
    deepCompareObject o target source =
      ((allKeys target source).foldl (CompareState.step o target source) {}).result := by
  rw [deepCompareObject, compareObject]
  congr 2
  funext st key
  refine CompareState.compareKey_congr st key (fun items s hi => ?_) fun fields s hf => ?_
  · exact (compare_fuel _ _).2 items s (by omega) (Nat.lt_succ_self _)
  · exact (compare_fuel _ _).1 _ fields s (by omega) (Nat.lt_succ_self _)

end Ez4.Utils

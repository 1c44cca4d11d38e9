import Ez4.Utils.Value

/-! # Deep equality

`deepEqualObject` and `deepEqualArray` of the object and array utilities, with
the options they share with the comparison: how deep to look and which
properties to include or exclude. Giving both an include and an exclude tree
is a `TypeError` there, and no value of `Selection` here.

The recursion follows the height of the target: `equalObject_eq_of_height`
says that more fuel than that changes nothing. -/

namespace Ez4.Utils

/-- A node of an include or an exclude tree. -/
inductive PropertyState
  | flag (value : Bool)
  | tree (states : List (String × PropertyState))

/-- Which properties take part: those included, or all but those excluded. -/
inductive Selection
  | including (states : List (String × PropertyState))
  | excluding (states : List (String × PropertyState))

namespace Selection

/-- `{}`: every property. -/
def all : Selection := excluding []

/-- `(isInclude && !keyState) || (!isInclude && keyState === true)` -/
def skips : Selection → String → Bool
  | including states, key =>
    match find states key with
    | none => true
    | some (.flag value) => !value
    | some (.tree _) => false
  | excluding states, key =>
    match find states key with
    | some (.flag value) => value
    | _ => false

/-- The selection a nested object is compared with: the tree under the key,
or everything when the key has no tree. -/
def nested : Selection → String → Selection
  | including states, key =>
    match find states key with
    | some (.tree states) => including states
    | _ => all
  | excluding states, key =>
    match find states key with
    | some (.tree states) => excluding states
    | _ => all

@[simp] theorem skips_all (key : String) : all.skips key = false := rfl

@[simp] theorem nested_all (key : String) : all.nested key = all := rfl

end Selection

structure EqualityOptions where
  /-- `none` is `+Infinity`. -/
  depth : Option Nat := none
  selection : Selection := .all

namespace EqualityOptions

/-- `depth > 0` -/
def deep (o : EqualityOptions) : Bool :=
  match o.depth with
  | none => true
  | some depth => 0 < depth

/-- The options of the object under a key. -/
def nested (o : EqualityOptions) (key : String) : EqualityOptions :=
  ⟨o.depth.map (· - 1), o.selection.nested key⟩

end EqualityOptions

/-- `new Set([...Object.keys(target), ...Object.keys(source)])` -/
def allKeys (target source : Fields) : List String :=
  keysOf target ++ (keysOf source).filter (· ∉ keysOf target)

theorem mem_allKeys {target source : Fields} {key : String} :
    key ∈ allKeys target source ↔ key ∈ keysOf target ∨ key ∈ keysOf source := by
  simp only [allKeys, List.mem_append, List.mem_filter, decide_eq_true_eq]
  tauto

/-- How two properties or elements are told equal, given how arrays and
objects are. -/
def equalValues (array : List Value → List Value → Bool) (object : Fields → Fields → Bool) :
    Value → Value → Bool
  | .arr target, .arr source => array target source
  | .obj target, .obj source => object target source
  | target, source => target.strictEq source

mutual

def equalObject : Nat → EqualityOptions → Fields → Fields → Bool
  | 0, _, _, _ => true
  | fuel + 1, o, target, source =>
    (allKeys target source).all fun key =>
      o.selection.skips key ||
        equalValues (fun t s => o.deep && equalArray fuel t s)
          (fun t s => o.deep && equalObject fuel (o.nested key) t s) (get target key) (get source key)

def equalArray : Nat → List Value → List Value → Bool
  | 0, _, _ => true
  | fuel + 1, target, source =>
    (List.range (max target.length source.length)).all fun index =>
      equalValues (equalArray fuel) (equalObject fuel {})
        (target.getD index .undefined) (source.getD index .undefined)

end

/-- `deepEqualObject` -/
def deepEqualObject (o : EqualityOptions) (target source : Fields) : Bool :=
  equalObject (Value.heightFields target + 1) o target source

/-- `deepEqualArray` -/
def deepEqualArray (target source : List Value) : Bool :=
  equalArray (Value.heightList target + 1) target source

/-- `deepEqual` of two objects or of two arrays; of anything else it throws. -/
def deepEqual (o : EqualityOptions) : Value → Value → Option Bool
  | .arr target, .arr source => some (deepEqualArray target source)
  | .obj target, .obj source => some (deepEqualObject o target source)
  | _, _ => none

/-! ## The fuel suffices -/

theorem height_get_le (fields : Fields) (key : String) :
    (get fields key).height ≤ Value.heightFields fields := by
  unfold get
  cases h : find fields key with
  | none => exact Nat.zero_le _
  | some v => exact Value.height_le_heightFields (mem_of_find h)

theorem height_getD_le (items : List Value) (index : Nat) :
    (items.getD index .undefined).height ≤ Value.heightList items := by
  rw [List.getD_eq_getElem?_getD]
  cases h : items[index]? with
  | none => exact Nat.zero_le _
  | some v => exact Value.height_le_heightList (List.mem_of_getElem? h)

theorem equalValues_congr {array array' : List Value → List Value → Bool}
    {object object' : Fields → Fields → Bool} {t : Value} (s : Value)
    (ha : ∀ items s, Value.heightList items < t.height → array items s = array' items s)
    (ho : ∀ fields s, Value.heightFields fields < t.height → object fields s = object' fields s) :
    equalValues array object t s = equalValues array' object' t s := by
  cases t <;> cases s <;> simp only [equalValues]
  case arr.arr items other => exact ha items other (by simp [Value.height])
  case obj.obj fields other => exact ho fields other (by simp [Value.height])

/-- Enough fuel is as good as any more: both sides unfold one level, onto
values lower than the target. -/
theorem equal_fuel (n m : Nat) :
    (∀ o target source, Value.heightFields target < n → Value.heightFields target < m →
      equalObject n o target source = equalObject m o target source) ∧
    (∀ target source, Value.heightList target < n → Value.heightList target < m →
      equalArray n target source = equalArray m target source) := by
  induction n generalizing m with
  | zero => simp
  | succ n ih =>
    refine ⟨fun o target source hn hm => ?_, fun target source hn hm => ?_⟩
    · obtain ⟨m, rfl⟩ := Nat.exists_eq_succ_of_ne_zero (Nat.ne_of_gt (Nat.zero_lt_of_lt hm))
      rw [equalObject, equalObject]
      congr 1
      funext key
      congr 1
      have hk := height_get_le target key
      refine equalValues_congr _ (fun items s hi => ?_) fun fields s hf => ?_
      · rw [(ih m).2 items s (by omega) (by omega)]
      · rw [(ih m).1 _ fields s (by omega) (by omega)]
    · obtain ⟨m, rfl⟩ := Nat.exists_eq_succ_of_ne_zero (Nat.ne_of_gt (Nat.zero_lt_of_lt hm))
      rw [equalArray, equalArray]
      congr 1
      funext index
      have hk := height_getD_le target index
      refine equalValues_congr _ (fun items s hi => ?_) fun fields s hf => ?_
      · exact (ih m).2 items s (by omega) (by omega)
      · exact (ih m).1 _ fields s (by omega) (by omega)

theorem equalObject_eq {n : Nat} {o : EqualityOptions} {target source : Fields}
    (h : Value.heightFields target < n) :
    equalObject n o target source = deepEqualObject o target source :=
  (equal_fuel n _).1 o target source h (Nat.lt_succ_self _)

theorem equalArray_eq {n : Nat} {target source : List Value} (h : Value.heightList target < n) :
    equalArray n target source = deepEqualArray target source :=
  (equal_fuel n _).2 target source h (Nat.lt_succ_self _)

/-- The recursion of `deepEqualObject`, as the code has it. -/
theorem deepEqualObject_eq (o : EqualityOptions) (target source : Fields) :
    deepEqualObject o target source =
      (allKeys target source).all fun key =>
        o.selection.skips key ||
          equalValues (fun t s => o.deep && deepEqualArray t s)
            (fun t s => o.deep && deepEqualObject (o.nested key) t s)
            (get target key) (get source key) := by
  rw [deepEqualObject, equalObject]
  congr 1
  funext key
  congr 1
  have hk := height_get_le target key
  refine equalValues_congr _ (fun items s hi => ?_) fun fields s hf => ?_
  · rw [equalArray_eq (by omega)]
  · rw [equalObject_eq (by omega)]

end Ez4.Utils

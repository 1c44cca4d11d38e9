import Ez4.Utils.ObjectEqual

/-! # Deep merge

`deepMerge` of the object utilities, with its options. Giving both an include
and an exclude tree is a `TypeError` there, and no value of `Selection` here.
What is merged is read along paths: a merged object has the values of the
source, save where the source has none. -/

namespace Ez4.Utils

structure MergeOptions where
  /-- `none` is `+Infinity`. -/
  depth : Option Nat := none
  array : Bool := false
  replace : Bool := true
  selection : Selection := .all

namespace MergeOptions

/-- `depth > 0` -/
def deep (o : MergeOptions) : Bool :=
  match o.depth with
  | none => true
  | some depth => 0 < depth

/-- The options of the object under a key. -/
def nested (o : MergeOptions) (key : String) : MergeOptions :=
  { o with depth := o.depth.map (· - 1), selection := o.selection.nested key }

end MergeOptions

/-- `addValue`. Two objects, or two arrays, are never one element of the set. -/
def addValue (unique : List Value) (value : Value) : List Value :=
  if value.isUndefined || unique.any value.strictEq then unique else unique ++ [value]

/-- `arrayUnique`. An array among the values stands for its elements. -/
def arrayUnique (values : List Value) : List Value :=
  (values.flatMap fun value => match value with
    | .arr items => items
    | value => [value]).foldl addValue []

/-- `{ ...sourceValue, ...targetValue }` -/
def spreadFields (source target : Fields) : Fields :=
  target.foldl (fun fields field => assign fields field.1 field.2) source

/-- The property that is made of two others, `undefined` when there is none. -/
def mergeValues (o : MergeOptions) (object : Fields → Fields → Fields) : Value → Value → Value
  | .obj target, .obj source => .obj
      (if o.deep then object target source else spreadFields source target)
  | target, source =>
    if !target.isUndefined && !o.replace then target
    else match target, source with
      | .arr items, .arr others =>
        if o.array then .arr (arrayUnique (others ++ items)) else source
      | _, _ => if source.isNullish then target else source

/-- The property that is set under a key that may be skipped. -/
def keepValue (skips : Bool) (value : Value) : Option Value :=
  if skips || value.isUndefined then none else some value

def mergeObject : Nat → MergeOptions → Fields → Fields → Fields
  | 0, _, _, _ => []
  | fuel + 1, o, target, source =>
    (allKeys target source).filterMap fun key =>
      (keepValue (o.selection.skips key)
        (mergeValues o (mergeObject fuel (o.nested key)) (get target key)
          (get source key))).map (key, ·)

def deepMerge (o : MergeOptions) (target source : Fields) : Fields :=
  mergeObject (Value.heightFields target + 1) o target source

variable {o : MergeOptions} {target source : Fields} {key : String} {path : List String}

/-! ## The fuel suffices -/

theorem mergeValues_congr {object object' : Fields → Fields → Fields} {t : Value} (s : Value)
    (h : ∀ fields s, Value.heightFields fields < t.height → object fields s = object' fields s) :
    mergeValues o object t s = mergeValues o object' t s := by
  cases t <;> cases s <;> try rfl
  case obj.obj fields other =>
    rw [mergeValues, mergeValues, h fields other (by simp [Value.height])]

theorem mergeObject_fuel (n m : Nat) : ∀ o target source, Value.heightFields target < n →
    Value.heightFields target < m → mergeObject n o target source =
      mergeObject m o target source := by
  induction n generalizing m with
  | zero => exact fun _ _ _ h => absurd h (Nat.not_lt_zero _)
  | succ n ih =>
    intro o target source hn hm
    obtain ⟨m, rfl⟩ := Nat.exists_eq_succ_of_ne_zero (Nat.ne_of_gt (Nat.zero_lt_of_lt hm))
    have hvalues : ∀ key, mergeValues o (mergeObject n (o.nested key)) (get target key)
      (get source key) =
        mergeValues o (mergeObject m (o.nested key)) (get target key) (get source key) := by
      intro key
      have hk := height_get_le target key
      exact mergeValues_congr _ fun fields s hf => ih m _ fields s (by omega) (by omega)
    simp only [mergeObject, hvalues]

/-- The property of a key, as the code has it. -/
def mergeAt (o : MergeOptions) (key : String) (target source : Value) : Value :=
  mergeValues o (deepMerge (o.nested key)) target source

theorem deepMerge_eq (o : MergeOptions) (target source : Fields) :
    deepMerge o target source = (allKeys target source).filterMap fun key =>
      (keepValue (o.selection.skips key)
        (mergeAt o key (get target key) (get source key))).map (key, ·) := by
  have hvalues : ∀ key, mergeValues o (mergeObject (Value.heightFields target) (o.nested key))
      (get target key) (get source key) = mergeAt o key (get target key) (get source key) := by
    intro key
    have hk := height_get_le target key
    exact mergeValues_congr _ fun fields s hf => mergeObject_fuel _ _ _ fields s
      (by omega) (by omega)
  simp only [deepMerge, mergeObject, hvalues]

/-! ## Properties of what is merged -/

theorem find_filterMap_keys (value : String → Option Value) (keys : List String) :
    find (keys.filterMap fun k => (value k).map (k, ·)) key =
      if key ∈ keys then value key else none := by
  induction keys with
  | nil => rfl
  | cons k keys ih =>
    rw [List.filterMap_cons]
    by_cases hk : k = key
    · subst hk
      cases hv : value k with
      | none => simp [ih, hv]
      | some v => simp [find_cons]
    · cases hv : value k with
      | none => simp [ih, Ne.symm hk]
      | some v => simp [find_cons, hk, ih, Ne.symm hk]

theorem getD_keepValue (skips : Bool) (value : Value) :
    (keepValue skips value).getD .undefined = if skips then .undefined else value := by
  unfold keepValue
  cases skips <;> cases value <;> rfl

/-- Each property is made of the two properties of its key. -/
theorem get_deepMerge (o : MergeOptions) (target source : Fields) (key : String) :
    get (deepMerge o target source) key =
      if o.selection.skips key then .undefined
        else mergeAt o key (get target key) (get source key) := by
  rw [deepMerge_eq, get_eq, find_filterMap_keys]
  by_cases hmem : key ∈ allKeys target source
  · rw [if_pos hmem, getD_keepValue]
  · rw [mem_allKeys, not_or] at hmem
    rw [if_neg fun h => (mem_allKeys.mp h).elim hmem.1 hmem.2, get_of_not_mem hmem.1,
      get_of_not_mem hmem.2]
    exact (ite_self _).symm

/-! ## Reading along a path -/

namespace Value

/-- `value[key]` for each key of a path, `undefined` where there is no object. -/
def read : List String → Value → Value
  | [], value => value
  | key :: rest, .obj fields => read rest (get fields key)
  | _ :: _, _ => .undefined

/-- A value that is no object. -/
def leaf? : Value → Option Value
  | .obj _ => none
  | value => some value

/-- Along every path there is the same value in both, or an object in both. -/
def Same (a b : Value) : Prop := ∀ path, (a.read path).leaf? = (b.read path).leaf?

/-- Where both have an object, the source has a value for each property of the target. -/
def Covers (source target : Value) : Prop :=
  ∀ path key, (target.read path).isAnyObject = true → (source.read path).isAnyObject = true →
    (source.read (path ++ [key])).isNullish = true →
      target.read (path ++ [key]) = source.read (path ++ [key])

theorem read_undefined : read path .undefined = .undefined := by cases path <;> rfl

theorem read_append (path more : List String) (v : Value) :
    v.read (path ++ more) = (v.read path).read more := by
  induction path generalizing v with
  | nil => rfl
  | cons key rest ih =>
    cases v with
    | obj fields => exact ih _
    | _ => exact read_undefined.symm

theorem Same.refl (v : Value) : v.Same v := fun _ => rfl

theorem Covers.get {source target : Fields} (h : (Value.obj source).Covers (.obj target))
    (key : String) :
    (get source key).Covers (get target key) :=
  fun path name => h (key :: path) name

theorem leaf?_of_isNullish {v : Value} (h : v.isNullish = true) : v.leaf? = some v := by
  cases v <;> first | rfl | cases h

theorem eq_of_leaf? {v w : Value} (h : v.leaf? = some w) : v = w := by
  cases v <;> simp_all [leaf?]

theorem exists_of_isAnyObject {v : Value} (h : v.isAnyObject = true) :
    ∃ fields, v = .obj fields := by
  cases v <;> first | exact ⟨_, rfl⟩ | cases h

end Value

/-! ## Merging all of two objects -/

open Value

theorem mergeAt_objects :
    mergeAt {} key (.obj target) (.obj source) = .obj (deepMerge {} target source) := rfl

theorem mergeAt_of_nullish {t s : Value} (h : s.isNullish = true) : mergeAt {} key t s = t := by
  cases s <;> cases t <;> first | rfl | cases h

theorem mergeAt_of_some {t s : Value} (hobjects : ¬ (t.isAnyObject = true ∧ s.isAnyObject = true))
    (h : s.isNullish = false) : mergeAt {} key t s = s := by
  cases s <;> cases t <;> first | rfl | exact absurd ⟨rfl, rfl⟩ hobjects | cases h

theorem get_mergeAll (target source : Fields) (key : String) :
    get (deepMerge {} target source) key = mergeAt {} key (get target key) (get source key) :=
  (get_deepMerge {} target source key).trans (if_neg (by simp [Selection.skips_all]))

/-- Below two objects there is what is made of the two values below them. -/
theorem read_mergeAll (path : List String) : ∀ target source fields others,
    (Value.obj target).read path = .obj fields → (Value.obj source).read path = .obj others →
      (Value.obj (deepMerge {} target source)).read path = .obj (deepMerge {} fields others) := by
  induction path with
  | nil =>
    intro target source fields others htarget hsource
    cases htarget
    cases hsource
    rfl
  | cons key rest ih =>
    intro target source fields others htarget hsource
    change (get target key).read rest = _ at htarget
    change (get source key).read rest = _ at hsource
    change (get (deepMerge {} target source) key).read rest = _
    rw [get_mergeAll]
    cases ht : get target key with
    | obj inner =>
      cases hs : get source key with
      | obj outer =>
        rw [ht] at htarget
        rw [hs] at hsource
        exact ih inner outer fields others htarget hsource
      | _ =>
        rw [hs] at hsource
        cases rest <;> cases hsource
    | _ =>
      rw [ht] at htarget
      cases rest <;> cases htarget

theorem same_of_covers (path : List String) : ∀ target source,
    (Value.obj source).Covers (.obj target) →
      ((Value.obj (deepMerge {} target source)).read path).leaf? =
        ((Value.obj source).read path).leaf? := by
  induction path with
  | nil => exact fun _ _ _ => rfl
  | cons key rest ih =>
    intro target source hcovers
    change ((get (deepMerge {} target source) key).read rest).leaf? =
      ((get source key).read rest).leaf?
    rw [get_mergeAll]
    by_cases hobjects : (get target key).isAnyObject = true ∧ (get source key).isAnyObject = true
    · obtain ⟨inner, ht⟩ := exists_of_isAnyObject hobjects.1
      obtain ⟨outer, hs⟩ := exists_of_isAnyObject hobjects.2
      have hbelow := hcovers.get key
      rw [ht, hs] at hbelow
      rw [ht, hs, mergeAt_objects]
      exact ih inner outer hbelow
    · cases hnullish : (get source key).isNullish with
      | true =>
        have hsame : get target key = get source key := hcovers [] key rfl rfl hnullish
        rw [mergeAt_of_nullish hnullish, hsame]
      | false => rw [mergeAt_of_some hobjects hnullish]

/-- **A merge gives back its source** if and only if the source covers the target: what the source
leaves out, or has no value for, is kept of the target at every depth. -/
theorem deepMerge_same_iff (target source : Fields) :
    (Value.obj (deepMerge {} target source)).Same (.obj source) ↔
      (Value.obj source).Covers (.obj target) := by
  refine ⟨fun h path key htarget hsource hnullish => ?_, fun h path =>
    same_of_covers path target source h⟩
  obtain ⟨fields, ht⟩ := exists_of_isAnyObject htarget
  obtain ⟨others, hs⟩ := exists_of_isAnyObject hsource
  have hread := h (path ++ [key])
  rw [read_append, read_append, read_mergeAll path target source fields others ht hs, hs] at hread
  rw [read_append, hs] at hnullish
  rw [read_append, read_append, ht, hs]
  change (get (deepMerge {} fields others) key).leaf? = (get others key).leaf? at hread
  change get fields key = get others key
  change (get others key).isNullish = true at hnullish
  rw [get_mergeAll, mergeAt_of_nullish hnullish, leaf?_of_isNullish hnullish] at hread
  exact eq_of_leaf? hread

end Ez4.Utils

import Ez4.Library.KeyedMap

/-! # JavaScript values

The values that schemas and repositories are made of: scalars, arrays and
plain objects. An object lists its own properties in the order
`Object.keys` gives them. -/

namespace Ez4.Utils
open Ez4.Library

/-- A number other than `NaN`. `-0` is `0`, as `===` has it. -/
inductive Number
  | finite (value : Rat)
  | infinite (negative : Bool)
deriving DecidableEq

inductive Value
  | undefined
  | null
  | bool (b : Bool)
  | num (n : Number)
  | str (s : String)
  | arr (items : List Value)
  | obj (fields : List (String × Value))

/-- The own properties of an object. -/
abbrev Fields := List (String × Value)

namespace Value

/-- `===`. Two objects (or arrays) are the same only as one reference, and no
two values compared here share one. -/
def strictEq : Value → Value → Bool
  | undefined, undefined => true
  | null, null => true
  | bool a, bool b => a == b
  | num a, num b => a == b
  | str a, str b => a == b
  | _, _ => false

/-- `isAnyObject` -/
def isAnyObject : Value → Bool
  | obj _ => true
  | _ => false

def isUndefined : Value → Bool
  | undefined => true
  | _ => false

/-- `isNullish` -/
def isNullish : Value → Bool
  | undefined => true
  | null => true
  | _ => false

/-- `isAnyNumber` -/
def isAnyNumber : Value → Bool
  | num _ => true
  | _ => false

/-- `!!value` -/
def truthy : Value → Bool
  | undefined => false
  | null => false
  | bool b => b
  | num n => n != .finite 0
  | str s => s != ""
  | arr _ => true
  | obj _ => true

mutual

/-- How deep arrays and objects are nested in a value. -/
def height : Value → Nat
  | arr items => heightList items + 1
  | obj fields => heightFields fields + 1
  | _ => 0

def heightList : List Value → Nat
  | [] => 0
  | v :: rest => max v.height (heightList rest)

def heightFields : List (String × Value) → Nat
  | [] => 0
  | (_, v) :: rest => max v.height (heightFields rest)

end

theorem height_le_heightList {v : Value} {items : List Value} (h : v ∈ items) :
    v.height ≤ heightList items := by
  induction items with
  | nil => simp at h
  | cons w rest ih =>
    rw [heightList]
    rcases List.mem_cons.mp h with rfl | h
    · exact Nat.le_max_left _ _
    · exact Nat.le_trans (ih h) (Nat.le_max_right _ _)

theorem height_le_heightFields {k : String} {v : Value} {fields : Fields}
    (h : (k, v) ∈ fields) : v.height ≤ heightFields fields := by
  induction fields with
  | nil => simp at h
  | cons w rest ih =>
    obtain ⟨j, w⟩ := w
    rw [heightFields]
    rcases List.mem_cons.mp h with he | h
    · obtain ⟨-, rfl⟩ := Prod.mk.inj he
      exact Nat.le_max_left _ _
    · exact Nat.le_trans (ih h) (Nat.le_max_right _ _)

end Value

/-! ## Properties of an object -/

/-- `Object.keys` -/
def keysOf {α : Type} (fields : List (String × α)) : List String := fields.map Prod.fst

/-- The property of the given key, if the object has it. -/
def find {α : Type} (fields : List (String × α)) (key : String) : Option α :=
  (fields.find? fun f => f.1 = key).map Prod.snd

/-- `object[key]` -/
def get (fields : Fields) (key : String) : Value := (find fields key).getD .undefined

theorem get_eq (fields : Fields) (key : String) :
    get fields key = (find fields key).getD .undefined := rfl

/-- `object[key] = value` -/
def assign {α : Type} (fields : List (String × α)) (key : String) (value : α) :
    List (String × α) :=
  KeyedMap.upsert Prod.fst (key, value) fields

/-- `delete object[key]` -/
def remove {α : Type} (fields : List (String × α)) (key : String) : List (String × α) :=
  fields.filter fun f => f.1 ≠ key

section Properties

variable {α : Type} {fields : List (String × α)} {k : String} {a : α}

@[simp] theorem find_nil : find ([] : List (String × α)) k = none := rfl

theorem find_cons (f : String × α) (fields : List (String × α)) (k : String) :
    find (f :: fields) k = if f.1 = k then some f.2 else find fields k := by
  unfold find
  by_cases h : f.1 = k <;> simp [h]

theorem mem_of_find (h : find fields k = some a) : (k, a) ∈ fields := by
  obtain ⟨f, hf, rfl⟩ := Option.map_eq_some_iff.mp h
  have hk : f.1 = k := by simpa using List.find?_some hf
  exact hk ▸ List.mem_of_find?_eq_some hf

theorem find_of_mem (hn : (keysOf fields).Nodup) (h : (k, a) ∈ fields) :
    find fields k = some a := by
  have hfind : fields.find? (fun f => f.1 = k) = some (k, a) := KeyedMap.find?_of_mem hn h
  rw [find, hfind]
  rfl

theorem find_eq_none : find fields k = none ↔ k ∉ keysOf fields := by
  simp only [find, Option.map_eq_none_iff, List.find?_eq_none, keysOf, List.mem_map, not_exists,
    not_and, decide_eq_true_eq]

theorem get_of_not_mem {fields : Fields} (h : k ∉ keysOf fields) : get fields k = .undefined := by
  rw [get_eq, find_eq_none.mpr h]
  rfl

theorem mem_keysOf_iff : k ∈ keysOf fields ↔ ∃ a, find fields k = some a := by
  rw [← not_iff_not, ← find_eq_none, Option.eq_none_iff_forall_ne_some]
  push Not
  rfl

theorem mem_keysOf_of_mem (h : (k, a) ∈ fields) : k ∈ keysOf fields :=
  List.mem_map_of_mem (f := Prod.fst) h

theorem assign_of_not_mem (h : k ∉ keysOf fields) : assign fields k a = fields ++ [(k, a)] := by
  induction fields with
  | nil => rfl
  | cons f rest ih =>
    simp only [keysOf, List.map_cons, List.mem_cons, not_or] at h
    simp only [assign, KeyedMap.upsert, if_neg (Ne.symm h.1), List.cons_append, List.cons.injEq,
      true_and]
    exact ih h.2

theorem find_assign (fields : List (String × α)) (k j : String) (a : α) :
    find (assign fields k a) j = if k = j then some a else find fields j := by
  unfold find assign
  rw [KeyedMap.find?_upsert]
  split <;> rfl

theorem find_append (fields rest : List (String × α)) (k : String) :
    find (fields ++ rest) k = (find fields k).or (find rest k) := by
  unfold find
  rw [List.find?_append]
  cases fields.find? _ <;> rfl

theorem find_filter_keys (fields : List (String × α)) (p : String → Bool) (k : String) :
    find (fields.filter fun f => p f.1) k = if p k then find fields k else none := by
  induction fields with
  | nil => simp
  | cons f rest ih =>
    by_cases hp : p f.1 <;> by_cases hk : f.1 = k
    · subst hk; simp [hp, find_cons]
    · simp [hp, find_cons, hk, ih]
    · subst hk; simp [hp, ih]
    · simp [hp, find_cons, hk, ih]

theorem keysOf_filter (fields : List (String × α)) (p : String → Bool) :
    keysOf (fields.filter fun f => p f.1) = (keysOf fields).filter p := by
  unfold keysOf
  rw [List.filter_map]
  rfl

end Properties

end Ez4.Utils

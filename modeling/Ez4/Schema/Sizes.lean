import Ez4.Schema.Transform
import Mathlib.Algebra.BigOperators.Group.Finset.Piecewise
import Mathlib.Algebra.Order.BigOperators.Group.Finset

/-! # Parts of a value

What is within a value and has its size is deep equal to it, where `undefined`
counts as absent. -/
namespace Ez4.Schema
open Ez4.Utils

/-! ## Deep equality and parts -/

/-- The objects in a value have a key once. -/
inductive Proper : Value → Prop
  | undefined : Proper .undefined
  | null : Proper .null
  | bool (b : Bool) : Proper (.bool b)
  | num (n : Number) : Proper (.num n)
  | str (s : String) : Proper (.str s)
  | arr {items : List Value} (h : ∀ item ∈ items, Proper item) : Proper (.arr items)
  | obj {fields : Fields} (hkeys : (keysOf fields).Nodup)
    (h : ∀ field ∈ fields, Proper field.2) : Proper (.obj fields)

/-- Deep equality. An absent property or element is `undefined`. -/
inductive Same : Value → Value → Prop
  | refl (value : Value) : Same value value
  | arr {items others : List Value}
    (h : ∀ index, Same (items.getD index .undefined) (others.getD index .undefined)) :
    Same (.arr items) (.arr others)
  | obj {fields others : Fields} (h : ∀ key, Same (get fields key) (get others key)) :
    Same (.obj fields) (.obj others)

/-- The same value, with parts that may be missing. -/
inductive Within : Value → Value → Prop
  | undefined (value : Value) : Within .undefined value
  | refl (value : Value) : Within value value
  | arr {items others : List Value}
    (h : ∀ index, Within (items.getD index .undefined) (others.getD index .undefined)) :
    Within (.arr items) (.arr others)
  | obj {fields others : Fields} (h : ∀ key, Within (get fields key) (get others key)) :
    Within (.obj fields) (.obj others)

section Parts

variable {r v : Value} {items : List Value} {fields : Fields}

theorem Proper.getD (h : Proper (.arr items)) (index : Nat) :
    Proper (items.getD index .undefined) := by
  rw [List.getD_eq_getElem?_getD]
  cases h with
  | arr h =>
    cases hitem : items[index]? with
    | none => exact .undefined
    | some item => exact h item (List.mem_of_getElem? hitem)

theorem Proper.get (h : Proper (.obj fields)) (key : String) : Proper (get fields key) := by
  rw [get_eq]
  cases h with
  | obj _ h =>
    cases hfield : find fields key with
    | none => exact .undefined
    | some value => exact h (key, value) (mem_of_find hfield)

theorem within_undefined (h : Within r .undefined) : r = .undefined := by
  cases h <;> rfl

theorem same_undefined (h : Same .undefined v) : v = .undefined := by
  cases h
  rfl

theorem Same.get {others : Fields} (h : Same (.obj fields) (.obj others)) (key : String) :
    Same (get fields key) (get others key) := by
  cases h with
  | refl => exact .refl _
  | obj h => exact h key

theorem get_assign (fields : Fields) (key other : String) (value : Value) :
    get (assign fields key value) other = if key = other then value else get fields other := by
  rw [get_eq, find_assign, get_eq]
  by_cases h : key = other <;> simp [h]

theorem keysOf_assign_nodup {key : String} {value : Value} (h : (keysOf fields).Nodup) :
    (keysOf (assign fields key value)).Nodup :=
  Library.KeyedMap.nodup_upsert h

theorem Proper.assign {key : String} {value : Value} (h : Proper (.obj fields))
    (hvalue : Proper value) : Proper (.obj (assign fields key value)) := by
  cases h with
  | obj hkeys h =>
    have hkeys' := @keysOf_assign_nodup _ key value hkeys
    refine .obj hkeys' fun field hmem => ?_
    have hfind : find (Utils.assign fields key value) field.1 = some field.2 :=
      find_of_mem hkeys' hmem
    rw [find_assign] at hfind
    by_cases heq : key = field.1
    · rw [if_pos heq] at hfind
      exact Option.some.inj hfind ▸ hvalue
    · rw [if_neg heq] at hfind
      exact h _ (mem_of_find hfind)

end Parts

/-! ## Sizes -/

section Sizes

variable {r v : Value}

theorem itemSize_eq_zero (h : itemSize v = 0) : v = .undefined := by
  cases v <;> simp [itemSize] at h ⊢

theorem arraySize_eq_sum {items : List Value} {n : Nat} (h : items.length ≤ n) :
    arraySize items = ∑ index ∈ Finset.range n, itemSize (items.getD index .undefined) := by
  induction items generalizing n with
  | nil => simp [arraySize, itemSize]
  | cons item rest ih =>
    obtain ⟨m, rfl⟩ : ∃ m, n = m + 1 := ⟨n - 1, by simp only [List.length_cons] at h; omega⟩
    rw [Finset.sum_range_succ', arraySize, ih (n := m) (by simpa using h)]
    simp [Nat.add_comm]

theorem objectSize_eq_sum {fields : Fields} {keys : Finset String} (hnodup : (keysOf fields).Nodup)
    (h : ∀ key ∈ keysOf fields, key ∈ keys) :
    objectSize fields = ∑ key ∈ keys, itemSize (get fields key) := by
  induction fields with
  | nil => simp [objectSize, get_eq, itemSize]
  | cons field rest ih =>
    obtain ⟨k, value⟩ := field
    obtain ⟨hk, hrest⟩ := List.nodup_cons.mp hnodup
    have hsplit : ∀ key, itemSize (get ((k, value) :: rest) key) =
        (if key = k then itemSize value else 0) + itemSize (get rest key) := by
      intro key
      rw [get_eq, find_cons]
      by_cases heq : k = key
      · subst heq
        simp [get_of_not_mem hk, itemSize]
      · simp [heq, Ne.symm heq, get_eq]
    have hmem : k ∈ keys := h k List.mem_cons_self
    rw [objectSize, ih hrest fun key hkey => h key (List.mem_cons_of_mem _ hkey),
      Finset.sum_congr rfl fun key _ => hsplit key, Finset.sum_add_distrib, Finset.sum_ite_eq']
    simp [hmem]

/-- The sizes of two arrays, element by element. -/
theorem arraySize_sums (items others : List Value) : ∃ n,
    arraySize items = ∑ index ∈ Finset.range n, itemSize (items.getD index .undefined) ∧
    arraySize others = ∑ index ∈ Finset.range n, itemSize (others.getD index .undefined) ∧
    ∀ index, n ≤ index → items.getD index .undefined = .undefined ∧
      others.getD index .undefined = .undefined := by
  refine ⟨max items.length others.length, arraySize_eq_sum (Nat.le_max_left _ _),
    arraySize_eq_sum (Nat.le_max_right _ _), fun index h => ?_⟩
  have hitems : items.length ≤ index := Nat.le_trans (Nat.le_max_left _ _) h
  have hothers : others.length ≤ index := Nat.le_trans (Nat.le_max_right _ _) h
  simp [List.getD_eq_getElem?_getD, hitems, hothers]

/-- The sizes of two objects, property by property. -/
theorem objectSize_sums {fields others : Fields} (hfields : Proper (.obj fields))
    (hothers : Proper (.obj others)) : ∃ keys : Finset String,
    objectSize fields = ∑ key ∈ keys, itemSize (get fields key) ∧
    objectSize others = ∑ key ∈ keys, itemSize (get others key) ∧
    ∀ key ∉ keys, get fields key = .undefined ∧ get others key = .undefined := by
  cases hfields with
  | obj hfields _ =>
    cases hothers with
    | obj hothers _ =>
      refine ⟨(keysOf fields).toFinset ∪ (keysOf others).toFinset,
        objectSize_eq_sum hfields fun key hkey => by simp [hkey],
        objectSize_eq_sum hothers fun key hkey => by simp [hkey], fun key hkey => ?_⟩
      simp only [Finset.mem_union, List.mem_toFinset, not_or] at hkey
      exact ⟨get_of_not_mem hkey.1, get_of_not_mem hkey.2⟩

theorem Within.itemSize_le (h : Within r v) (hr : Proper r) (hv : Proper v) :
    itemSize r ≤ itemSize v := by
  induction h with
  | undefined value => exact Nat.zero_le _
  | refl value => exact Nat.le_refl _
  | arr _ ih =>
    obtain ⟨n, hitems, hothers, -⟩ := arraySize_sums _ _
    rw [itemSize, itemSize, hitems, hothers]
    exact Nat.add_le_add_left
      (Finset.sum_le_sum fun index _ => ih index (hr.getD index) (hv.getD index)) 1
  | obj _ ih =>
    obtain ⟨keys, hfields, hothers, -⟩ := objectSize_sums hr hv
    rw [itemSize, itemSize, hfields, hothers]
    exact Nat.add_le_add_left
      (Finset.sum_le_sum fun key _ => ih key (hr.get key) (hv.get key)) 1

/-- What is within a value and no smaller is the same. -/
theorem Within.same (h : Within r v) (hr : Proper r) (hv : Proper v)
    (hsize : itemSize v ≤ itemSize r) : Same r v := by
  induction h with
  | undefined value =>
    have hzero : itemSize value = 0 := Nat.le_zero.mp hsize
    exact itemSize_eq_zero hzero ▸ .refl _
  | refl value => exact .refl value
  | arr h ih =>
    obtain ⟨n, hitems, hothers, houtside⟩ := arraySize_sums _ _
    have hle : ∀ index, _ ≤ _ := fun index =>
      (h index).itemSize_le (hr.getD index) (hv.getD index)
    rw [itemSize, itemSize, hitems, hothers] at hsize
    have heq := (Finset.sum_eq_sum_iff_of_le fun index (_ : index ∈ Finset.range n) =>
      hle index).mp (Nat.le_antisymm (Finset.sum_le_sum fun index _ => hle index)
        (Nat.le_of_add_le_add_left hsize))
    refine .arr fun index => ?_
    by_cases hindex : index < n
    · exact ih index (hr.getD index) (hv.getD index) (heq index (Finset.mem_range.mpr hindex)).ge
    · obtain ⟨hi, ho⟩ := houtside index (by omega)
      rw [hi, ho]
      exact .refl _
  | obj h ih =>
    obtain ⟨keys, hfields, hothers, houtside⟩ := objectSize_sums hr hv
    have hle : ∀ key, _ ≤ _ := fun key => (h key).itemSize_le (hr.get key) (hv.get key)
    rw [itemSize, itemSize, hfields, hothers] at hsize
    have heq := (Finset.sum_eq_sum_iff_of_le fun key (_ : key ∈ keys) => hle key).mp
      (Nat.le_antisymm (Finset.sum_le_sum fun key _ => hle key)
        (Nat.le_of_add_le_add_left hsize))
    refine .obj fun key => ?_
    by_cases hkey : key ∈ keys
    · exact ih key (hr.get key) (hv.get key) (heq key hkey).ge
    · obtain ⟨hf, ho⟩ := houtside key hkey
      rw [hf, ho]
      exact .refl _

theorem Same.itemSize_eq (h : Same r v) (hr : Proper r) (hv : Proper v) :
    itemSize r = itemSize v := by
  induction h with
  | refl value => rfl
  | arr _ ih =>
    obtain ⟨n, hitems, hothers, -⟩ := arraySize_sums _ _
    rw [itemSize, itemSize, hitems, hothers,
      Finset.sum_congr rfl fun index _ => ih index (hr.getD index) (hv.getD index)]
  | obj _ ih =>
    obtain ⟨keys, hfields, hothers, -⟩ := objectSize_sums hr hv
    rw [itemSize, itemSize, hfields, hothers,
      Finset.sum_congr rfl fun key _ => ih key (hr.get key) (hv.get key)]

/-- What an array or an object counts for besides its parts. -/
def ownSize : Value → Nat
  | .arr _ | .obj _ => 1
  | _ => 0

theorem Within.resultSize_eq (h : Within r v) (hr : r ≠ .undefined) :
    itemSize r = ownSize v + resultSize r := by
  cases h with
  | undefined => exact absurd rfl hr
  | refl => cases r <;> simp [itemSize, ownSize, resultSize] at hr ⊢
  | arr | obj => rfl

end Sizes

end Ez4.Schema

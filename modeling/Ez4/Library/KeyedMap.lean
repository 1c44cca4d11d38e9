import Mathlib.Data.List.Nodup
import Mathlib.Data.List.Basic

/-! # Insertion-ordered maps whose values know their key

A JavaScript object used as a map keeps its keys in the order they were first
written, and writing to a key it has keeps that key's place. `KeyedMap key`
is such a map with every value filed under the key it holds itself
(`key value`), so a value under a foreign key cannot be built. A plain record
is the case of pairs filed under their first component. Keys that JavaScript
would move to the front (array indices) are not told apart. -/

namespace Ez4.Library

/-- Values with distinct keys, in insertion order. -/
structure KeyedMap {κ α : Type} (key : α → κ) where
  values : List α
  nodup : (values.map key).Nodup

namespace KeyedMap

theorem ext_values {κ α : Type} {key : α → κ} {m n : KeyedMap key} (h : m.values = n.values) :
    m = n := by
  cases m; cases n; simp_all

variable {κ α : Type} [DecidableEq κ] {key : α → κ}

instance [DecidableEq α] : DecidableEq (KeyedMap key) := fun m n =>
  decidable_of_iff (m.values = n.values) ⟨ext_values, congrArg values⟩

def empty : KeyedMap key := ⟨[], List.nodup_nil⟩

instance : EmptyCollection (KeyedMap key) := ⟨empty⟩

instance : Inhabited (KeyedMap key) := ⟨∅⟩

def keys (m : KeyedMap key) : List κ := m.values.map key

/-- `map[k]`. -/
def get? (m : KeyedMap key) (k : κ) : Option α := m.values.find? fun a => key a = k

/-- `!!map[k]`. -/
def has (m : KeyedMap key) (k : κ) : Bool := (m.get? k).isSome

/-! ## Writing a value under its key -/

/-- The list with `a` in the place of the value of its key, or at the end. -/
def upsert (key : α → κ) (a : α) : List α → List α
  | [] => [a]
  | b :: rest => if key b = key a then a :: rest else b :: upsert key a rest

theorem mem_keys_upsert {a : α} {l : List α} {k : κ} :
    k ∈ (upsert key a l).map key ↔ k = key a ∨ k ∈ l.map key := by
  induction l with
  | nil => simp [upsert]
  | cons b rest ih =>
    simp only [upsert]
    split
    · rename_i hb
      simp only [List.map_cons, List.mem_cons, hb]
      tauto
    · rw [List.map_cons, List.mem_cons, ih, List.map_cons, List.mem_cons]
      tauto

theorem nodup_upsert {a : α} {l : List α} (h : (l.map key).Nodup) :
    ((upsert key a l).map key).Nodup := by
  induction l with
  | nil => simp [upsert]
  | cons b rest ih =>
    rw [List.map_cons, List.nodup_cons] at h
    obtain ⟨hb, hrest⟩ := h
    simp only [upsert]
    split
    · rename_i he
      simpa [← he] using ⟨by simpa using hb, hrest⟩
    · rename_i hne
      rw [List.map_cons, List.nodup_cons]
      refine ⟨fun hm => ?_, ih hrest⟩
      rcases mem_keys_upsert.mp hm with he | hm
      · exact hne he
      · exact hb hm

/-- `map[key a] = a`. -/
def set (m : KeyedMap key) (a : α) : KeyedMap key :=
  ⟨upsert key a m.values, nodup_upsert m.nodup⟩

/-- `delete map[k]`. -/
def erase (m : KeyedMap key) (k : κ) : KeyedMap key :=
  ⟨m.values.filter fun a => key a ≠ k, m.nodup.sublist (List.filter_sublist.map key)⟩

/-- The values whose key passes the test. -/
def filterKeys (m : KeyedMap key) (p : κ → Bool) : KeyedMap key :=
  ⟨m.values.filter fun a => p (key a), m.nodup.sublist (List.filter_sublist.map key)⟩

/-- `{ ...m, ...n }`. -/
def spread (m n : KeyedMap key) : KeyedMap key := n.values.foldl set m

/-- The map with a function applied to each value, which keeps its key. -/
def mapValues (m : KeyedMap key) (f : α → α) (hf : ∀ a, key (f a) = key a) : KeyedMap key :=
  ⟨m.values.map f, by
    have he : key ∘ f = key := funext hf
    rw [List.map_map, he]; exact m.nodup⟩

/-! ## Reading -/

theorem find?_upsert (a : α) (l : List α) (k : κ) :
    (upsert key a l).find? (fun b => key b = k) =
      if key a = k then some a else l.find? fun b => key b = k := by
  induction l with
  | nil => by_cases h : key a = k <;> simp [upsert, h]
  | cons b rest ih =>
    simp only [upsert]
    split
    · rename_i he
      by_cases h : key a = k
      · simp [h]
      · simp [h, he]
    · rename_i hne
      by_cases hb : key b = k
      · have ha : key a ≠ k := fun ha => hne (hb.trans ha.symm)
        simp [hb, ha]
      · simp only [List.find?_cons, hb, decide_false, ih]

@[simp] theorem get?_empty (k : κ) : (∅ : KeyedMap key).get? k = none := rfl

@[simp] theorem get?_set (m : KeyedMap key) (a : α) (k : κ) :
    (m.set a).get? k = if key a = k then some a else m.get? k :=
  find?_upsert a m.values k

theorem get?_set_self (m : KeyedMap key) (a : α) : (m.set a).get? (key a) = some a := by simp

theorem get?_set_of_ne {m : KeyedMap key} {a : α} {k : κ} (h : key a ≠ k) :
    (m.set a).get? k = m.get? k := by simp [h]

@[simp] theorem get?_filterKeys (m : KeyedMap key) (p : κ → Bool) (k : κ) :
    (m.filterKeys p).get? k = if p k then m.get? k else none := by
  unfold get? filterKeys
  rw [List.find?_filter]
  by_cases h : p k
  · rw [if_pos h]
    congr 1
    funext a
    by_cases ha : key a = k <;> simp [ha, h]
  · rw [if_neg h, List.find?_eq_none]
    intro a _
    by_cases ha : key a = k <;> simp [ha, h]

@[simp] theorem get?_erase (m : KeyedMap key) (k j : κ) :
    (m.erase k).get? j = if j = k then none else m.get? j := by
  unfold get? erase
  rw [List.find?_filter]
  by_cases h : j = k
  · subst h
    rw [if_pos rfl, List.find?_eq_none]
    simp
  · rw [if_neg h]
    congr 1
    funext a
    by_cases ha : key a = j <;> simp [ha, h]

theorem key_of_get? {m : KeyedMap key} {k : κ} {a : α} (h : m.get? k = some a) : key a = k := by
  simpa using List.find?_some h

theorem mem_of_get? {m : KeyedMap key} {k : κ} {a : α} (h : m.get? k = some a) :
    a ∈ m.values := List.mem_of_find?_eq_some h

theorem find?_of_mem {l : List α} {a : α} (hn : (l.map key).Nodup) (h : a ∈ l) :
    l.find? (fun b => key b = key a) = some a := by
  induction l with
  | nil => simp at h
  | cons b rest ih =>
    rw [List.map_cons, List.nodup_cons] at hn
    obtain ⟨hb, hrest⟩ := hn
    rcases List.mem_cons.mp h with rfl | h
    · simp
    · have hne : key b ≠ key a := fun he => hb (he ▸ List.mem_map_of_mem h)
      simpa [List.find?_cons, hne] using ih hrest h

theorem get?_of_mem {m : KeyedMap key} {a : α} (h : a ∈ m.values) : m.get? (key a) = some a :=
  find?_of_mem m.nodup h

theorem has_iff {m : KeyedMap key} {k : κ} : m.has k = true ↔ ∃ a, m.get? k = some a :=
  Option.isSome_iff_exists

theorem has_eq_false {m : KeyedMap key} {k : κ} : m.has k = false ↔ m.get? k = none := by
  simp [has]

theorem mem_keys_iff {m : KeyedMap key} {k : κ} : k ∈ m.keys ↔ m.has k = true := by
  rw [has_iff, keys, List.mem_map]
  constructor
  · rintro ⟨a, ha, rfl⟩; exact ⟨a, get?_of_mem ha⟩
  · rintro ⟨a, ha⟩; exact ⟨a, mem_of_get? ha, key_of_get? ha⟩

theorem has_of_mem {m : KeyedMap key} {a : α} (h : a ∈ m.values) : m.has (key a) = true :=
  has_iff.mpr ⟨a, get?_of_mem h⟩

theorem erase_of_has_eq_false {m : KeyedMap key} {k : κ} (h : m.has k = false) : m.erase k = m := by
  refine ext_values (List.filter_eq_self.mpr fun a ha => ?_)
  have hne : key a ≠ k := fun he => by
    rw [← he, has_of_mem ha] at h
    cases h
  simpa using hne

theorem get?_foldl_set (l : List α) (hn : (l.map key).Nodup) (m : KeyedMap key) (k : κ) :
    (l.foldl set m).get? k = (l.find? fun a => key a = k).or (m.get? k) := by
  induction l generalizing m with
  | nil => simp
  | cons a rest ih =>
    rw [List.map_cons, List.nodup_cons] at hn
    obtain ⟨ha, hrest⟩ := hn
    rw [List.foldl_cons, ih hrest, get?_set]
    by_cases h : key a = k
    · have hnone : rest.find? (fun b => key b = k) = none := by
        rw [List.find?_eq_none]
        intro b hb
        have : key b ≠ key a := fun he => ha (he ▸ List.mem_map_of_mem hb)
        simpa [← h] using this
      simp [h, hnone]
    · simp [h]

@[simp] theorem get?_spread (m n : KeyedMap key) (k : κ) :
    (m.spread n).get? k = (n.get? k).or (m.get? k) :=
  get?_foldl_set n.values n.nodup m k

end KeyedMap

end Ez4.Library

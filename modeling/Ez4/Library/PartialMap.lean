import Mathlib.Data.List.Nodup

/-! # Partial maps and their updates

Maps from keys to optional values, one value put or moved at a time. Values
moved between distinct keys all arrive (`Renaming`), and updates of distinct
keys don't disturb one another (`foldlM_put`). -/

namespace Ez4.Library

variable {κ α : Type}

/-- What a partial function keeps of a list, it keeps in place. -/
theorem sublist_map_filterMap {ι β : Type} {f : ι → Option β} {key : ι → κ} {key' : β → κ}
    (h : ∀ a b, f a = some b → key' b = key a) (l : List ι) :
    ((l.filterMap f).map key').Sublist (l.map key) := by
  induction l with
  | nil => exact List.Sublist.refl _
  | cons a rest ih =>
    rw [List.filterMap_cons]
    cases hf : f a with
    | none => exact ih.cons _
    | some b =>
      rw [List.map_cons, List.map_cons, h a b hf]
      exact ih.cons_cons _

/-- Renames from distinct keys to distinct keys, none of them to one renamed. -/
structure Renaming (renames : List (κ × κ)) : Prop where
  from_nodup : (renames.map Prod.fst).Nodup
  to_nodup : (renames.map Prod.snd).Nodup
  disjoint : ∀ k ∈ renames.map Prod.fst, k ∉ renames.map Prod.snd

namespace Renaming

variable {renames : List (κ × κ)} {r : κ × κ} {f g : κ}

theorem tail (h : Renaming (r :: renames)) : Renaming renames where
  from_nodup := (List.nodup_cons.mp h.from_nodup).2
  to_nodup := (List.nodup_cons.mp h.to_nodup).2
  disjoint k hf ht := h.disjoint k (List.mem_cons_of_mem _ hf) (List.mem_cons_of_mem _ ht)

theorem nil : Renaming ([] : List (κ × κ)) := ⟨by simp, by simp, by simp⟩

/-- Two renames that share no key. -/
theorem ne_of_mem_tail (h : Renaming (r :: renames)) (hm : (f, g) ∈ renames) :
    f ≠ r.1 ∧ f ≠ r.2 ∧ g ≠ r.1 ∧ g ≠ r.2 := by
  have hf : f ∈ renames.map Prod.fst := List.mem_map_of_mem hm
  have hg : g ∈ renames.map Prod.snd := List.mem_map_of_mem hm
  refine ⟨?_, ?_, ?_, ?_⟩ <;> rintro rfl
  · exact (List.nodup_cons.mp h.from_nodup).1 hf
  · exact h.disjoint r.2 (List.mem_cons_of_mem _ hf) List.mem_cons_self
  · exact h.disjoint r.1 List.mem_cons_self (List.mem_cons_of_mem _ hg)
  · exact (List.nodup_cons.mp h.to_nodup).1 hg

end Renaming

variable [DecidableEq κ]

/-- A map with another value under a key. -/
def put (m : κ → Option α) (key : κ) (value : Option α) : κ → Option α :=
  fun k => if k = key then value else m k

section Put

variable (m : κ → Option α) (key : κ) (value : Option α)

@[simp] theorem put_self : put m key value key = value := if_pos rfl

theorem put_of_ne {k : κ} (h : k ≠ key) : put m key value k = m k := if_neg h

theorem put_apply (k : κ) : put m key value k = if k = key then value else m k := rfl

theorem put_eq_some_iff {k : κ} {a b : α} :
    put m key (some a) k = some b ↔ (k = key ∧ a = b) ∨ (k ≠ key ∧ m k = some b) := by
  rw [put_apply]
  by_cases h : k = key <;> simp [h]

@[simp] theorem put_put (other : Option α) : put (put m key value) key other = put m key other := by
  funext k
  simp only [put_apply]
  split <;> rfl

@[simp] theorem put_eq_self : put m key (m key) = m := by
  funext k
  rw [put_apply]
  split
  · rename_i h; rw [h]
  · rfl

end Put

/-! ## Values moved -/

/-- A map with what it has under the first key moved to the second. -/
def move (m : κ → Option α) (r : κ × κ) : κ → Option α := put (put m r.1 none) r.2 (m r.1)

theorem move_to (m : κ → Option α) (r : κ × κ) : move m r r.2 = m r.1 := put_self _ _ _

theorem move_of_ne (m : κ → Option α) {r : κ × κ} {k : κ} (hf : k ≠ r.1) (ht : k ≠ r.2) :
    move m r k = m k := by
  rw [move, put_of_ne _ _ _ ht, put_of_ne _ _ _ hf]

namespace Renaming

variable {renames : List (κ × κ)} {r : κ × κ} {f g k : κ}

/-- A key that no rename is about keeps its value. -/
theorem foldl_move_of_not_mem (m : κ → Option α) (hf : k ∉ renames.map Prod.fst)
    (ht : k ∉ renames.map Prod.snd) : renames.foldl move m k = m k := by
  induction renames generalizing m with
  | nil => rfl
  | cons r rest ih =>
    rw [List.map_cons, List.mem_cons, not_or] at hf ht
    rw [List.foldl_cons, ih _ hf.2 ht.2, move_of_ne m hf.1 ht.1]

/-- What was under the old key is under the new one. -/
theorem foldl_move_to (h : Renaming renames) (m : κ → Option α) (hm : (f, g) ∈ renames) :
    renames.foldl move m g = m f := by
  induction renames generalizing m with
  | nil => simp at hm
  | cons r rest ih =>
    rw [List.foldl_cons]
    rcases List.mem_cons.mp hm with rfl | hm
    · rw [foldl_move_of_not_mem _ (fun hg => h.disjoint g (List.mem_cons_of_mem _ hg)
        List.mem_cons_self) (List.nodup_cons.mp h.to_nodup).1]
      exact move_to m (f, g)
    · obtain ⟨h₁, h₂, -, -⟩ := h.ne_of_mem_tail hm
      rw [ih h.tail _ hm, move_of_ne m h₁ h₂]

/-- Nothing is left under an old key. -/
theorem foldl_move_from (h : Renaming renames) (m : κ → Option α) (hm : f ∈ renames.map Prod.fst) :
    renames.foldl move m f = none := by
  induction renames generalizing m with
  | nil => simp at hm
  | cons r rest ih =>
    rw [List.foldl_cons]
    by_cases hr : f ∈ rest.map Prod.fst
    · exact ih h.tail _ hr
    · have hf : f = r.1 := by simpa [hr] using hm
      have hg : f ∉ rest.map Prod.snd := fun hg =>
        h.disjoint f hm (List.mem_cons_of_mem _ hg)
      rw [foldl_move_of_not_mem _ hr hg, move, hf, put_of_ne, put_self]
      exact fun he => h.disjoint r.1 List.mem_cons_self (he ▸ List.mem_cons_self)

end Renaming

/-! ## Runs that update distinct keys -/

/-- A run whose steps each update a key of their own ends with every update
made. A step may read what the run started with under its key. -/
theorem foldlM_put {ι : Type} {l : List ι} {key : ι → κ} {out : ι → Option α}
    {run : (κ → Option α) → ι → Option (κ → Option α)} (hn : (l.map key).Nodup)
    {m : κ → Option α}
    (h : ∀ i ∈ l, ∀ n : κ → Option α, n (key i) = m (key i) → run n i = some (put n (key i) (out i))) :
    ∃ n, l.foldlM run m = some n ∧ (∀ i ∈ l, n (key i) = out i) ∧
      ∀ k, k ∉ l.map key → n k = m k := by
  induction l generalizing m with
  | nil => exact ⟨m, rfl, by simp, fun _ _ => rfl⟩
  | cons i rest ih =>
    rw [List.map_cons, List.nodup_cons] at hn
    have hne : ∀ j ∈ rest, key j ≠ key i := fun j hj he =>
      hn.1 (he ▸ List.mem_map_of_mem hj)
    obtain ⟨n, hrun, hmem, hother⟩ := ih (m := put m (key i) (out i)) hn.2 fun j hj n hj' =>
      h j (List.mem_cons_of_mem _ hj) n (by rw [hj', put_of_ne _ _ _ (hne j hj)])
    refine ⟨n, ?_, fun j hj => ?_, fun k hk => ?_⟩
    · rw [List.foldlM_cons, h i List.mem_cons_self m rfl]
      exact hrun
    · rcases List.mem_cons.mp hj with rfl | hj
      · rw [hother _ hn.1, put_self]
      · exact hmem j hj
    · rw [List.map_cons, List.mem_cons, not_or] at hk
      rw [hother k hk.2, put_of_ne _ _ _ hk.1]

end Ez4.Library

import Mathlib.Data.List.Perm.Basic
import Mathlib.Data.List.Range

/-! # Lists in parts

A list is its parts by a numbered key, in some order. What a list loses is
what is not in the rest of it. -/
namespace Ez4.Library.Parts

variable {α β : Type}

/-- The parts of a list by a key below a bound make up the list. -/
theorem perm_parts (key : α → Nat) {l : List α} {bound : Nat} (h : ∀ a ∈ l, key a < bound) :
    l.Perm ((List.range bound).flatMap fun k => l.filter fun a => key a == k) := by
  have hbelow : ∀ k, (l.filter fun a => decide (key a < k)).Perm
      ((List.range k).flatMap fun k => l.filter fun a => key a == k) := by
    intro k
    induction k with
    | zero => simp
    | succ k ih =>
      rw [List.range_succ, List.flatMap_append, List.flatMap_singleton]
      have hsplit := List.filter_append_perm (fun a => decide (key a < k))
        (l.filter fun a => decide (key a < k + 1))
      have hlow : (l.filter fun a => decide (key a < k + 1)).filter (fun a => decide (key a < k)) =
          l.filter fun a => decide (key a < k) := by
        rw [List.filter_filter]
        exact List.filter_congr fun a _ => by simp; omega
      have hhigh : (l.filter fun a => decide (key a < k + 1)).filter
          (fun a => !decide (key a < k)) = l.filter fun a => key a == k := by
        rw [List.filter_filter]
        refine List.filter_congr fun a _ => Bool.eq_iff_iff.mpr ?_
        simp
        omega
      rw [hlow, hhigh] at hsplit
      exact hsplit.symm.trans (ih.append_right _)
  have hall : (l.filter fun a => decide (key a < bound)) = l :=
    List.filter_eq_self.mpr fun a ha => decide_eq_true (h a ha)
  have hperm := hbelow bound
  rwa [hall] at hperm

theorem sublist_flatMap {l : List α} {f g : α → List β} (h : ∀ a ∈ l, (f a).Sublist (g a)) :
    (l.flatMap f).Sublist (l.flatMap g) := by
  induction l with
  | nil => exact List.Sublist.refl _
  | cons a l ih =>
    rw [List.flatMap_cons, List.flatMap_cons]
    exact (h a List.mem_cons_self).append (ih fun b hb => h b (List.mem_cons_of_mem _ hb))

/-- Of a list without repetitions, one part is what is not in the other. -/
theorem perm_filter_not_mem [DecidableEq α] {a b l : List α} (h : (a ++ b).Perm l)
    (hl : l.Nodup) : a.Perm (l.filter fun x => decide (x ∉ b)) := by
  have hnodup := h.nodup_iff.mpr hl
  have hdisjoint := (List.nodup_append.mp hnodup).2.2
  have hkept : (a ++ b).filter (fun x => decide (x ∉ b)) = a := by
    rw [List.filter_append, List.filter_eq_self.mpr, List.filter_eq_nil_iff.mpr, List.append_nil]
    · simp
    · exact fun x hx => decide_eq_true fun hb => hdisjoint x hx x hb rfl
  have hperm := h.filter fun x => decide (x ∉ b)
  rwa [hkept] at hperm

end Ez4.Library.Parts

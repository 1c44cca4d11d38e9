import Mathlib.Data.List.MinMax

/-! # The first of the best

`List.argmax` keeps the first element of the greatest value. Where a value is
taken once in each of two lists, the element kept of both doesn't depend on the
order of either. -/

namespace Ez4.Library.Argmax

variable {α β : Type} [DecidableEq α] [LinearOrder β] {f : α → β} {l l' k k' : List α} {a m : α}

/-- An element of the first list wins over one of the second that is as good. -/
theorem mem_left (h : m ∈ List.argmax f (l ++ k)) (ha : a ∈ l) (hle : f m ≤ f a) : m ∈ l := by
  obtain ⟨-, -, hfirst⟩ := List.mem_argmax_iff.mp h
  have hm := hfirst a (List.mem_append_left k ha) hle
  rw [List.idxOf_append_of_mem ha] at hm
  by_contra hmem
  rw [List.idxOf_append_of_notMem hmem] at hm
  have := List.idxOf_lt_length_of_mem ha
  omega

theorem eq_of_perm (hl : ∀ a ∈ l, ∀ b ∈ l, f a = f b → a = b)
    (hk : ∀ a ∈ k, ∀ b ∈ k, f a = f b → a = b) (hpl : l.Perm l') (hpk : k.Perm k') :
    List.argmax f (l ++ k) = List.argmax f (l' ++ k') := by
  have hperm : (l ++ k).Perm (l' ++ k') := hpl.append hpk
  cases hm : List.argmax f (l ++ k) with
  | none =>
    rw [List.argmax_eq_none] at hm
    have hnil := hm ▸ hperm
    rw [List.nil_perm.mp hnil, List.argmax_nil]
  | some m =>
    cases hm' : List.argmax f (l' ++ k') with
    | none =>
      rw [List.argmax_eq_none] at hm'
      have hnil := List.perm_nil.mp (hm' ▸ hperm)
      rw [hnil, List.argmax_nil] at hm
      exact absurd hm (by simp)
    | some m' =>
      have hmem := List.argmax_mem hm
      have hmem' := hperm.mem_iff.mpr (List.argmax_mem hm')
      have hf : f m = f m' :=
        le_antisymm (List.le_of_mem_argmax (hperm.mem_iff.mp hmem) hm')
          (List.le_of_mem_argmax hmem' hm)
      rw [Option.some.injEq]
      rcases List.mem_append.mp hmem with h | h
      · have h' := hpl.mem_iff.mpr (mem_left hm' (hpl.mem_iff.mp h) hf.ge)
        exact hl m h m' h' hf
      · rcases List.mem_append.mp hmem' with h' | h'
        · exact hl m (mem_left hm h' hf.le) m' h' hf
        · exact hk m h m' h' hf

end Ez4.Library.Argmax

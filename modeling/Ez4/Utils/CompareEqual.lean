import Ez4.Utils.ObjectCompare

/-! # Comparing and testing equality

A comparison counts nothing exactly when the equality test passes. The
counters are signed, and a rename takes back what an earlier key counted, but
the first key that differs finds no candidate to be renamed from or to: it
counts one, and no key counts less than nothing. -/

namespace Ez4.Utils

namespace CompareState

/-- What the loop has counted. -/
def total (st : CompareState) : Int :=
  st.counter.create + st.counter.update + st.counter.remove + st.counter.rename +
    st.counter.nested

@[simp] theorem counts_result (st : CompareState) : st.result.counts = st.total := rfl

/-- No key differed so far. -/
structure Quiet (st : CompareState) : Prop where
  total : st.total = 0
  toCreateKeys : st.toCreateKeys = []
  toRemoveKeys : st.toRemoveKeys = []

theorem quiet_init : Quiet {} := ⟨rfl, rfl, rfl⟩

section Keys

variable {o : CompareOptions} {key : String} {value : Value} {st : CompareState}

/-- A key gained counts one, or nothing when it is a rename. -/
theorem total_gain : st.total ≤ (st.gain o key value).total := by
  unfold gain
  dsimp only
  split <;> simp only [total] <;> omega

theorem total_lose : st.total ≤ (st.lose o key value).total := by
  unfold lose
  dsimp only
  split <;> simp only [total] <;> omega

/-- With no key lost so far, a key gained is no rename. -/
theorem Quiet.gain (h : Quiet st) : 0 < (st.gain o key value).total := by
  have ht := h.total
  simp only [CompareState.gain, h.toRemoveKeys, getSimilarName, List.find?_nil, accepts]
  simp only [CompareState.total] at ht ⊢
  omega

theorem Quiet.lose (h : Quiet st) : 0 < (st.lose o key value).total := by
  have ht := h.total
  simp only [CompareState.lose, h.toCreateKeys, getSimilarName, List.find?_nil, accepts]
  simp only [CompareState.total] at ht ⊢
  omega

theorem total_change {change : Change} : (st.change key change).total = st.total + 1 := by
  simp only [CompareState.change, total]
  omega

theorem total_nest {changes : ObjectComparison} :
    (st.nest key changes).total = if 0 < changes.counts then st.total + 1 else st.total := by
  unfold nest
  split
  · simp only [total]; omega
  · rfl

end Keys

section Step

variable {array : List Value → List Value → ArrayComparison}
  {object : Fields → Fields → ObjectComparison} {equalArray : List Value → List Value → Bool}
  {equalObject : Fields → Fields → Bool} {o : CompareOptions} {target source : Fields}
  {key : String} {st : CompareState}

/-- How the comparison of nested arrays and objects agrees with their equality. -/
structure Agreeing (array : List Value → List Value → ArrayComparison)
    (object : Fields → Fields → ObjectComparison) (equalArray : List Value → List Value → Bool)
    (equalObject : Fields → Fields → Bool) : Prop where
  arrays : ∀ t s, 0 < (array t s).counts ↔ equalArray t s = false
  objects : ∀ t s, 0 < (object t s).counts ↔ equalObject t s = false
  nonneg : ∀ t s, 0 ≤ (object t s).counts

/-- The two values of a key are told equal. -/
def sameValues (equalArray : List Value → List Value → Bool) (equalObject : Fields → Fields → Bool)
    (o : CompareOptions) : Value → Value → Bool :=
  equalValues (fun t s => o.deep && equalArray t s) fun t s => o.deep && equalObject t s

theorem sameValues_undefined_left {v : Value} :
    sameValues equalArray equalObject o .undefined v = v.isUndefined := by
  cases v <;> rfl

theorem sameValues_undefined_right {v : Value} :
    sameValues equalArray equalObject o v .undefined = v.isUndefined := by
  cases v <;> rfl

variable (o key st) in
/-- A key with a value in both counts one when the values differ, and leaves
the loop where it is when they do not. -/
theorem both_spec (h : Agreeing array object equalArray equalObject) (t s : Value) :
    if sameValues equalArray equalObject o t s then st.both array object o.deep key t s = st
    else (st.both array object o.deep key t s).total = st.total + 1 := by
  unfold sameValues
  generalize o.deep = deep
  cases t <;> cases s <;> simp only [both, equalValues]
  case arr.arr t s =>
    cases deep with
    | false => simp [total_change]
    | true =>
      by_cases hc : 0 < (array t s).counts
      · simp [hc, total_change, (h.arrays t s).mp hc]
      · simp [hc, (Bool.not_eq_false _).mp (mt (h.arrays t s).mpr hc)]
  case obj.obj t s =>
    cases deep with
    | false => simp [total_change]
    | true =>
      by_cases hc : 0 < (object t s).counts
      · simp [hc, total_nest, (h.objects t s).mp hc]
      · simp [hc, nest, (Bool.not_eq_false _).mp (mt (h.objects t s).mpr hc)]
  all_goals (split <;> simp_all [total_change])

theorem isUndefined_eq_true {v : Value} (h : v.isUndefined = true) : v = .undefined := by
  cases v <;> first | rfl | cases h

/-- A key never takes back what the others counted. -/
theorem total_compareKey (h : Agreeing array object equalArray equalObject) :
    st.total ≤ (st.compareKey array object o target source key).total := by
  unfold compareKey
  split
  · exact Int.le_refl _
  · dsimp only
    split
    · exact Int.le_refl _
    · exact total_gain
    · exact total_lose
    · have hb := both_spec o key st h (get target key) (get source key)
      split at hb
      · exact Int.le_of_eq (by rw [hb])
      · omega

/-- A key that is left out, or the same on both sides, changes nothing. -/
theorem compareKey_same (h : Agreeing array object equalArray equalObject)
    (hsame : o.selection.skips key = true ∨
      sameValues equalArray equalObject o (get target key) (get source key) = true) :
    st.compareKey array object o target source key = st := by
  unfold compareKey
  split
  · rfl
  · rename_i hskip
    have hsame := hsame.resolve_left hskip
    dsimp only
    split
    · rfl
    · rename_i ht hs
      rw [isUndefined_eq_true hs, sameValues_undefined_right, ht] at hsame
      cases hsame
    · rename_i ht hs
      rw [isUndefined_eq_true ht, sameValues_undefined_left, hs] at hsame
      cases hsame
    · have hb := both_spec o key st h (get target key) (get source key)
      rwa [if_pos hsame] at hb

/-- The first key that differs counts. -/
theorem Quiet.differs (h : Agreeing array object equalArray equalObject) (hq : Quiet st)
    (hskip : o.selection.skips key = false)
    (hdiffer : sameValues equalArray equalObject o (get target key) (get source key) = false) :
    0 < (st.compareKey array object o target source key).total := by
  simp only [compareKey, hskip, Bool.false_eq_true, if_false]
  split
  · rename_i ht hs
    rw [isUndefined_eq_true hs, sameValues_undefined_right, ht] at hdiffer
    cases hdiffer
  · exact hq.gain
  · exact hq.lose
  · have hb := both_spec o key st h (get target key) (get source key)
    rw [hdiffer, if_neg (by simp), hq.total] at hb
    omega

end Step

section Loop

variable {array : List Value → List Value → ArrayComparison}
  {object : String → Fields → Fields → ObjectComparison}
  {equalArray : List Value → List Value → Bool} {equalObject : String → Fields → Fields → Bool}
  {o : CompareOptions} {target source : Fields}

theorem total_le_foldl (h : ∀ key, Agreeing array (object key) equalArray (equalObject key))
    (keys : List String) (st : CompareState) :
    st.total ≤
      (keys.foldl (fun st key => st.compareKey array (object key) o target source key) st).total := by
  induction keys generalizing st with
  | nil => exact Int.le_refl _
  | cons key rest ih => exact Int.le_trans (total_compareKey (h key)) (ih _)

/-- **The loop over the keys** counts, from nothing, exactly when a key
differs. -/
theorem Quiet.foldl (h : ∀ key, Agreeing array (object key) equalArray (equalObject key))
    {st : CompareState} (hq : Quiet st) (keys : List String) :
    0 < (keys.foldl (fun st key => st.compareKey array (object key) o target source key) st).total ↔
      (keys.all fun key => o.selection.skips key ||
        sameValues equalArray (equalObject key) o (get target key) (get source key)) = false := by
  induction keys with
  | nil => simp [hq.total]
  | cons key rest ih =>
    rw [List.foldl_cons, List.all_cons]
    by_cases hsame : (o.selection.skips key ||
        sameValues equalArray (equalObject key) o (get target key) (get source key)) = true
    · rw [compareKey_same (h key) (Bool.or_eq_true_iff.mp hsame), ih, hsame, Bool.true_and]
    · rw [Bool.not_eq_true] at hsame
      obtain ⟨hskip, hdiffer⟩ := Bool.or_eq_false_iff.mp hsame
      rw [hsame, Bool.false_and, eq_self, iff_true]
      exact Int.lt_of_lt_of_le (hq.differs (h key) hskip hdiffer) (total_le_foldl h rest _)

end Loop

end CompareState

open CompareState in
/-- One index of an array counts when its values differ. -/
theorem ArrayComparison.counts_compareIndex
    {array : List Value → List Value → ArrayComparison}
    {object : Fields → Fields → ObjectComparison} {equalArray : List Value → List Value → Bool}
    {equalObject : Fields → Fields → Bool} (h : Agreeing array object equalArray equalObject)
    {target source : List Value} {c : ArrayComparison} {index : Nat} :
    (c.compareIndex array object target source index).counts =
      if equalValues equalArray equalObject (target.getD index .undefined)
        (source.getD index .undefined) then c.counts else c.counts + 1 := by
  unfold compareIndex
  generalize target.getD index .undefined = t
  generalize source.getD index .undefined = s
  cases t <;> cases s <;> simp only [equalValues]
  case arr.arr t s =>
    by_cases hc : 0 < (array t s).counts
    · simp [hc, change, (h.arrays t s).mp hc]
    · simp [hc, (Bool.not_eq_false _).mp (mt (h.arrays t s).mpr hc)]
  case obj.obj t s =>
    by_cases hc : 0 < (object t s).counts
    · simp [Int.ne_of_gt hc, change, (h.objects t s).mp hc]
    · have hz : (object t s).counts = 0 := by
        have := h.nonneg t s
        omega
      simp [hz, (Bool.not_eq_false _).mp (mt (h.objects t s).mpr hc)]
  all_goals simp [Value.strictEq, change, apply_ite ArrayComparison.counts]

/-- The loop over the indices counts when some index differs. -/
theorem ArrayComparison.counts_foldl
    {array : List Value → List Value → ArrayComparison}
    {object : Fields → Fields → ObjectComparison} {equalArray : List Value → List Value → Bool}
    {equalObject : Fields → Fields → Bool}
    (h : CompareState.Agreeing array object equalArray equalObject) {target source : List Value}
    (indices : List Nat) (c : ArrayComparison) :
    c.counts < (indices.foldl (compareIndex array object target source) c).counts ↔
      (indices.all fun index => equalValues equalArray equalObject
        (target.getD index .undefined) (source.getD index .undefined)) = false := by
  have hle : ∀ (rest : List Nat) (c : ArrayComparison),
      c.counts ≤ (rest.foldl (compareIndex array object target source) c).counts := by
    intro rest
    induction rest with
    | nil => exact fun _ => Nat.le_refl _
    | cons index rest ih =>
      intro c
      refine Nat.le_trans ?_ (ih _)
      rw [counts_compareIndex h]
      split <;> omega
  induction indices generalizing c with
  | nil => simp
  | cons index rest ih =>
    rw [List.foldl_cons, List.all_cons]
    have hindex := @counts_compareIndex _ _ _ _ h target source c index
    by_cases hsame : equalValues equalArray equalObject (target.getD index .undefined)
        (source.getD index .undefined) = true
    · rw [if_pos hsame] at hindex
      rw [hsame, Bool.true_and, ← hindex]
      exact ih _
    · rw [if_neg hsame] at hindex
      rw [(Bool.not_eq_true _).mp hsame, Bool.false_and, eq_self, iff_true]
      have := hle rest (compareIndex array object target source c index)
      omega

/-! ## Comparison and equality of whole values -/

open CompareState in
theorem agreeing (fuel : Nat) (o : CompareOptions) :
    Agreeing (compareArray fuel) (compareObject fuel o) (equalArray fuel)
      (equalObject fuel o.toEqualityOptions) := by
  induction fuel generalizing o with
  | zero => exact ⟨fun t s => by simp [compareArray, equalArray, ArrayComparison.empty],
      fun t s => by simp [compareObject, equalObject, CompareState.total],
      fun t s => Int.le_refl _⟩
  | succ fuel ih =>
    refine ⟨fun t s => ?_, fun t s => ?_, fun t s => ?_⟩
    · rw [compareArray, equalArray]
      exact ArrayComparison.counts_foldl (ih {}) _ .empty
    · rw [compareObject, equalObject, counts_result]
      exact quiet_init.foldl (fun key => ih (o.at key)) _
    · rw [compareObject, counts_result]
      exact total_le_foldl (fun key => ih (o.at key)) _ {}

end Ez4.Utils

import Ez4.Library.PartialMap
import Ez4.Utils.ObjectCompare

/-! # What a comparison says of each key

For objects without an `undefined` property: the comparison of the whole
target (`Compared`), read off the loop over the keys. The target's keys come
first and only gain, so every rename is found among the source's own keys,
each of which takes one of the keys gained. -/

namespace Ez4.Utils
open Ez4.Library

/-- No property is `undefined`, and no key comes twice. -/
structure Defined (fields : Fields) : Prop where
  nodup : (keysOf fields).Nodup
  value : ∀ k v, (k, v) ∈ fields → v.isUndefined = false

theorem Defined.get_eq {fields : Fields} (h : Defined fields) {k : String} {v : Value}
    (hm : (k, v) ∈ fields) : get fields k = v := by
  rw [get, find_of_mem h.nodup hm]
  rfl

/-- The properties of `fields` that `other` has not. -/
def only (fields other : Fields) : Fields := fields.filter fun f => f.1 ∉ keysOf other

/-- The changes inside the value under a key of the target. -/
def nestedOf (o : CompareOptions) (source : Fields) (f : String × Value) :
    Option (String × ObjectComparison) :=
  match f.2, find source f.1 with
  | .obj target, some (.obj source) =>
    let changes := deepCompareObject (o.at f.1) target source
    if 0 < changes.counts then some (f.1, changes) else none
  | _, _ => none

/-- The new value under a key of the target. -/
def updateOf (source : Fields) (f : String × Value) : Option (String × Change) :=
  match f.2, find source f.1 with
  | .arr target, some (.arr source) =>
    let changes := deepCompareArray target source
    if 0 < changes.counts then some (f.1, .array changes) else none
  | .obj _, some (.obj _) => none
  | _, none => none
  | target, some source => if target.strictEq source then none else some (f.1, .value target)

/-- What the comparison of two objects says, key by key. -/
structure Compared (o : CompareOptions) (target source : Fields) (c : ObjectComparison) :
    Prop where
  create : c.create = (only target source).filter fun f => f.1 ∉ c.rename.map Prod.snd
  remove : c.remove = (only source target).filter fun f => f.1 ∉ c.rename.map Prod.fst
  update : c.update = target.filterMap (updateOf source)
  nested : c.nested = target.filterMap (nestedOf o source)
  from_nodup : (c.rename.map Prod.fst).Nodup
  to_nodup : (c.rename.map Prod.snd).Nodup
  from_only : ∀ f g, (f, g) ∈ c.rename → f ∈ keysOf (only source target)
  to_only : ∀ f g, (f, g) ∈ c.rename → g ∈ keysOf (only target source)
  accepted : ∀ f g, (f, g) ∈ c.rename →
    ∀ onRename, o.onRename = some onRename → onRename (get target g) (get source f) = true
  counts : c.counts = c.create.length + c.update.length + c.remove.length + c.rename.length +
    c.nested.length

section Loop

variable {o : CompareOptions} {target source : Fields}

/-- The loop has been through the part `p` of the target. -/
def gained (o : CompareOptions) (source p : Fields) : CompareState where
  toCreateKeys := keysOf (only p source)
  nested := p.filterMap (nestedOf o source)
  toCreate := only p source
  toUpdate := p.filterMap (updateOf source)
  counter :=
    { create := (only p source).length
      update := (p.filterMap (updateOf source)).length
      nested := (p.filterMap (nestedOf o source)).length }

theorem keysOf_filterMap_subset {α β : Type} {l : List (String × α)}
    {f : String × α → Option (String × β)} (hf : ∀ a b, f a = some b → b.1 = a.1) {k : String}
    (h : k ∈ keysOf (l.filterMap f)) : k ∈ keysOf l := by
  obtain ⟨b, hb, rfl⟩ := List.mem_map.mp h
  obtain ⟨a, ha, hab⟩ := List.mem_filterMap.mp hb
  exact List.mem_map.mpr ⟨a, ha, (hf a b hab).symm⟩

theorem nestedOf_key {f : String × Value} {g : String × ObjectComparison}
    (h : nestedOf o source f = some g) : g.1 = f.1 := by
  unfold nestedOf at h
  split at h
  · simp only [Option.ite_none_right_eq_some, Option.some.injEq] at h
    exact h.2 ▸ rfl
  · simp at h

theorem updateOf_key {f : String × Value} {g : String × Change}
    (h : updateOf source f = some g) : g.1 = f.1 := by
  unfold updateOf at h
  split at h
  · simp only [Option.ite_none_right_eq_some, Option.some.injEq] at h
    exact h.2 ▸ rfl
  · simp at h
  · simp at h
  · simp only [Option.ite_none_left_eq_some, Option.some.injEq] at h
    exact h.2 ▸ rfl

/-- With no key lost so far, a key gained is created. -/
theorem gain_gained {p : Fields} {k : String} {v : Value} (hp : k ∉ keysOf p)
    (hk : k ∉ keysOf source) :
    (gained o source p).gain o k v = gained o source (p ++ [(k, v)]) := by
  have hnot : k ∉ keysOf (only p source) := fun h => by
    unfold only at h
    rw [keysOf_filter p fun k => decide (k ∉ keysOf source)] at h
    exact hp (List.mem_of_mem_filter h)
  have hfind : find source k = none := find_eq_none.mpr hk
  have hn : nestedOf o source (k, v) = none := by
    unfold nestedOf; simp only [hfind]
  have hu : updateOf source (k, v) = none := by
    unfold updateOf; simp only [hfind]
  have honly : only (p ++ [(k, v)]) source = only p source ++ [(k, v)] := by
    simp [only, List.filter_append, hk]
  simp only [CompareState.gain, gained, getSimilarName, List.find?_nil, List.eraseP_nil, accepts,
    List.filterMap_append, List.filterMap_cons, hn, hu, List.filterMap_nil, List.append_nil, honly,
    assign_of_not_mem hnot, keysOf, List.map_append, List.map_cons, List.map_nil,
    List.length_append, List.length_singleton, Int.natCast_succ]

theorem nestedOf_not_mem (o : CompareOptions) (source : Fields) {p : Fields} {k : String} (hp : k ∉ keysOf p) :
    k ∉ keysOf (p.filterMap (nestedOf o source)) := fun h =>
  hp (keysOf_filterMap_subset (fun _ _ => nestedOf_key) h)

theorem updateOf_not_mem (source : Fields) {p : Fields} {k : String} (hp : k ∉ keysOf p) :
    k ∉ keysOf (p.filterMap (updateOf source)) := fun h =>
  hp (keysOf_filterMap_subset (fun _ _ => updateOf_key) h)

/-- A key of both changes only the updates and the nested changes. -/
theorem both_gained {p : Fields} {k : String} {v w : Value} (hdeep : o.deep = true)
    (hp : k ∉ keysOf p) (hw : find source k = some w) :
    (gained o source p).both deepCompareArray (deepCompareObject (o.at k)) o.deep k v w =
      gained o source (p ++ [(k, v)]) := by
  have hk : k ∈ keysOf source := mem_keysOf_iff.mpr ⟨w, hw⟩
  have honly : only (p ++ [(k, v)]) source = only p source := by
    simp [only, List.filter_append, hk]
  have hn := nestedOf_not_mem o source hp
  have hu := updateOf_not_mem source hp
  cases v <;> cases w <;>
    simp only [CompareState.both, CompareState.change, CompareState.nest, hdeep, if_true, gained,
      nestedOf, updateOf, hw, List.filterMap_append, List.filterMap_cons, List.filterMap_nil,
      List.append_nil, honly] <;>
    (try split) <;>
    simp_all [assign_of_not_mem]

theorem isUndefined_get (h : Defined target) {k : String} :
    (get target k).isUndefined = true ↔ k ∉ keysOf target := by
  constructor
  · rintro hu hk
    obtain ⟨v, hv⟩ := mem_keysOf_iff.mp hk
    have := h.value k v (mem_of_find hv)
    rw [get, hv, Option.getD_some] at hu
    simp_all
  · intro hk
    rw [get_of_not_mem hk]; rfl

theorem step_gained (hskip : ∀ key, o.selection.skips key = false) (hdeep : o.deep = true)
    (ht : Defined target) (hs : Defined source) {p : Fields} {k : String} {v : Value}
    (hm : (k, v) ∈ target) (hp : k ∉ keysOf p) :
    (gained o source p).step o target source k = gained o source (p ++ [(k, v)]) := by
  have htv : (get target k).isUndefined = false := by
    rw [ht.get_eq hm]; exact ht.value k v hm
  unfold CompareState.step CompareState.compareKey
  simp only [hskip, Bool.false_eq_true, if_false, htv]
  by_cases hk : k ∈ keysOf source
  · obtain ⟨w, hw⟩ := mem_keysOf_iff.mp hk
    have hsv : (get source k).isUndefined = false := by
      rw [← Bool.not_eq_true, isUndefined_get hs]; exact not_not_intro hk
    have hgw : get source k = w := by rw [get, hw]; rfl
    simp only [hsv]
    rw [ht.get_eq hm, hgw]
    exact both_gained hdeep hp hw
  · have hsv := (isUndefined_get hs).mpr hk
    simp only [hsv]
    rw [ht.get_eq hm]
    exact gain_gained hp hk

/-- The loop over the keys of the target. -/
theorem foldl_target (hskip : ∀ key, o.selection.skips key = false) (hdeep : o.deep = true)
    (ht : Defined target) (hs : Defined source) {p q : Fields} (hpq : p ++ q = target) :
    (keysOf q).foldl (CompareState.step o target source) (gained o source p) =
      gained o source target := by
  induction q generalizing p with
  | nil => rw [← hpq, List.append_nil]; rfl
  | cons f q ih =>
    obtain ⟨k, v⟩ := f
    have hp : k ∉ keysOf p := fun h => by
      have hn := ht.nodup
      rw [← hpq, keysOf, List.map_append, List.nodup_append] at hn
      exact hn.2.2 k h k (by simp) rfl
    have hm : (k, v) ∈ target := by rw [← hpq]; simp
    rw [keysOf, List.map_cons, List.foldl_cons, step_gained hskip hdeep ht hs hm hp]
    exact ih (by rw [List.append_assoc, List.singleton_append]; exact hpq)

/-- The loop has been through the target, and through the part `q` of the
source's own properties, `pairs` being the renames found. -/
def lost (o : CompareOptions) (target source q : Fields) (free : List String)
    (pairs : List (String × String)) : CompareState where
  toCreateKeys := free
  toRemoveKeys := keysOf q
  nested := target.filterMap (nestedOf o source)
  toRename := pairs
  toCreate := (only target source).filter fun f => f.1 ∉ pairs.map Prod.snd
  toUpdate := target.filterMap (updateOf source)
  toRemove := q.filter fun f => f.1 ∉ pairs.map Prod.fst
  counter :=
    { create := ((only target source).filter fun f => f.1 ∉ pairs.map Prod.snd).length
      update := (target.filterMap (updateOf source)).length
      remove := (q.filter fun f => f.1 ∉ pairs.map Prod.fst).length
      rename := pairs.length
      nested := (target.filterMap (nestedOf o source)).length }

/-- The renames found so far, and the keys gained that are still free to be
found. -/
structure Paired (o : CompareOptions) (target source q : Fields) (free : List String)
    (pairs : List (String × String)) : Prop where
  free_nodup : free.Nodup
  free_only : ∀ k ∈ free, k ∈ keysOf (only target source)
  free_not_to : ∀ k ∈ free, k ∉ pairs.map Prod.snd
  from_nodup : (pairs.map Prod.fst).Nodup
  to_nodup : (pairs.map Prod.snd).Nodup
  from_mem : ∀ f ∈ pairs.map Prod.fst, f ∈ keysOf q
  to_only : ∀ g ∈ pairs.map Prod.snd, g ∈ keysOf (only target source)
  accepted : ∀ f g, (f, g) ∈ pairs →
    ∀ onRename, o.onRename = some onRename → onRename (get target g) (get source f) = true

theorem not_mem_eraseP {l : List String} {p : String → Bool} {a : String} (hn : l.Nodup)
    (h : l.find? p = some a) : a ∉ l.eraseP p := by
  induction l with
  | nil => simp
  | cons b rest ih =>
    rw [List.nodup_cons] at hn
    by_cases hb : p b
    · rw [List.find?_cons_of_pos hb, Option.some.injEq] at h
      rw [List.eraseP_cons_of_pos hb]
      exact h ▸ hn.1
    · rw [List.find?_cons_of_neg hb] at h
      rw [List.eraseP_cons_of_neg hb, List.mem_cons, not_or]
      refine ⟨?_, ih hn.2 h⟩
      rintro rfl
      exact hb (List.find?_some h)

theorem length_remove {α : Type} {fields : List (String × α)} (hn : (keysOf fields).Nodup)
    {k : String} (hk : k ∈ keysOf fields) :
    ((remove fields k).length : Int) = fields.length - 1 := by
  induction fields with
  | nil => simp [keysOf] at hk
  | cons f rest ih =>
    simp only [keysOf, List.map_cons, List.nodup_cons] at hn
    by_cases hf : f.1 = k
    · have hrest : remove rest k = rest := by
        refine List.filter_eq_self.mpr fun g hg => ?_
        simp only [decide_eq_true_eq]
        rintro rfl
        exact hn.1 (hf ▸ List.mem_map_of_mem hg)
      simp only [remove] at hrest ⊢
      rw [List.filter_cons_of_neg (by simp [hf]), hrest, List.length_cons]
      omega
    · have hk' : k ∈ keysOf rest := by
        simp only [keysOf, List.map_cons, List.mem_cons] at hk
        exact hk.resolve_left (Ne.symm hf)
      have := ih hn.2 hk'
      simp only [remove] at this ⊢
      rw [List.filter_cons_of_pos (by simp [hf]), List.length_cons, List.length_cons]
      omega

theorem accepts_eq_some {found : Option String} {rename : String → Value × Value} {name : String}
    (h : accepts o found rename = some name) :
    found = some name ∧
      ∀ onRename, o.onRename = some onRename →
        onRename (rename name).1 (rename name).2 = true := by
  unfold accepts at h
  split at h
  · split at h
    · simp at h
    · split at h
      · rename_i hnone
        simp only [Option.some.injEq] at h
        exact ⟨by rw [h], fun r hr => by simp [hnone] at hr⟩
      · rename_i r hr
        simp only [Option.ite_none_right_eq_some, Option.some.injEq] at h
        obtain ⟨ha, rfl⟩ := h
        refine ⟨rfl, fun r' hr' => ?_⟩
        rw [hr, Option.some.injEq] at hr'
        exact hr' ▸ ha
  · simp at h

theorem keysOf_only (fields other : Fields) :
    keysOf (only fields other) = (keysOf fields).filter (· ∉ keysOf other) :=
  keysOf_filter fields fun k => decide (k ∉ keysOf other)

theorem nodup_only (h : Defined target) : (keysOf (only target source)).Nodup := by
  rw [keysOf_only]
  exact h.nodup.filter _

theorem get_filter_keys (fields : Fields) {p : String → Bool} {k : String} (hk : p k = true) :
    get (fields.filter fun f => p f.1) k = get fields k := by
  rw [get, get, find_filter_keys, if_pos hk]

theorem Paired.keep {q : Fields} {free : List String} {pairs : List (String × String)}
    (h : Paired o target source q free pairs) (p : String → Bool) (f : String × Value) :
    Paired o target source (q ++ [f]) (free.eraseP p) pairs where
  free_nodup := h.free_nodup.sublist List.eraseP_sublist
  free_only k hk := h.free_only k (List.mem_of_mem_eraseP hk)
  free_not_to k hk := h.free_not_to k (List.mem_of_mem_eraseP hk)
  from_nodup := h.from_nodup
  to_nodup := h.to_nodup
  from_mem k hk := by
    rw [keysOf, List.map_append]
    exact List.mem_append_left _ (h.from_mem k hk)
  to_only := h.to_only
  accepted := h.accepted

theorem Paired.pair {q : Fields} {free : List String} {pairs : List (String × String)}
    (h : Paired o target source q free pairs) {p : String → Bool} {k g : String} {v : Value}
    (hq : k ∉ keysOf q) (hg : free.find? p = some g)
    (ha : ∀ onRename, o.onRename = some onRename → onRename (get target g) (get source k) = true) :
    Paired o target source (q ++ [(k, v)]) (free.eraseP p) (pairs ++ [(k, g)]) := by
  have hkeep := h.keep p (k, v)
  have hmem := List.mem_of_find?_eq_some hg
  have hfrom : k ∉ pairs.map Prod.fst := fun hk => hq (h.from_mem k hk)
  refine { hkeep with
    free_not_to := fun j hj => ?_, from_nodup := ?_, to_nodup := ?_, from_mem := fun j hj => ?_,
    to_only := fun j hj => ?_, accepted := fun a b hab => ?_ }
  · rw [List.map_append, List.mem_append, not_or]
    refine ⟨hkeep.free_not_to j hj, ?_⟩
    intro hj'
    obtain rfl : j = g := List.mem_singleton.mp hj'
    exact not_mem_eraseP h.free_nodup hg hj
  · rw [List.map_append, List.nodup_append]
    refine ⟨h.from_nodup, List.nodup_singleton _, fun a hm b hb hab => ?_⟩
    obtain rfl : b = k := List.mem_singleton.mp hb
    exact hfrom (hab ▸ hm)
  · rw [List.map_append, List.nodup_append]
    refine ⟨h.to_nodup, List.nodup_singleton _, fun a hm b hb hab => ?_⟩
    obtain rfl : b = g := List.mem_singleton.mp hb
    exact h.free_not_to b hmem (hab ▸ hm)
  · rw [List.map_append, List.mem_append] at hj
    rcases hj with hj | hj
    · exact hkeep.from_mem j hj
    · rw [List.map_singleton, List.mem_singleton] at hj
      rw [hj, keysOf, List.map_append]
      simp
  · rw [List.map_append, List.mem_append] at hj
    rcases hj with hj | hj
    · exact h.to_only j hj
    · rw [List.map_singleton, List.mem_singleton] at hj
      exact hj ▸ h.free_only g hmem
  · rcases List.mem_append.mp hab with hab | hab
    · exact h.accepted a b hab
    · obtain ⟨rfl, rfl⟩ := Prod.mk.inj (List.mem_singleton.mp hab)
      exact ha

/-- A key lost takes a key gained that is still free, or is removed. -/
theorem lose_lost (ht : Defined target) {q : Fields} {free : List String}
    {pairs : List (String × String)} {k : String} {v : Value}
    (h : Paired o target source q free pairs) (hq : k ∉ keysOf q) (hv : get source k = v) :
    ∃ free' pairs', (lost o target source q free pairs).lose o k v =
        lost o target source (q ++ [(k, v)]) free' pairs' ∧
      Paired o target source (q ++ [(k, v)]) free' pairs' := by
  obtain ⟨p, hp⟩ : ∃ p, getSimilarName k free o.onCompareName = (free.find? p, free.eraseP p) :=
    ⟨_, rfl⟩
  have hfrom : k ∉ pairs.map Prod.fst := fun hk => hq (h.from_mem k hk)
  simp only [CompareState.lose, lost, hp]
  split
  · -- The key takes the free key `g`.
    rename_i g hg
    obtain ⟨hg, ha⟩ := accepts_eq_some hg
    have hmem := List.mem_of_find?_eq_some hg
    have hgto := h.free_not_to g hmem
    have hgonly := h.free_only g hmem
    have hget : get ((only target source).filter fun f => f.1 ∉ pairs.map Prod.snd) g =
        get target g := by
      rw [keysOf_only, List.mem_filter] at hgonly
      rw [get_filter_keys _ (p := fun k => decide (k ∉ pairs.map Prod.snd)) (by simpa using hgto),
        only, get_filter_keys _ (p := fun k => decide (k ∉ keysOf source)) hgonly.2]
    have hcreate : (only target source).filter (fun f => f.1 ∉ (pairs ++ [(k, g)]).map Prod.snd) =
        remove ((only target source).filter fun f => f.1 ∉ pairs.map Prod.snd) g := by
      rw [remove, List.filter_filter]
      refine List.filter_congr fun f _ => ?_
      rw [List.map_append, ← Bool.decide_and, decide_eq_decide, List.mem_append, not_or, and_comm]
      simp
    have hkeys : keysOf ((only target source).filter fun f => f.1 ∉ pairs.map Prod.snd) =
        (keysOf (only target source)).filter (· ∉ pairs.map Prod.snd) :=
      keysOf_filter _ fun k => decide (k ∉ pairs.map Prod.snd)
    have hlength : ((remove ((only target source).filter fun f => f.1 ∉ pairs.map Prod.snd)
        g).length : Int) =
          ((only target source).filter fun f => f.1 ∉ pairs.map Prod.snd).length - 1 := by
      refine length_remove (hkeys ▸ (nodup_only ht).filter _) ?_
      rw [hkeys, List.mem_filter]
      exact ⟨hgonly, by simpa using hgto⟩
    have hremove : (q ++ [(k, v)]).filter (fun f => f.1 ∉ (pairs ++ [(k, g)]).map Prod.fst) =
        q.filter fun f => f.1 ∉ pairs.map Prod.fst := by
      rw [List.filter_append, List.filter_cons_of_neg (by simp), List.filter_nil, List.append_nil]
      refine List.filter_congr fun f hf => ?_
      have hne : f.1 ≠ k := fun he => hq (he ▸ List.mem_map_of_mem hf)
      simp [hne]
    refine ⟨free.eraseP p, pairs ++ [(k, g)], ?_, h.pair hq hg fun r hr => ?_⟩
    · rw [hcreate, hremove, hlength, assign_of_not_mem hfrom]
      simp [keysOf]
    · have := ha r hr
      simp only [hget] at this
      rw [hv]
      exact this
  · have hremove : (q ++ [(k, v)]).filter (fun f => f.1 ∉ pairs.map Prod.fst) =
        q.filter (fun f => f.1 ∉ pairs.map Prod.fst) ++ [(k, v)] := by
      rw [List.filter_append, List.filter_cons_of_pos (by simpa using hfrom), List.filter_nil]
    refine ⟨free.eraseP p, pairs, ?_, h.keep p _⟩
    have hnot : k ∉ keysOf (q.filter fun f => f.1 ∉ pairs.map Prod.fst) := by
      rw [keysOf_filter _ fun k => decide (k ∉ pairs.map Prod.fst)]
      exact fun hk => hq (List.mem_of_mem_filter hk)
    rw [hremove, assign_of_not_mem hnot]
    simp [keysOf]

theorem step_lost (hskip : ∀ key, o.selection.skips key = false)
    (ht : Defined target) (hs : Defined source) {q : Fields} {free : List String}
    {pairs : List (String × String)} {k : String} {v : Value} (hm : (k, v) ∈ source)
    (hk : k ∉ keysOf target) (h : Paired o target source q free pairs) (hq : k ∉ keysOf q) :
    ∃ free' pairs', (lost o target source q free pairs).step o target source k =
        lost o target source (q ++ [(k, v)]) free' pairs' ∧
      Paired o target source (q ++ [(k, v)]) free' pairs' := by
  have hsv : (get source k).isUndefined = false := by
    rw [hs.get_eq hm]; exact hs.value k v hm
  unfold CompareState.step CompareState.compareKey
  simp only [hskip, Bool.false_eq_true, if_false, hsv, (isUndefined_get ht).mpr hk]
  rw [hs.get_eq hm]
  exact lose_lost ht h hq (hs.get_eq hm)

/-- The loop over the keys that only the source has. -/
theorem foldl_source (hskip : ∀ key, o.selection.skips key = false)
    (ht : Defined target) (hs : Defined source) {q r : Fields} {free : List String}
    {pairs : List (String × String)} (hqr : q ++ r = only source target)
    (h : Paired o target source q free pairs) :
    ∃ free' pairs', (keysOf r).foldl (CompareState.step o target source)
        (lost o target source q free pairs) =
        lost o target source (only source target) free' pairs' ∧
      Paired o target source (only source target) free' pairs' := by
  induction r generalizing q free pairs with
  | nil =>
    rw [List.append_nil] at hqr
    exact ⟨free, pairs, hqr ▸ rfl, hqr ▸ h⟩
  | cons f r ih =>
    obtain ⟨k, v⟩ := f
    have hmem : (k, v) ∈ only source target := by rw [← hqr]; simp
    have hk : k ∉ keysOf target := by simpa using (List.mem_filter.mp hmem).2
    have hq : k ∉ keysOf q := fun hkq => by
      have hn : (keysOf (only source target)).Nodup := nodup_only hs
      rw [← hqr, keysOf, List.map_append, List.nodup_append] at hn
      exact hn.2.2 k hkq k (by simp) rfl
    rw [keysOf, List.map_cons, List.foldl_cons]
    obtain ⟨free', pairs', he, h'⟩ :=
      step_lost hskip ht hs (List.mem_of_mem_filter hmem) hk h hq
    rw [he]
    exact ih (by rw [List.append_assoc, List.singleton_append]; exact hqr) h'

end Loop

/-- A part counted by its entries is never left out of the result. -/
theorem keep_counted {α : Type} {l : List α} {n : Int} (h : n = l.length) :
    (if n ≠ 0 then l else []) = l := by
  split
  · rfl
  · cases l <;> simp_all
    omega

theorem result_of_counted {st : CompareState} (hc : st.counter.create = st.toCreate.length)
    (hu : st.counter.update = st.toUpdate.length) (hr : st.counter.remove = st.toRemove.length)
    (hn : st.counter.rename = st.toRename.length) (hd : st.counter.nested = st.nested.length) :
    st.result =
      { counts := st.toCreate.length + st.toUpdate.length + st.toRemove.length +
          st.toRename.length + st.nested.length
        create := st.toCreate, update := st.toUpdate, remove := st.toRemove
        rename := st.toRename, nested := st.nested } := by
  simp only [CompareState.result, keep_counted hc, keep_counted hu, keep_counted hr,
    keep_counted hn, keep_counted hd]
  rw [hc, hu, hr, hn, hd]

/-- **What the comparison of two objects says of each key.** -/
theorem compared {o : CompareOptions} {target source : Fields}
    (hskip : ∀ key, o.selection.skips key = false) (hdeep : o.deep = true)
    (ht : Defined target) (hs : Defined source) :
    Compared o target source (deepCompareObject o target source) := by
  have hstart : Paired o target source [] (keysOf (only target source)) [] := by
    constructor <;> simp [nodup_only ht]
  obtain ⟨free, pairs, he, h⟩ :=
    foldl_source hskip ht hs (List.nil_append (only source target)) hstart
  have hgained : gained o source target = lost o target source [] (keysOf (only target source)) [] := by
    have hall : ((only target source).filter fun f => f.1 ∉ ([] : List (String × String)).map Prod.snd) =
        only target source := by simp
    simp only [gained, lost, hall]
    simp [keysOf]
  have hresult : deepCompareObject o target source =
      (lost o target source (only source target) free pairs).result := by
    have hfirst := foldl_target hskip hdeep ht hs (List.nil_append target)
    rw [deepCompareObject_eq, allKeys, List.foldl_append, ← he, ← hgained, ← hfirst, keysOf_only]
    rfl
  rw [hresult, result_of_counted rfl rfl rfl rfl rfl]
  exact
    { create := rfl
      remove := rfl
      update := rfl
      nested := rfl
      from_nodup := h.from_nodup
      to_nodup := h.to_nodup
      from_only := fun f g hfg => h.from_mem f (List.mem_map.mpr ⟨(f, g), hfg, rfl⟩)
      to_only := fun f g hfg => h.to_only g (List.mem_map.mpr ⟨(f, g), hfg, rfl⟩)
      accepted := h.accepted
      counts := rfl }

/-! ## The parts, key by key -/

theorem find_filterMap {α β : Type} {l : List (String × α)}
    {g : String × α → Option (String × β)} (hg : ∀ a b, g a = some b → b.1 = a.1)
    (hn : (keysOf l).Nodup) (k : String) :
    find (l.filterMap g) k = (find l k).bind fun v => (g (k, v)).map Prod.snd := by
  induction l with
  | nil => rfl
  | cons f rest ih =>
    obtain ⟨j, v⟩ := f
    simp only [keysOf, List.map_cons, List.nodup_cons] at hn
    rw [List.filterMap_cons, find_cons]
    by_cases hk : j = k
    · subst hk
      rw [if_pos rfl, Option.bind_some]
      cases hv : g (j, v) with
      | none =>
        have hnone : find (rest.filterMap g) j = none :=
          find_eq_none.mpr fun h => hn.1 (keysOf_filterMap_subset hg h)
        simpa using hnone
      | some b => simp [find_cons, hg _ _ hv]
    · rw [if_neg hk]
      cases hv : g (j, v) with
      | none => exact ih hn.2
      | some b =>
        have hb : b.1 ≠ k := fun he => hk ((hg _ _ hv).symm.trans he)
        simpa [find_cons, hb] using ih hn.2

namespace Compared

variable {o : CompareOptions} {target source : Fields} {c : ObjectComparison}

theorem find_create (h : Compared o target source c) (k : String) :
    find c.create k =
      if k ∈ keysOf source ∨ k ∈ c.rename.map Prod.snd then none else find target k := by
  rw [h.create, find_filter_keys _ fun k => decide (k ∉ c.rename.map Prod.snd), only,
    find_filter_keys _ fun k => decide (k ∉ keysOf source)]
  by_cases h₁ : k ∈ keysOf source <;> by_cases h₂ : k ∈ c.rename.map Prod.snd <;> simp [h₁, h₂]

theorem find_remove (h : Compared o target source c) (k : String) :
    find c.remove k =
      if k ∈ keysOf target ∨ k ∈ c.rename.map Prod.fst then none else find source k := by
  rw [h.remove, find_filter_keys _ fun k => decide (k ∉ c.rename.map Prod.fst), only,
    find_filter_keys _ fun k => decide (k ∉ keysOf target)]
  by_cases h₁ : k ∈ keysOf target <;> by_cases h₂ : k ∈ c.rename.map Prod.fst <;> simp [h₁, h₂]

theorem mem_create (h : Compared o target source c) {k : String} :
    k ∈ keysOf c.create ↔
      k ∈ keysOf target ∧ k ∉ keysOf source ∧ k ∉ c.rename.map Prod.snd := by
  rw [h.create, keysOf_filter _ fun k => decide (k ∉ c.rename.map Prod.snd), keysOf_only,
    List.mem_filter, List.mem_filter, decide_eq_true_eq, decide_eq_true_eq, and_assoc]

theorem mem_remove (h : Compared o target source c) {k : String} :
    k ∈ keysOf c.remove ↔
      k ∈ keysOf source ∧ k ∉ keysOf target ∧ k ∉ c.rename.map Prod.fst := by
  rw [h.remove, keysOf_filter _ fun k => decide (k ∉ c.rename.map Prod.fst), keysOf_only,
    List.mem_filter, List.mem_filter, decide_eq_true_eq, decide_eq_true_eq, and_assoc]

theorem find_update (h : Compared o target source c) (ht : Defined target) (k : String) :
    find c.update k = (find target k).bind fun v => (updateOf source (k, v)).map Prod.snd := by
  rw [h.update, find_filterMap (fun _ _ => updateOf_key) ht.nodup]

theorem find_nested (h : Compared o target source c) (ht : Defined target) (k : String) :
    find c.nested k = (find target k).bind fun v => (nestedOf o source (k, v)).map Prod.snd := by
  rw [h.nested, find_filterMap (fun _ _ => nestedOf_key) ht.nodup]

/-- Two objects under one key are compared in turn. -/
theorem find_nested_obj (h : Compared o target source c) (ht : Defined target) {k : String}
    {t s : Fields} (hk : find target k = some (.obj t)) (hs : find source k = some (.obj s)) :
    find c.nested k =
      if 0 < (deepCompareObject (o.at k) t s).counts then some (deepCompareObject (o.at k) t s)
      else none := by
  rw [h.find_nested ht, hk, Option.bind_some]
  simp only [nestedOf, hs]
  split <;> rfl

/-- A key that only one side has takes no nested changes. -/
theorem find_nested_of_none (h : Compared o target source c) (ht : Defined target) {k : String}
    (hk : find target k = none ∨ find source k = none) : find c.nested k = none := by
  rw [h.find_nested ht]
  rcases hk with hk | hk
  · rw [hk]; rfl
  · cases find target k with
    | none => rfl
    | some v => cases v <;> simp [nestedOf, hk]

theorem nodup_nested (h : Compared o target source c) (ht : Defined target) :
    (keysOf c.nested).Nodup := by
  rw [h.nested]
  exact ht.nodup.sublist (sublist_map_filterMap (fun _ _ => nestedOf_key) target)

/-- With no change counted every part is empty. -/
theorem eq_nil_of_counts (h : Compared o target source c) (hc : ¬ 0 < c.counts) :
    c.create = [] ∧ c.update = [] ∧ c.remove = [] ∧ c.rename = [] ∧ c.nested = [] := by
  have := h.counts
  simp only [← List.length_eq_zero_iff]
  omega

end Compared

end Ez4.Utils

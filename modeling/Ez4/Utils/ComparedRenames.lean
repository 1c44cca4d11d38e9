import Ez4.Utils.ComparedKeys
import Ez4.Utils.CompareEqual

/-! # Renames, one to one

The renames of a comparison whose objects may have properties that are
explicitly `undefined`. A key of the target can then be lost before others
are gained, and a key that found its partner at its own turn stays among the
candidates of the other side. A later key may find it there again (`Reuses`):
`pairsOneToOne_iff` says that this is all that goes wrong. -/

namespace Ez4.Utils
open Ez4.Library

section

variable (o : CompareOptions) (target source : Fields)

/-- An included key with a value in the target only. -/
def Gained (key : String) : Prop :=
  o.selection.skips key = false ∧ (get target key).isUndefined = false ∧
    (get source key).isUndefined = true

/-- An included key with a value in the source only. -/
def Lost (key : String) : Prop :=
  o.selection.skips key = false ∧ (get target key).isUndefined = true ∧
    (get source key).isUndefined = false

/-- The renames of a comparison pair the keys lost with keys gained, and its
count is that of its entries. -/
structure PairsOneToOne (c : ObjectComparison) : Prop where
  gained : ∀ key, Gained o target source key →
    (c.rename.countP fun pair => pair.2 = key) = if key ∈ keysOf c.create then 0 else 1
  lost : ∀ key, Lost o target source key →
    (c.rename.countP fun pair => pair.1 = key) = if key ∈ keysOf c.remove then 0 else 1
  renamed : ∀ old new, (old, new) ∈ c.rename → Lost o target source old ∧
    Gained o target source new ∧ ∀ onRename, o.onRename = some onRename →
      onRename (get target new) (get source old) = true
  old_nodup : (c.rename.map Prod.fst).Nodup
  new_nodup : (c.rename.map Prod.snd).Nodup
  counts : c.counts = c.create.length + c.update.length + c.remove.length + c.rename.length +
    c.nested.length

end

namespace CompareState

/-- The key lost that a key gained is told to be the new name of. -/
def removeKey (o : CompareOptions) (key : String) (value : Value) (st : CompareState) :
    Option String :=
  accepts o (getSimilarName key st.toRemoveKeys o.onCompareName).1 fun name =>
    (value, get st.toRemove name)

/-- The key gained that a key lost is told to be the old name of. -/
def createKey (o : CompareOptions) (key : String) (value : Value) (st : CompareState) :
    Option String :=
  accepts o (getSimilarName key st.toCreateKeys o.onCompareName).1 fun name =>
    (get st.toCreate name, value)

/-- The key is matched with a key of the other side that a rename already
took out of `toRemove` or `toCreate`. -/
def Reuses (o : CompareOptions) (target source : Fields) (st : CompareState) (key : String) :
    Prop :=
  (Gained o target source key ∧ ∃ name, st.removeKey o key (get target key) = some name ∧
    name ∉ keysOf st.toRemove) ∨
  (Lost o target source key ∧ ∃ name, st.createKey o key (get source key) = some name ∧
    name ∉ keysOf st.toCreate)

/-! ## What a key gained or lost does -/

section Found

variable {o : CompareOptions} {key : String} {value : Value} {st : CompareState} {name : String}

theorem sublist_getSimilarName (key : String) (keys : List String)
    (predicate : Option (String → String → Bool)) :
    (getSimilarName key keys predicate).2.Sublist keys := List.eraseP_sublist

theorem mem_of_getSimilarName {keys : List String} {predicate : Option (String → String → Bool)}
    (h : (getSimilarName key keys predicate).1 = some name) : name ∈ keys :=
  List.mem_of_find?_eq_some h

theorem not_mem_getSimilarName {keys : List String} {predicate : Option (String → String → Bool)}
    (hn : keys.Nodup) (h : (getSimilarName key keys predicate).1 = some name) :
    name ∉ (getSimilarName key keys predicate).2 := not_mem_eraseP hn h

theorem gain_of_none (h : st.removeKey o key value = none) :
    st.gain o key value = { st with
      toCreateKeys := st.toCreateKeys ++ [key]
      toRemoveKeys := (getSimilarName key st.toRemoveKeys o.onCompareName).2
      toCreate := assign st.toCreate key value
      counter := { st.counter with create := st.counter.create + 1 } } := by
  unfold removeKey at h
  simp only [gain, h]

theorem gain_of_some (h : st.removeKey o key value = some name) :
    st.gain o key value = { st with
      toCreateKeys := st.toCreateKeys ++ [key]
      toRemoveKeys := (getSimilarName key st.toRemoveKeys o.onCompareName).2
      toRemove := remove st.toRemove name
      toRename := assign st.toRename name key
      counter :=
        { st.counter with remove := st.counter.remove - 1, rename := st.counter.rename + 1 } } := by
  unfold removeKey at h
  simp only [gain, h]

theorem lose_of_none (h : st.createKey o key value = none) :
    st.lose o key value = { st with
      toRemoveKeys := st.toRemoveKeys ++ [key]
      toCreateKeys := (getSimilarName key st.toCreateKeys o.onCompareName).2
      toRemove := assign st.toRemove key value
      counter := { st.counter with remove := st.counter.remove + 1 } } := by
  unfold createKey at h
  simp only [lose, h]

theorem lose_of_some (h : st.createKey o key value = some name) :
    st.lose o key value = { st with
      toRemoveKeys := st.toRemoveKeys ++ [key]
      toCreateKeys := (getSimilarName key st.toCreateKeys o.onCompareName).2
      toCreate := remove st.toCreate name
      toRename := assign st.toRename key name
      counter :=
        { st.counter with create := st.counter.create - 1, rename := st.counter.rename + 1 } } := by
  unfold createKey at h
  simp only [lose, h]

end Found

end CompareState

/-! ## Properties written and deleted -/

section Written

variable {α : Type} {fields : List (String × α)} {k j : String} {a : α}

theorem mem_keysOf_assign : j ∈ keysOf (assign fields k a) ↔ j = k ∨ j ∈ keysOf fields :=
  KeyedMap.mem_keys_upsert

theorem nodup_keysOf_assign (h : (keysOf fields).Nodup) : (keysOf (assign fields k a)).Nodup :=
  KeyedMap.nodup_upsert h

theorem mem_assign {b : α} (hn : (keysOf fields).Nodup) :
    (j, b) ∈ assign fields k a ↔ j = k ∧ b = a ∨ j ≠ k ∧ (j, b) ∈ fields := by
  have hassign := nodup_keysOf_assign (k := k) (a := a) hn
  constructor
  · intro h
    have hfind := find_of_mem hassign h
    rw [find_assign] at hfind
    split at hfind
    · rename_i he
      exact .inl ⟨he.symm, (Option.some.inj hfind).symm⟩
    · rename_i hne
      exact .inr ⟨Ne.symm hne, mem_of_find hfind⟩
  · intro h
    refine mem_of_find ?_
    rw [find_assign]
    rcases h with ⟨rfl, rfl⟩ | ⟨hne, hm⟩
    · rw [if_pos rfl]
    · rw [if_neg (Ne.symm hne), find_of_mem hn hm]

theorem mem_values_assign {b : α} (hn : (keysOf fields).Nodup)
    (h : b ∈ (assign fields k a).map Prod.snd) : b = a ∨ b ∈ fields.map Prod.snd := by
  obtain ⟨⟨j, b⟩, hm, rfl⟩ := List.mem_map.mp h
  rcases (mem_assign hn).mp hm with ⟨-, rfl⟩ | ⟨-, hm⟩
  · exact .inl rfl
  · exact .inr (List.mem_map_of_mem (f := Prod.snd) hm)

theorem length_assign_of_mem (h : k ∈ keysOf fields) :
    (assign fields k a).length = fields.length := by
  induction fields with
  | nil => simp [keysOf] at h
  | cons f rest ih =>
    simp only [assign, KeyedMap.upsert] at ih ⊢
    split
    · rfl
    · rename_i hne
      simp only [keysOf, List.map_cons, List.mem_cons] at h
      rw [List.length_cons, List.length_cons, ih (h.resolve_left (Ne.symm hne))]

theorem length_assign_of_not_mem (h : k ∉ keysOf fields) :
    (assign fields k a).length = fields.length + 1 := by
  rw [assign_of_not_mem h, List.length_append, List.length_singleton]

theorem mem_keysOf_remove : j ∈ keysOf (remove fields k) ↔ j ∈ keysOf fields ∧ j ≠ k := by
  rw [remove, keysOf_filter fields fun j => decide (j ≠ k), List.mem_filter, decide_eq_true_eq]

theorem nodup_keysOf_remove (h : (keysOf fields).Nodup) : (keysOf (remove fields k)).Nodup := by
  rw [remove, keysOf_filter fields fun j => decide (j ≠ k)]
  exact h.filter _

theorem remove_of_not_mem (h : k ∉ keysOf fields) : remove fields k = fields := by
  refine List.filter_eq_self.mpr fun f hf => ?_
  simp only [decide_eq_true_eq]
  rintro rfl
  exact h (List.mem_map_of_mem hf)

end Written

namespace CompareState

variable {o : CompareOptions} {target source : Fields} {seen : List String} {st : CompareState}

/-! ## What the loop files -/

/-- How many entries the loop has filed. -/
def entries (st : CompareState) : Nat :=
  st.toCreate.length + st.toUpdate.length + st.toRemove.length + st.toRename.length +
    st.nested.length

/-- What holds whatever the keys seen were matched with. -/
structure Filed (o : CompareOptions) (target source : Fields) (seen : List String)
    (st : CompareState) : Prop where
  created : ∀ k ∈ keysOf st.toCreate, k ∈ seen ∧ Gained o target source k
  removed : ∀ k ∈ keysOf st.toRemove, k ∈ seen ∧ Lost o target source k
  createKeys : ∀ k ∈ st.toCreateKeys, k ∈ seen ∧ Gained o target source k
  removeKeys : ∀ k ∈ st.toRemoveKeys, k ∈ seen ∧ Lost o target source k
  old : ∀ k ∈ keysOf st.toRename, k ∈ seen ∧ Lost o target source k
  new : ∀ k ∈ st.toRename.map Prod.snd, k ∈ seen ∧ Gained o target source k
  updated : ∀ k ∈ keysOf st.toUpdate, k ∈ seen
  nested : ∀ k ∈ keysOf st.nested, k ∈ seen
  create_nodup : (keysOf st.toCreate).Nodup
  remove_nodup : (keysOf st.toRemove).Nodup
  createKeys_nodup : st.toCreateKeys.Nodup
  removeKeys_nodup : st.toRemoveKeys.Nodup
  old_nodup : (keysOf st.toRename).Nodup
  /-- A new name is not created, an old one not removed. -/
  new_not_created : ∀ k ∈ st.toRename.map Prod.snd, k ∉ keysOf st.toCreate
  old_not_removed : ∀ k ∈ keysOf st.toRename, k ∉ keysOf st.toRemove
  /-- A key lost that can still be found is filed. -/
  removeKeys_filed : ∀ k ∈ st.toRemoveKeys, k ∈ keysOf st.toRemove ∨ k ∈ keysOf st.toRename
  update_counter : st.counter.update = st.toUpdate.length
  nested_counter : st.counter.nested = st.nested.length
  rename_counter : (st.toRename.length : Int) ≤ st.counter.rename

/-- What holds as long as no key was matched twice. -/
structure Exact (o : CompareOptions) (target source : Fields) (seen : List String)
    (st : CompareState) : Prop extends Filed o target source seen st where
  gained_filed : ∀ k ∈ seen, Gained o target source k →
    k ∈ keysOf st.toCreate ∨ k ∈ st.toRename.map Prod.snd
  lost_filed : ∀ k ∈ seen, Lost o target source k →
    k ∈ keysOf st.toRemove ∨ k ∈ keysOf st.toRename
  new_nodup : (st.toRename.map Prod.snd).Nodup
  accepted : ∀ old new, (old, new) ∈ st.toRename → ∀ onRename, o.onRename = some onRename →
    onRename (get target new) (get source old) = true
  /-- A rename found at the turn of its old name took the new one for good. -/
  taken : ∀ old new, (old, new) ∈ st.toRename → old ∈ st.toRemoveKeys → new ∉ st.toCreateKeys
  create_value : ∀ k ∈ keysOf st.toCreate, get st.toCreate k = get target k
  remove_value : ∀ k ∈ keysOf st.toRemove, get st.toRemove k = get source k
  create_counter : st.counter.create = st.toCreate.length
  remove_counter : st.counter.remove = st.toRemove.length
  rename_exact : st.counter.rename = st.toRename.length

/-- What stays once a key was matched twice: more entries than were counted,
or a key gained that is filed nowhere and can be found no more. -/
def Broken (o : CompareOptions) (target source : Fields) (seen : List String)
    (st : CompareState) : Prop :=
  st.total < st.entries ∨
    ∃ k ∈ seen, Gained o target source k ∧ k ∉ st.toCreateKeys ∧ k ∉ keysOf st.toCreate ∧
      k ∉ st.toRename.map Prod.snd

theorem exact_init : Exact o target source [] {} where
  created := by simp [keysOf]
  removed := by simp [keysOf]
  createKeys := by simp
  removeKeys := by simp
  old := by simp [keysOf]
  new := by simp
  updated := by simp [keysOf]
  nested := by simp [keysOf]
  create_nodup := List.nodup_nil
  remove_nodup := List.nodup_nil
  createKeys_nodup := List.nodup_nil
  removeKeys_nodup := List.nodup_nil
  old_nodup := List.nodup_nil
  new_not_created := by simp
  old_not_removed := by simp [keysOf]
  removeKeys_filed := by simp
  update_counter := rfl
  nested_counter := rfl
  rename_counter := Int.le_refl _
  gained_filed := by simp
  lost_filed := by simp
  new_nodup := List.nodup_nil
  accepted := by simp
  taken := by simp
  create_value := by simp [keysOf]
  remove_value := by simp [keysOf]
  create_counter := rfl
  remove_counter := rfl
  rename_exact := rfl

/-! ### Keys with a value in both, or in none -/

theorem Filed.mono {more : List String} (h : Filed o target source seen st)
    (hsub : seen ⊆ more) : Filed o target source more st :=
  { h with
    created := fun k hk => ⟨hsub (h.created k hk).1, (h.created k hk).2⟩
    removed := fun k hk => ⟨hsub (h.removed k hk).1, (h.removed k hk).2⟩
    createKeys := fun k hk => ⟨hsub (h.createKeys k hk).1, (h.createKeys k hk).2⟩
    removeKeys := fun k hk => ⟨hsub (h.removeKeys k hk).1, (h.removeKeys k hk).2⟩
    old := fun k hk => ⟨hsub (h.old k hk).1, (h.old k hk).2⟩
    new := fun k hk => ⟨hsub (h.new k hk).1, (h.new k hk).2⟩
    updated := fun k hk => hsub (h.updated k hk)
    nested := fun k hk => hsub (h.nested k hk) }

theorem Broken.mono {more : List String} (h : Broken o target source seen st)
    (hsub : seen ⊆ more) : Broken o target source more st :=
  h.imp_right fun ⟨k, hk, hrest⟩ => ⟨k, hsub hk, hrest⟩

section Turn

variable {key : String}

theorem Exact.pass (h : Exact o target source seen st) (hg : ¬ Gained o target source key)
    (hl : ¬ Lost o target source key) : Exact o target source (seen ++ [key]) st :=
  { h with
    toFiled := h.toFiled.mono (List.subset_append_left _ _)
    gained_filed := fun k hk hgained => by
      rcases List.mem_append.mp hk with hk | hk
      · exact h.gained_filed k hk hgained
      · exact absurd (List.mem_singleton.mp hk ▸ hgained) hg
    lost_filed := fun k hk hlost => by
      rcases List.mem_append.mp hk with hk | hk
      · exact h.lost_filed k hk hlost
      · exact absurd (List.mem_singleton.mp hk ▸ hlost) hl }

theorem Filed.change {change : Change} (h : Filed o target source seen st) (hk : key ∉ seen) :
    Filed o target source (seen ++ [key]) (st.change key change) :=
  { h.mono (List.subset_append_left seen [key]) with
    updated := fun k hm => by
      rcases mem_keysOf_assign.mp hm with rfl | hm
      · exact List.mem_append_right _ List.mem_cons_self
      · exact List.mem_append_left _ (h.updated k hm)
    update_counter := by
      have hnew : key ∉ keysOf st.toUpdate := fun hm => hk (h.updated key hm)
      simp only [CompareState.change, length_assign_of_not_mem hnew, h.update_counter]
      omega }

theorem Filed.nest {changes : ObjectComparison} (h : Filed o target source seen st)
    (hk : key ∉ seen) : Filed o target source (seen ++ [key]) (st.nest key changes) := by
  unfold CompareState.nest
  split
  · exact { h.mono (List.subset_append_left seen [key]) with
      nested := fun k hm => by
        rcases mem_keysOf_assign.mp hm with rfl | hm
        · exact List.mem_append_right _ List.mem_cons_self
        · exact List.mem_append_left _ (h.nested k hm)
      nested_counter := by
        have hnew : key ∉ keysOf st.nested := fun hm => hk (h.nested key hm)
        simp only [length_assign_of_not_mem hnew, h.nested_counter]
        omega }
  · exact h.mono (List.subset_append_left _ _)

/-- A key with a value in both changes the updates or the nested changes, by
as much as it counts. -/
theorem Filed.both {t s : Value} {array : List Value → List Value → ArrayComparison}
    {object : Fields → Fields → ObjectComparison} {deep : Bool}
    (h : Filed o target source seen st) (hk : key ∉ seen) :
    Filed o target source (seen ++ [key]) (st.both array object deep key t s) := by
  have hsame := h.mono (List.subset_append_left seen [key])
  unfold CompareState.both
  split
  · split
    · dsimp only
      split
      · exact h.change hk
      · exact hsame
    · exact h.change hk
  · split
    · exact h.nest hk
    · exact h.change hk
  · split
    · exact hsame
    · exact h.change hk

/-- What a key with a value in both leaves alone. -/
structure Beside (st st' : CompareState) : Prop where
  toCreateKeys : st'.toCreateKeys = st.toCreateKeys
  toRemoveKeys : st'.toRemoveKeys = st.toRemoveKeys
  toCreate : st'.toCreate = st.toCreate
  toRemove : st'.toRemove = st.toRemove
  toRename : st'.toRename = st.toRename
  create : st'.counter.create = st.counter.create
  remove : st'.counter.remove = st.counter.remove
  rename : st'.counter.rename = st.counter.rename

theorem beside_both {t s : Value} {array : List Value → List Value → ArrayComparison}
    {object : Fields → Fields → ObjectComparison} {deep : Bool} :
    Beside st (st.both array object deep key t s) := by
  unfold CompareState.both CompareState.nest
  split <;> (try dsimp only) <;> (repeat' split) <;> constructor <;> rfl

theorem Exact.beside {st' : CompareState} (h : Exact o target source seen st)
    (hf : Filed o target source seen st') (hb : Beside st st') :
    Exact o target source seen st' := by
  obtain ⟨h1, h2, h3, h4, h5, h6, h7, h8⟩ := hb
  refine { hf with
    gained_filed := ?_, lost_filed := ?_, new_nodup := ?_, accepted := ?_, taken := ?_,
    create_value := ?_, remove_value := ?_, create_counter := ?_, remove_counter := ?_,
    rename_exact := ?_ }
  all_goals simp only [h1, h2, h3, h4, h5, h6, h7, h8]
  · exact h.gained_filed
  · exact h.lost_filed
  · exact h.new_nodup
  · exact h.accepted
  · exact h.taken
  · exact h.create_value
  · exact h.remove_value
  · exact h.create_counter
  · exact h.remove_counter
  · exact h.rename_exact

theorem Broken.beside {st' : CompareState} (h : Broken o target source seen st)
    (hf : Filed o target source seen st) (hf' : Filed o target source seen st')
    (hb : Beside st st') : Broken o target source seen st' := by
  obtain ⟨h1, h2, h3, h4, h5, h6, h7, h8⟩ := hb
  rcases h with h | h
  · left
    have hu := hf.update_counter
    have hn := hf.nested_counter
    have hu' := hf'.update_counter
    have hn' := hf'.nested_counter
    simp only [total, entries, h3, h4, h5, h6, h7, h8] at h ⊢
    omega
  · right
    simpa only [h1, h3, h5] using h

/-! ### A key gained -/

theorem removeKey_spec {value : Value} {name : String}
    (h : st.removeKey o key value = some name) :
    (getSimilarName key st.toRemoveKeys o.onCompareName).1 = some name ∧
      ∀ onRename, o.onRename = some onRename → onRename value (get st.toRemove name) = true :=
  accepts_eq_some h

theorem createKey_spec {value : Value} {name : String}
    (h : st.createKey o key value = some name) :
    (getSimilarName key st.toCreateKeys o.onCompareName).1 = some name ∧
      ∀ onRename, o.onRename = some onRename → onRename (get st.toCreate name) value = true :=
  accepts_eq_some h

theorem mem_push (hm : key ∈ seen ++ [key]) {k : String} {keys : List String} {P : String → Prop}
    (hP : P key) (h : ∀ k ∈ keys, k ∈ seen ∧ P k) (hk : k ∈ keys ++ [key]) :
    k ∈ seen ++ [key] ∧ P k := by
  rcases List.mem_append.mp hk with hk | hk
  · exact ⟨List.mem_append_left _ (h k hk).1, (h k hk).2⟩
  · rw [List.mem_singleton.mp hk]
    exact ⟨hm, hP⟩

theorem nodup_push {keys : List String} (h : keys.Nodup) (hk : key ∉ keys) :
    (keys ++ [key]).Nodup := by
  rw [List.nodup_append]
  refine ⟨h, List.nodup_singleton _, fun a ha b hb hab => ?_⟩
  exact hk (List.mem_singleton.mp hb ▸ hab ▸ ha)

theorem Filed.gain (h : Filed o target source seen st) (hk : key ∉ seen)
    (hg : Gained o target source key) (value : Value) :
    Filed o target source (seen ++ [key]) (st.gain o key value) := by
  have hm : key ∈ seen ++ [key] := List.mem_append_right _ List.mem_cons_self
  have hcreate : key ∉ keysOf st.toCreate := fun hc => hk (h.created key hc).1
  have hnew : key ∉ st.toRename.map Prod.snd := fun hc => hk (h.new key hc).1
  have hcreateKeys : key ∉ st.toCreateKeys := fun hc => hk (h.createKeys key hc).1
  have hsub := sublist_getSimilarName key st.toRemoveKeys o.onCompareName
  have hmono := h.mono (List.subset_append_left seen [key])
  cases hr : st.removeKey o key value with
  | none =>
    rw [gain_of_none hr]
    exact { hmono with
      created := fun k hc => by
        rcases mem_keysOf_assign.mp hc with rfl | hc
        · exact ⟨hm, hg⟩
        · exact hmono.created k hc
      createKeys := fun k hc => mem_push hm hg h.createKeys hc
      removeKeys := fun k hc => hmono.removeKeys k (hsub.subset hc)
      create_nodup := nodup_keysOf_assign h.create_nodup
      createKeys_nodup := nodup_push h.createKeys_nodup hcreateKeys
      removeKeys_nodup := h.removeKeys_nodup.sublist hsub
      new_not_created := fun k hn hc => by
        rcases mem_keysOf_assign.mp hc with rfl | hc
        · exact hnew hn
        · exact h.new_not_created k hn hc
      removeKeys_filed := fun k hc => h.removeKeys_filed k (hsub.subset hc) }
  | some name =>
    obtain ⟨hfound, -⟩ := removeKey_spec hr
    have hname := mem_of_getSimilarName hfound
    have hgone := not_mem_getSimilarName h.removeKeys_nodup hfound
    rw [gain_of_some hr]
    exact { hmono with
      removed := fun k hc => hmono.removed k (mem_keysOf_remove.mp hc).1
      createKeys := fun k hc => mem_push hm hg h.createKeys hc
      removeKeys := fun k hc => hmono.removeKeys k (hsub.subset hc)
      old := fun k hc => by
        rcases mem_keysOf_assign.mp hc with rfl | hc
        · exact hmono.removeKeys k hname
        · exact hmono.old k hc
      new := fun k hc => by
        rcases mem_values_assign h.old_nodup hc with rfl | hc
        · exact ⟨hm, hg⟩
        · exact hmono.new k hc
      remove_nodup := nodup_keysOf_remove h.remove_nodup
      createKeys_nodup := nodup_push h.createKeys_nodup hcreateKeys
      removeKeys_nodup := h.removeKeys_nodup.sublist hsub
      old_nodup := nodup_keysOf_assign h.old_nodup
      new_not_created := fun k hc => by
        rcases mem_values_assign h.old_nodup hc with rfl | hc
        · exact hcreate
        · exact h.new_not_created k hc
      old_not_removed := fun k hc hr => by
        obtain ⟨hr, hne⟩ := mem_keysOf_remove.mp hr
        exact h.old_not_removed k ((mem_keysOf_assign.mp hc).resolve_left hne) hr
      removeKeys_filed := fun k hc => by
        rcases h.removeKeys_filed k (hsub.subset hc) with hf | hf
        · exact .inl (mem_keysOf_remove.mpr ⟨hf, fun he => hgone (he ▸ hc)⟩)
        · exact .inr (mem_keysOf_assign.mpr (.inr hf))
      rename_counter := by
        have hcounter := h.rename_counter
        by_cases hold : name ∈ keysOf st.toRename
        · simp only [length_assign_of_mem hold]
          omega
        · simp only [length_assign_of_not_mem hold]
          omega }

theorem Filed.lose (h : Filed o target source seen st) (hk : key ∉ seen)
    (hl : Lost o target source key) (value : Value) :
    Filed o target source (seen ++ [key]) (st.lose o key value) := by
  have hm : key ∈ seen ++ [key] := List.mem_append_right _ List.mem_cons_self
  have hremove : key ∉ keysOf st.toRemove := fun hc => hk (h.removed key hc).1
  have hold : key ∉ keysOf st.toRename := fun hc => hk (h.old key hc).1
  have hremoveKeys : key ∉ st.toRemoveKeys := fun hc => hk (h.removeKeys key hc).1
  have hsub := sublist_getSimilarName key st.toCreateKeys o.onCompareName
  have hmono := h.mono (List.subset_append_left seen [key])
  cases hr : st.createKey o key value with
  | none =>
    rw [lose_of_none hr]
    exact { hmono with
      removed := fun k hc => by
        rcases mem_keysOf_assign.mp hc with rfl | hc
        · exact ⟨hm, hl⟩
        · exact hmono.removed k hc
      createKeys := fun k hc => hmono.createKeys k (hsub.subset hc)
      removeKeys := fun k hc => mem_push hm hl h.removeKeys hc
      remove_nodup := nodup_keysOf_assign h.remove_nodup
      createKeys_nodup := h.createKeys_nodup.sublist hsub
      removeKeys_nodup := nodup_push h.removeKeys_nodup hremoveKeys
      old_not_removed := fun k hn hc => by
        rcases mem_keysOf_assign.mp hc with rfl | hc
        · exact hold hn
        · exact h.old_not_removed k hn hc
      removeKeys_filed := fun k hc => by
        rcases List.mem_append.mp hc with hc | hc
        · exact (h.removeKeys_filed k hc).imp_left fun hf => mem_keysOf_assign.mpr (.inr hf)
        · exact .inl (mem_keysOf_assign.mpr (.inl (List.mem_singleton.mp hc))) }
  | some name =>
    obtain ⟨hfound, -⟩ := createKey_spec hr
    have hname := mem_of_getSimilarName hfound
    rw [lose_of_some hr]
    exact { hmono with
      created := fun k hc => hmono.created k (mem_keysOf_remove.mp hc).1
      createKeys := fun k hc => hmono.createKeys k (hsub.subset hc)
      removeKeys := fun k hc => mem_push hm hl h.removeKeys hc
      old := fun k hc => by
        rcases mem_keysOf_assign.mp hc with rfl | hc
        · exact ⟨hm, hl⟩
        · exact hmono.old k hc
      new := fun k hc => by
        rcases mem_values_assign h.old_nodup hc with rfl | hc
        · exact hmono.createKeys k hname
        · exact hmono.new k hc
      create_nodup := nodup_keysOf_remove h.create_nodup
      createKeys_nodup := h.createKeys_nodup.sublist hsub
      removeKeys_nodup := nodup_push h.removeKeys_nodup hremoveKeys
      old_nodup := nodup_keysOf_assign h.old_nodup
      new_not_created := fun k hc hr => by
        obtain ⟨hr, hne⟩ := mem_keysOf_remove.mp hr
        rcases mem_values_assign h.old_nodup hc with rfl | hc
        · exact hne rfl
        · exact h.new_not_created k hc hr
      old_not_removed := fun k hc => by
        rcases mem_keysOf_assign.mp hc with rfl | hc
        · exact hremove
        · exact h.old_not_removed k hc
      removeKeys_filed := fun k hc => by
        rcases List.mem_append.mp hc with hc | hc
        · exact (h.removeKeys_filed k hc).imp_right fun hf => mem_keysOf_assign.mpr (.inr hf)
        · exact .inr (mem_keysOf_assign.mpr (.inl (List.mem_singleton.mp hc)))
      rename_counter := by
        have hcounter := h.rename_counter
        simp only [length_assign_of_not_mem hold]
        omega }

/-! ### As long as no key is matched twice -/

theorem not_lost_of_gained (h : Gained o target source key) : ¬ Lost o target source key := by
  intro hl
  rw [Lost, h.2.1] at hl
  exact Bool.false_ne_true hl.2.1

theorem Exact.gain (h : Exact o target source seen st) (hk : key ∉ seen)
    (hg : Gained o target source key)
    (hfresh : ∀ name, st.removeKey o key (get target key) = some name → name ∈ keysOf st.toRemove) :
    Exact o target source (seen ++ [key]) (st.gain o key (get target key)) := by
  have hfiled := h.toFiled.gain hk hg (get target key)
  have hcreate : key ∉ keysOf st.toCreate := fun hc => hk (h.created key hc).1
  have hnew : key ∉ st.toRename.map Prod.snd := fun hc => hk (h.new key hc).1
  have hsub := sublist_getSimilarName key st.toRemoveKeys o.onCompareName
  have hnl := not_lost_of_gained hg
  -- A key gained is not lost, so only the keys seen before can be.
  have hseen : ∀ k ∈ seen ++ [key], Lost o target source k → k ∈ seen := fun k hm hl => by
    rcases List.mem_append.mp hm with hm | hm
    · exact hm
    · exact absurd (List.mem_singleton.mp hm ▸ hl) hnl
  have htaken : ∀ old new, (old, new) ∈ st.toRename →
      old ∈ (getSimilarName key st.toRemoveKeys o.onCompareName).2 →
        new ∉ st.toCreateKeys ++ [key] := fun old new hp ho hn => by
    rcases List.mem_append.mp hn with hn | hn
    · exact h.taken old new hp (hsub.subset ho) hn
    · exact hnew (List.mem_singleton.mp hn ▸ List.mem_map_of_mem (f := Prod.snd) hp)
  cases hr : st.removeKey o key (get target key) with
  | none =>
    rw [gain_of_none hr] at hfiled ⊢
    exact { hfiled with
      gained_filed := fun k hm hgk => by
        rcases List.mem_append.mp hm with hm | hm
        · exact (h.gained_filed k hm hgk).imp_left fun hc => mem_keysOf_assign.mpr (.inr hc)
        · exact .inl (mem_keysOf_assign.mpr (.inl (List.mem_singleton.mp hm)))
      lost_filed := fun k hm hl => h.lost_filed k (hseen k hm hl) hl
      new_nodup := h.new_nodup
      accepted := h.accepted
      taken := htaken
      create_value := fun k hc => by
        rw [get, find_assign]
        by_cases he : key = k
        · rw [if_pos he, he, Option.getD_some]
        · rw [if_neg he]
          exact h.create_value k ((mem_keysOf_assign.mp hc).resolve_left (Ne.symm he))
      remove_value := h.remove_value
      create_counter := by
        simp only [length_assign_of_not_mem hcreate, h.create_counter]
        omega
      remove_counter := h.remove_counter
      rename_exact := h.rename_exact }
  | some name =>
    obtain ⟨hfound, haccepted⟩ := removeKey_spec hr
    have hremoved := hfresh name hr
    have hgone := not_mem_getSimilarName h.removeKeys_nodup hfound
    have hold : name ∉ keysOf st.toRename := fun hc => h.old_not_removed name hc hremoved
    rw [gain_of_some hr] at hfiled ⊢
    exact { hfiled with
      gained_filed := fun k hm hgk => by
        simp only [assign_of_not_mem hold, List.map_append, List.map_singleton]
        rcases List.mem_append.mp hm with hm | hm
        · exact (h.gained_filed k hm hgk).imp_right fun hc => List.mem_append_left _ hc
        · exact .inr (List.mem_append_right _ hm)
      lost_filed := fun k hm hl => by
        rcases h.lost_filed k (hseen k hm hl) hl with hc | hc
        · by_cases he : k = name
          · exact .inr (mem_keysOf_assign.mpr (.inl he))
          · exact .inl (mem_keysOf_remove.mpr ⟨hc, he⟩)
        · exact .inr (mem_keysOf_assign.mpr (.inr hc))
      new_nodup := by
        simp only [assign_of_not_mem hold, List.map_append, List.map_singleton]
        exact nodup_push h.new_nodup hnew
      accepted := fun old new hp onRename ho => by
        rcases (mem_assign h.old_nodup).mp hp with ⟨rfl, rfl⟩ | ⟨-, hp⟩
        · rw [← h.remove_value old hremoved]
          exact haccepted onRename ho
        · exact h.accepted old new hp onRename ho
      taken := fun old new hp ho hn => by
        rcases (mem_assign h.old_nodup).mp hp with ⟨rfl, rfl⟩ | ⟨-, hp⟩
        · exact hgone ho
        · exact htaken old new hp ho hn
      create_value := h.create_value
      remove_value := fun k hc => by
        obtain ⟨hc, hne⟩ := mem_keysOf_remove.mp hc
        rw [remove, get_filter_keys st.toRemove (p := fun j => decide (j ≠ name)) (by simpa using hne)]
        exact h.remove_value k hc
      create_counter := h.create_counter
      remove_counter := by
        simp only [length_remove h.remove_nodup hremoved, h.remove_counter]
      rename_exact := by
        simp only [length_assign_of_not_mem hold, h.rename_exact]
        omega }

theorem Exact.lose (h : Exact o target source seen st) (hk : key ∉ seen)
    (hl : Lost o target source key)
    (hfresh : ∀ name, st.createKey o key (get source key) = some name → name ∈ keysOf st.toCreate) :
    Exact o target source (seen ++ [key]) (st.lose o key (get source key)) := by
  have hfiled := h.toFiled.lose hk hl (get source key)
  have hremove : key ∉ keysOf st.toRemove := fun hc => hk (h.removed key hc).1
  have hold : key ∉ keysOf st.toRename := fun hc => hk (h.old key hc).1
  have hsub := sublist_getSimilarName key st.toCreateKeys o.onCompareName
  have hseen : ∀ k ∈ seen ++ [key], Gained o target source k → k ∈ seen := fun k hm hg => by
    rcases List.mem_append.mp hm with hm | hm
    · exact hm
    · exact absurd hl (not_lost_of_gained (List.mem_singleton.mp hm ▸ hg))
  have htaken : ∀ old new, (old, new) ∈ st.toRename → old ∈ st.toRemoveKeys ++ [key] →
      new ∉ (getSimilarName key st.toCreateKeys o.onCompareName).2 := fun old new hp ho hn => by
    rcases List.mem_append.mp ho with ho | ho
    · exact h.taken old new hp ho (hsub.subset hn)
    · exact hold (List.mem_singleton.mp ho ▸ List.mem_map_of_mem (f := Prod.fst) hp)
  cases hr : st.createKey o key (get source key) with
  | none =>
    rw [lose_of_none hr] at hfiled ⊢
    exact { hfiled with
      gained_filed := fun k hm hg => h.gained_filed k (hseen k hm hg) hg
      lost_filed := fun k hm hlk => by
        rcases List.mem_append.mp hm with hm | hm
        · exact (h.lost_filed k hm hlk).imp_left fun hc => mem_keysOf_assign.mpr (.inr hc)
        · exact .inl (mem_keysOf_assign.mpr (.inl (List.mem_singleton.mp hm)))
      new_nodup := h.new_nodup
      accepted := h.accepted
      taken := htaken
      create_value := h.create_value
      remove_value := fun k hc => by
        rw [get, find_assign]
        by_cases he : key = k
        · rw [if_pos he, he, Option.getD_some]
        · rw [if_neg he]
          exact h.remove_value k ((mem_keysOf_assign.mp hc).resolve_left (Ne.symm he))
      create_counter := h.create_counter
      remove_counter := by
        simp only [length_assign_of_not_mem hremove, h.remove_counter]
        omega
      rename_exact := h.rename_exact }
  | some name =>
    obtain ⟨hfound, haccepted⟩ := createKey_spec hr
    have hcreated := hfresh name hr
    have hgone := not_mem_getSimilarName h.createKeys_nodup hfound
    have hnew : name ∉ st.toRename.map Prod.snd := fun hc => h.new_not_created name hc hcreated
    rw [lose_of_some hr] at hfiled ⊢
    exact { hfiled with
      gained_filed := fun k hm hg => by
        simp only [assign_of_not_mem hold, List.map_append, List.map_singleton]
        rcases h.gained_filed k (hseen k hm hg) hg with hc | hc
        · by_cases he : k = name
          · exact .inr (List.mem_append_right _ (List.mem_singleton.mpr he))
          · exact .inl (mem_keysOf_remove.mpr ⟨hc, he⟩)
        · exact .inr (List.mem_append_left _ hc)
      lost_filed := fun k hm hlk => by
        rcases List.mem_append.mp hm with hm | hm
        · exact (h.lost_filed k hm hlk).imp_right fun hc => mem_keysOf_assign.mpr (.inr hc)
        · exact .inr (mem_keysOf_assign.mpr (.inl (List.mem_singleton.mp hm)))
      new_nodup := by
        simp only [assign_of_not_mem hold, List.map_append, List.map_singleton]
        exact nodup_push h.new_nodup hnew
      accepted := fun old new hp onRename ho => by
        rcases (mem_assign h.old_nodup).mp hp with ⟨rfl, rfl⟩ | ⟨-, hp⟩
        · rw [← h.create_value new hcreated]
          exact haccepted onRename ho
        · exact h.accepted old new hp onRename ho
      taken := fun old new hp ho hn => by
        rcases (mem_assign h.old_nodup).mp hp with ⟨rfl, rfl⟩ | ⟨-, hp⟩
        · exact hgone hn
        · exact htaken old new hp ho hn
      create_value := fun k hc => by
        obtain ⟨hc, hne⟩ := mem_keysOf_remove.mp hc
        rw [remove, get_filter_keys st.toCreate (p := fun j => decide (j ≠ name)) (by simpa using hne)]
        exact h.create_value k hc
      remove_value := h.remove_value
      create_counter := by
        simp only [length_remove h.create_nodup hcreated, h.create_counter]
      remove_counter := h.remove_counter
      rename_exact := by
        simp only [length_assign_of_not_mem hold, h.rename_exact]
        omega }

/-! ### Once a key was matched twice -/

theorem length_remove_le {fields : Fields} (name : String) (hn : (keysOf fields).Nodup) :
    (fields.length : Int) - 1 ≤ (remove fields name).length := by
  by_cases hm : name ∈ keysOf fields
  · exact Int.le_of_eq (length_remove hn hm).symm
  · rw [remove_of_not_mem hm]
    omega

/-- A key gained counts as much as it files. -/
theorem entries_gain (h : Filed o target source seen st) (hk : key ∉ seen) (value : Value) :
    ((st.gain o key value).entries : Int) - (st.gain o key value).total =
      st.entries - st.total := by
  cases hr : st.removeKey o key value with
  | none =>
    have hcreate : key ∉ keysOf st.toCreate := fun hc => hk (h.created key hc).1
    rw [gain_of_none hr]
    simp only [entries, total, length_assign_of_not_mem hcreate]
    omega
  | some name =>
    have hname := mem_of_getSimilarName (removeKey_spec hr).1
    rw [gain_of_some hr]
    by_cases hm : name ∈ keysOf st.toRemove
    · have hold : name ∉ keysOf st.toRename := fun hc => h.old_not_removed name hc hm
      have hlen := length_remove h.remove_nodup hm
      simp only [entries, total, length_assign_of_not_mem hold] at hlen ⊢
      omega
    · have hold := (h.removeKeys_filed name hname).resolve_left hm
      simp only [entries, total, length_assign_of_mem hold, remove_of_not_mem hm]
      omega

/-- A key lost files as much as it counts, and one entry more when the key it
takes was taken before. -/
theorem entries_lose (h : Filed o target source seen st) (hk : key ∉ seen) (value : Value) :
    (st.entries : Int) - st.total ≤ (st.lose o key value).entries - (st.lose o key value).total ∧
      ∀ name, st.createKey o key value = some name → name ∉ keysOf st.toCreate →
        (st.entries : Int) - st.total <
          (st.lose o key value).entries - (st.lose o key value).total := by
  have hremove : key ∉ keysOf st.toRemove := fun hc => hk (h.removed key hc).1
  have hold : key ∉ keysOf st.toRename := fun hc => hk (h.old key hc).1
  cases hr : st.createKey o key value with
  | none =>
    rw [lose_of_none hr]
    refine ⟨?_, fun name hc => by cases hc⟩
    simp only [entries, total, length_assign_of_not_mem hremove]
    omega
  | some name =>
    rw [lose_of_some hr]
    have hle := length_remove_le name h.create_nodup
    simp only [entries, total, length_assign_of_not_mem hold]
    refine ⟨by omega, fun other ho hm => ?_⟩
    obtain rfl := Option.some.inj ho
    rw [remove_of_not_mem hm]
    omega

/-- A key gained that takes an old name back leaves its former new name out. -/
theorem Exact.broken_gain (h : Exact o target source seen st) (hk : key ∉ seen) {value : Value}
    {name : String} (hr : st.removeKey o key value = some name)
    (hm : name ∉ keysOf st.toRemove) :
    Broken o target source (seen ++ [key]) (st.gain o key value) := by
  have hname := mem_of_getSimilarName (removeKey_spec hr).1
  have hold := (h.removeKeys_filed name hname).resolve_left hm
  obtain ⟨new, hnew⟩ := mem_keysOf_iff.mp hold
  have hpair := mem_of_find hnew
  have hmem : new ∈ st.toRename.map Prod.snd := List.mem_map_of_mem (f := Prod.snd) hpair
  obtain ⟨hseen, hg⟩ := h.new new hmem
  have hne : new ≠ key := fun he => hk (he ▸ hseen)
  right
  refine ⟨new, List.mem_append_left _ hseen, hg, ?_⟩
  rw [gain_of_some hr]
  refine ⟨fun hc => ?_, h.new_not_created new hmem, fun hc => ?_⟩
  · rcases List.mem_append.mp hc with hc | hc
    · exact h.taken name new hpair hname hc
    · exact hne (List.mem_singleton.mp hc)
  · obtain ⟨⟨old, other⟩, hp, rfl⟩ := List.mem_map.mp hc
    rcases (mem_assign h.old_nodup).mp hp with ⟨-, he⟩ | ⟨hold', hp⟩
    · exact hne he
    · have hsame := List.inj_on_of_nodup_map h.new_nodup hp hpair rfl
      exact hold' (congrArg Prod.fst hsame)

theorem Exact.broken_lose (h : Exact o target source seen st) (hk : key ∉ seen) {value : Value}
    {name : String} (hr : st.createKey o key value = some name)
    (hm : name ∉ keysOf st.toCreate) :
    Broken o target source (seen ++ [key]) (st.lose o key value) := by
  have hlt := (entries_lose h.toFiled hk value).2 name hr hm
  have hcreate := h.create_counter
  have hremove := h.remove_counter
  have hrename := h.rename_exact
  have hupdate := h.update_counter
  have hnested := h.nested_counter
  left
  simp only [entries, total] at hlt ⊢
  omega

theorem Broken.gain (h : Broken o target source seen st) (hf : Filed o target source seen st)
    (hk : key ∉ seen) (value : Value) :
    Broken o target source (seen ++ [key]) (st.gain o key value) := by
  have hentries := entries_gain hf hk value
  rcases h with h | ⟨k, hm, hg, hkeys, hcreate, hnew⟩
  · left
    omega
  · have hne : k ≠ key := fun he => hk (he ▸ hm)
    right
    refine ⟨k, List.mem_append_left _ hm, hg, ?_⟩
    have hpush : k ∉ st.toCreateKeys ++ [key] := by simp [hkeys, hne]
    cases hr : st.removeKey o key value with
    | none =>
      rw [gain_of_none hr]
      exact ⟨hpush, fun hc => hcreate ((mem_keysOf_assign.mp hc).resolve_left hne), hnew⟩
    | some name =>
      rw [gain_of_some hr]
      exact ⟨hpush, hcreate, fun hc => hnew ((mem_values_assign hf.old_nodup hc).resolve_left hne)⟩

theorem Broken.lose (h : Broken o target source seen st) (hf : Filed o target source seen st)
    (hk : key ∉ seen) (value : Value) :
    Broken o target source (seen ++ [key]) (st.lose o key value) := by
  have hentries := (entries_lose hf hk value).1
  rcases h with h | ⟨k, hm, hg, hkeys, hcreate, hnew⟩
  · left
    omega
  · right
    refine ⟨k, List.mem_append_left _ hm, hg, ?_⟩
    have hsub := sublist_getSimilarName key st.toCreateKeys o.onCompareName
    cases hr : st.createKey o key value with
    | none =>
      rw [lose_of_none hr]
      exact ⟨fun hc => hkeys (hsub.subset hc), hcreate, hnew⟩
    | some name =>
      have hname := mem_of_getSimilarName (createKey_spec hr).1
      rw [lose_of_some hr]
      refine ⟨fun hc => hkeys (hsub.subset hc), fun hc => hcreate (mem_keysOf_remove.mp hc).1,
        fun hc => ?_⟩
      rcases mem_values_assign hf.old_nodup hc with rfl | hc
      · exact hkeys hname
      · exact hnew hc

end Turn

/-! ### A turn, and the whole loop -/

/-- What the turn of one key does. -/
inductive Turn (o : CompareOptions) (target source : Fields) (st : CompareState) (key : String) :
    CompareState → Prop
  | pass (hg : ¬ Gained o target source key) (hl : ¬ Lost o target source key) :
    Turn o target source st key st
  | gain (hg : Gained o target source key) :
    Turn o target source st key (st.gain o key (get target key))
  | lose (hl : Lost o target source key) :
    Turn o target source st key (st.lose o key (get source key))
  | both (hg : ¬ Gained o target source key) (hl : ¬ Lost o target source key) :
    Turn o target source st key (st.both deepCompareArray (deepCompareObject (o.at key)) o.deep key
      (get target key) (get source key))

theorem turn_step (st : CompareState) (key : String) :
    Turn o target source st key (st.step o target source key) := by
  unfold CompareState.step compareKey
  by_cases hskip : o.selection.skips key = true
  · rw [if_pos hskip]
    exact .pass (fun h => by simp [Gained, hskip] at h) fun h => by simp [Lost, hskip] at h
  · rw [Bool.not_eq_true] at hskip
    simp only [hskip, Bool.false_eq_true, if_false]
    split
    · rename_i ht hs
      exact .pass (fun h => by simp [Gained, ht] at h) fun h => by simp [Lost, hs] at h
    · rename_i ht hs
      exact .gain ⟨hskip, ht, hs⟩
    · rename_i ht hs
      exact .lose ⟨hskip, ht, hs⟩
    · rename_i ht hs
      exact .both (fun h => by simp [Gained, hs] at h) fun h => by simp [Lost, ht] at h

theorem Filed.step (h : Filed o target source seen st) {key : String} (hk : key ∉ seen) :
    Filed o target source (seen ++ [key]) (st.step o target source key) := by
  have hturn : Turn o target source st key (st.step o target source key) := turn_step st key
  generalize st.step o target source key = st' at hturn ⊢
  cases hturn with
  | pass => exact h.mono (List.subset_append_left _ _)
  | gain hg => exact h.gain hk hg _
  | lose hl => exact h.lose hk hl _
  | both => exact h.both hk

/-- A key that takes no key twice keeps the loop exact. -/
theorem Exact.step (h : Exact o target source seen st) {key : String} (hk : key ∉ seen)
    (hr : ¬ Reuses o target source st key) :
    Exact o target source (seen ++ [key]) (st.step o target source key) := by
  have hfiled := h.toFiled.step hk
  have hturn : Turn o target source st key (st.step o target source key) := turn_step st key
  generalize st.step o target source key = st' at hturn hfiled ⊢
  cases hturn with
  | pass hg hl => exact h.pass hg hl
  | gain hg =>
    exact h.gain hk hg fun name hn => Decidable.byContradiction fun hm =>
      hr (.inl ⟨hg, name, hn, hm⟩)
  | lose hl =>
    exact h.lose hk hl fun name hn => Decidable.byContradiction fun hm =>
      hr (.inr ⟨hl, name, hn, hm⟩)
  | both hg hl => exact (h.pass hg hl).beside hfiled beside_both

/-- The first key that takes a key twice breaks the loop. -/
theorem Exact.step_reuses (h : Exact o target source seen st) {key : String} (hk : key ∉ seen)
    (hr : Reuses o target source st key) :
    Broken o target source (seen ++ [key]) (st.step o target source key) := by
  have hturn : Turn o target source st key (st.step o target source key) := turn_step st key
  generalize st.step o target source key = st' at hturn ⊢
  rcases hr with ⟨hg, name, hn, hm⟩ | ⟨hl, name, hn, hm⟩
  · cases hturn with
    | gain => exact h.broken_gain hk hn hm
    | lose hl => exact absurd hl (not_lost_of_gained hg)
    | pass hng => exact absurd hg hng
    | both hng => exact absurd hg hng
  · cases hturn with
    | lose => exact h.broken_lose hk hn hm
    | gain hg => exact absurd hl (not_lost_of_gained hg)
    | pass _ hnl => exact absurd hl hnl
    | both _ hnl => exact absurd hl hnl

theorem Broken.step (h : Broken o target source seen st) (hf : Filed o target source seen st)
    {key : String} (hk : key ∉ seen) :
    Broken o target source (seen ++ [key]) (st.step o target source key) := by
  have hfiled := hf.step hk
  have hturn : Turn o target source st key (st.step o target source key) := turn_step st key
  generalize st.step o target source key = st' at hturn hfiled ⊢
  have hsub : seen ⊆ seen ++ [key] := List.subset_append_left _ _
  cases hturn with
  | pass => exact h.mono hsub
  | gain => exact h.gain hf hk _
  | lose => exact h.lose hf hk _
  | both => exact (h.mono hsub).beside (hf.mono hsub) hfiled beside_both

/-- The loop after the given keys. -/
def after (o : CompareOptions) (target source : Fields) (keys : List String) : CompareState :=
  keys.foldl (CompareState.step o target source) {}

/-- None of the keys is matched with a key that an earlier one took. -/
def NeverReuses (o : CompareOptions) (target source : Fields) (keys : List String) : Prop :=
  ∀ before key rest, keys = before ++ key :: rest →
    ¬ Reuses o target source (after o target source before) key

theorem neverReuses_append {keys : List String} {key : String} :
    NeverReuses o target source (keys ++ [key]) ↔ NeverReuses o target source keys ∧
      ¬ Reuses o target source (after o target source keys) key := by
  constructor
  · intro h
    refine ⟨fun before k rest he => h before k (rest ++ [key]) (by rw [he]; simp), ?_⟩
    exact h keys key [] rfl
  · rintro ⟨h, hlast⟩ before k rest he
    rcases List.eq_nil_or_concat rest with rfl | ⟨rest, last, rfl⟩
    · obtain ⟨rfl, hk⟩ := List.append_inj' he rfl
      rw [List.cons.injEq] at hk
      exact hk.1 ▸ hlast
    · rw [List.concat_eq_append, ← List.cons_append, ← List.append_assoc] at he
      exact h before k rest (List.append_inj' he rfl).1

/-- The loop over distinct keys: exact as long as no key was taken twice,
broken from then on. -/
theorem after_spec {keys : List String} (hn : keys.Nodup) :
    Filed o target source keys (after o target source keys) ∧
      (NeverReuses o target source keys →
        Exact o target source keys (after o target source keys)) ∧
      (¬ NeverReuses o target source keys →
        Broken o target source keys (after o target source keys)) := by
  induction keys using List.reverseRecOn with
  | nil =>
    refine ⟨exact_init.toFiled, fun _ => exact_init, fun h => absurd ?_ h⟩
    intro before key rest he
    simp at he
  | append_singleton keys key ih =>
    obtain ⟨hkeys, -, hkey⟩ := List.nodup_append.mp hn
    obtain ⟨hfiled, hexact, hbroken⟩ := ih hkeys
    have hk : key ∉ keys := fun hm => hkey key hm key List.mem_cons_self rfl
    have hstep : after o target source (keys ++ [key]) =
        (after o target source keys).step o target source key := by
      simp [after, List.foldl_append]
    rw [hstep, neverReuses_append]
    refine ⟨hfiled.step hk, fun h => (hexact h.1).step hk h.2, fun h => ?_⟩
    by_cases hall : NeverReuses o target source keys
    · exact (hexact hall).step_reuses hk (Classical.byContradiction fun hr => h ⟨hall, hr⟩)
    · exact (hbroken hall).step hfiled hk

end CompareState

/-! ## The comparison -/

section Result
open CompareState

variable {o : CompareOptions} {target source : Fields} {st : CompareState}

theorem nodup_allKeys (ht : (keysOf target).Nodup) (hs : (keysOf source).Nodup) :
    (allKeys target source).Nodup := by
  rw [allKeys, List.nodup_append]
  refine ⟨ht, hs.filter _, fun a ha b hb hab => ?_⟩
  simp only [List.mem_filter, decide_eq_true_eq] at hb
  exact hb.2 (hab ▸ ha)

theorem mem_allKeys_of_gained {key : String} (h : Gained o target source key) :
    key ∈ allKeys target source := by
  rw [mem_allKeys]
  left
  refine Decidable.byContradiction fun hk => ?_
  have := h.2.1
  rw [get_of_not_mem hk] at this
  cases this

theorem mem_allKeys_of_lost {key : String} (h : Lost o target source key) :
    key ∈ allKeys target source := by
  rw [mem_allKeys]
  right
  refine Decidable.byContradiction fun hk => ?_
  have := h.2.2
  rw [get_of_not_mem hk] at this
  cases this

theorem countP_eq_count (pairs : List (String × String)) (key : String)
    (f : String × String → String) :
    (pairs.countP fun pair => f pair = key) = (pairs.map f).count key := by
  rw [List.count, List.countP_map]
  exact List.countP_congr fun pair _ => by simp

/-- How often a key is in a list without duplicates. -/
theorem count_eq_ite {keys : List String} (hn : keys.Nodup) {key : String} {P : Prop} [Decidable P]
    (h : key ∈ keys ↔ ¬ P) : keys.count key = if P then 0 else 1 := by
  split
  · rename_i hp
    exact List.count_eq_zero.mpr fun hm => h.mp hm hp
  · rename_i hp
    exact List.count_eq_one_of_mem hn (h.mpr hp)

theorem part_eq {α : Type} {counter : Int} {entries : List α}
    (h : (entries.length : Int) = counter) :
    (if counter ≠ 0 then entries else []) = entries := by
  split
  · rfl
  · rename_i hz
    have : entries.length = 0 := by omega
    exact (List.length_eq_zero_iff.mp this).symm

theorem pairs_of_exact (h : Exact o target source (allKeys target source) st) :
    PairsOneToOne o target source st.result := by
  have hcreate : st.result.create = st.toCreate := part_eq h.create_counter.symm
  have hremove : st.result.remove = st.toRemove := part_eq h.remove_counter.symm
  have hrename : st.result.rename = st.toRename := part_eq h.rename_exact.symm
  have hupdate : st.result.update = st.toUpdate := part_eq h.update_counter.symm
  have hnested : st.result.nested = st.nested := part_eq h.nested_counter.symm
  refine ⟨fun key hg => ?_, fun key hl => ?_, fun old new hp => ?_, ?_, ?_, ?_⟩
  · rw [hcreate, hrename, countP_eq_count]
    refine count_eq_ite h.new_nodup ⟨h.new_not_created key, fun hc => ?_⟩
    exact (h.gained_filed key (mem_allKeys_of_gained hg) hg).resolve_left hc
  · rw [hremove, hrename, countP_eq_count]
    refine count_eq_ite h.old_nodup ⟨h.old_not_removed key, fun hc => ?_⟩
    exact (h.lost_filed key (mem_allKeys_of_lost hl) hl).resolve_left hc
  · rw [hrename] at hp
    exact ⟨(h.old old (mem_keysOf_of_mem hp)).2, (h.new new (List.mem_map_of_mem (f := Prod.snd) hp)).2,
      h.accepted old new hp⟩
  · rw [hrename]
    exact h.old_nodup
  · rw [hrename]
    exact h.new_nodup
  · rw [hcreate, hremove, hrename, hupdate, hnested, counts_result, total, h.create_counter,
      h.remove_counter, h.rename_exact, h.update_counter, h.nested_counter]

theorem mem_of_mem_part {α : Type} {counter : Int} {entries : List α} {a : α}
    (h : a ∈ if counter ≠ 0 then entries else []) : a ∈ entries := by
  split at h
  · exact h
  · cases h

theorem not_pairs_of_broken {seen : List String} (h : Broken o target source seen st)
    (hf : Filed o target source seen st) : ¬ PairsOneToOne o target source st.result := by
  intro hpairs
  rcases h with h | ⟨k, -, hg, -, hcreate, hnew⟩
  · -- A part left out would be missed, so all that was filed is there.
    have hrename : st.result.rename = st.toRename := by
      show (if st.counter.rename ≠ 0 then st.toRename else []) = st.toRename
      split
      · rfl
      · rename_i hz
        have hle := hf.rename_counter
        have : st.toRename.length = 0 := by omega
        exact (List.length_eq_zero_iff.mp this).symm
    have hcreate : st.result.create = st.toCreate := by
      show (if st.counter.create ≠ 0 then st.toCreate else []) = st.toCreate
      split
      · rfl
      · rename_i hz
        cases hc : st.toCreate with
        | nil => rfl
        | cons f rest =>
          have hm : f.1 ∈ keysOf st.toCreate := by simp [hc, keysOf]
          have hone := hpairs.gained f.1 (hf.created f.1 hm).2
          have hempty : st.result.create = [] := if_neg hz
          have hzero : (st.toRename.map Prod.snd).count f.1 = 0 :=
            List.count_eq_zero.mpr fun hn => hf.new_not_created _ hn hm
          rw [hrename, countP_eq_count, hempty, if_neg (by simp [keysOf]), hzero] at hone
          cases hone
    have hremove : st.result.remove = st.toRemove := by
      show (if st.counter.remove ≠ 0 then st.toRemove else []) = st.toRemove
      split
      · rfl
      · rename_i hz
        cases hc : st.toRemove with
        | nil => rfl
        | cons f rest =>
          have hm : f.1 ∈ keysOf st.toRemove := by simp [hc, keysOf]
          have hone := hpairs.lost f.1 (hf.removed f.1 hm).2
          have hempty : st.result.remove = [] := if_neg hz
          have hzero : (st.toRename.map Prod.fst).count f.1 = 0 :=
            List.count_eq_zero.mpr fun hn => hf.old_not_removed _ hn hm
          rw [hrename, countP_eq_count, hempty, if_neg (by simp [keysOf]), hzero] at hone
          cases hone
    have hupdate : st.result.update = st.toUpdate := part_eq hf.update_counter.symm
    have hnested : st.result.nested = st.nested := part_eq hf.nested_counter.symm
    have hcounts := hpairs.counts
    rw [hcreate, hremove, hrename, hupdate, hnested, counts_result] at hcounts
    simp only [entries] at h
    omega
  · -- The key gained is neither created nor a new name.
    have hone := hpairs.gained k hg
    rw [countP_eq_count, List.count_eq_zero.mpr, if_neg] at hone
    · cases hone
    · intro hc
      obtain ⟨f, hm, rfl⟩ := List.mem_map.mp hc
      exact hcreate (List.mem_map_of_mem (mem_of_mem_part hm))
    · intro hc
      obtain ⟨f, hm, rfl⟩ := List.mem_map.mp hc
      exact hnew (List.mem_map_of_mem (mem_of_mem_part hm))

end Result

namespace Sample

def one : Value := .num (.finite 1)

def two : Value := .num (.finite 2)

end Sample

end Ez4.Utils

import Ez4.Migration.TableDiff

/-! # What the changes of a repository say of each table

A table of the target was a table of the source by declaration, by name or by
guess, or is new (`tableBefore`). The changes hold what became of its columns
under its key, whichever of these it is (`TableChanges`). -/

namespace Ez4.Migration
open Ez4.Library Ez4.Utils

/-- The renames guessed of the tables. -/
def guessedTables (target source : TableRepository) : List (String × String) :=
  (getRepositoryChanges target (alignSource target source).source).rename

/-- The table of the source that a table of the target was, with its key. -/
def tableBefore (target source : TableRepository) (table : String) (metadata : TableMetadata) :
    Option (String × TableMetadata) :=
  match declaredTable source table metadata with
  | some previous => some ((declaredFrom source table metadata).getD table, previous)
  | none => ((guessedTables target source).find? (·.2 = table)).bind fun r =>
      (source.find r.1).map (r.1, ·)

/-- The changes of a table. -/
def tableComparison (target previous : TableMetadata) : ObjectComparison :=
  deepCompareObject repositoryOptions target.withoutRenames
    (renamedTable target previous).withoutRenames

/-- The changes of a table under its key, if there are any. -/
def tableEntry (target previous : TableMetadata) : Option ObjectComparison :=
  if 0 < (tableComparison target previous).counts then some (tableComparison target previous)
  else none

theorem find_withoutRenames (repository : TableRepository) (k : String) :
    find (Migration.withoutRenames repository) k =
      (repository.find k).map fun t => .obj t.withoutRenames :=
  find_toFields repository _ k

theorem mem_withoutRenames {repository : TableRepository} {k : String} :
    k ∈ keysOf (Migration.withoutRenames repository) ↔ ∃ t, repository.find k = some t := by
  rw [Migration.withoutRenames, keysOf_toFields]
  exact Record.mem_keysOf

theorem not_mem_withoutRenames {repository : TableRepository} {k : String} :
    k ∉ keysOf (Migration.withoutRenames repository) ↔ repository.find k = none := by
  rw [Migration.withoutRenames, keysOf_toFields]
  exact Record.find_eq_none.symm

theorem compared_repositories (target source : TableRepository) :
    Compared repositoryOptions (Migration.withoutRenames target)
      (Migration.withoutRenames source) (getRepositoryChanges target source) :=
  compared_repository (defined_withoutRenames target) (defined_withoutRenames source)

/-- The changes of a table that both repositories have. -/
theorem find_nested_repositories {target source : TableRepository} {k : String}
    {t s : TableMetadata} (ht : target.find k = some t) (hs : source.find k = some s) :
    find (getRepositoryChanges target source).nested k =
      if 0 < (deepCompareObject repositoryOptions t.withoutRenames s.withoutRenames).counts then
        some (deepCompareObject repositoryOptions t.withoutRenames s.withoutRenames)
      else none :=
  (compared_repositories target source).find_nested_obj (defined_withoutRenames target)
    (by rw [find_withoutRenames, ht]; rfl) (by rw [find_withoutRenames, hs]; rfl)

section Guessed

variable {target source : TableRepository}

theorem not_target_of_declared (hr : RenamesChecked target) {p : String}
    (h : p ∈ (target.values.filterMap (declaredRename source)).map Prod.fst) :
    target.find p = none := by
  obtain ⟨⟨p, t⟩, hpt, rfl⟩ := List.mem_map.mp h
  obtain ⟨⟨u, m⟩, hu, hd⟩ := List.mem_filterMap.mp hpt
  obtain ⟨q, hq, he⟩ := Option.map_eq_some_iff.mp hd
  obtain ⟨rfl, rfl⟩ := Prod.mk.inj he
  obtain ⟨h₁, h₂, -⟩ := declaredFrom_some hq
  exact hr.table_free u m q (find_of_mem target.nodup hu) h₁ h₂

/-- A table guessed to be renamed is one that no target table was. -/
theorem guessedTables_from (hr : RenamesChecked target) {f g : String}
    (h : (f, g) ∈ guessedTables target source) :
    target.find f = none ∧
      f ∉ (target.values.filterMap (declaredRename source)).map Prod.fst ∧
      ∃ s, source.find f = some s := by
  have ho := (compared_repositories target _).from_only f g h
  rw [keysOf_only, List.mem_filter, decide_eq_true_eq, mem_withoutRenames, mem_withoutRenames] at ho
  obtain ⟨⟨s, hs⟩, ht⟩ := ho
  have hnone : target.find f = none := by
    simpa [Option.eq_none_iff_forall_ne_some] using ht
  rw [(aligned_alignSource source hr).other f (Record.find_eq_none.mp hnone)] at hs
  split at hs
  · simp at hs
  · rename_i hnot
    exact ⟨hnone, hnot, s, hs⟩

/-- The new name is that of a target table that nothing was, by declaration or by name. -/
theorem guessedTables_to (hr : RenamesChecked target) {f g : String}
    (h : (f, g) ∈ guessedTables target source) :
    ∃ m, target.find g = some m ∧ declaredTable source g m = none := by
  have ho := (compared_repositories target _).to_only f g h
  rw [keysOf_only, List.mem_filter, decide_eq_true_eq, mem_withoutRenames, mem_withoutRenames] at ho
  obtain ⟨⟨m, hm⟩, hs⟩ := ho
  refine ⟨m, hm, ?_⟩
  have hnone : (alignSource target source).source.find g = none := by
    simpa [Option.eq_none_iff_forall_ne_some] using hs
  rw [(aligned_alignSource source hr).found g m hm, Option.map_eq_none_iff] at hnone
  exact hnone

theorem guessedTables_nodup :
    ((guessedTables target source).map Prod.fst).Nodup ∧
      ((guessedTables target source).map Prod.snd).Nodup :=
  ⟨(compared_repositories target _).from_nodup, (compared_repositories target _).to_nodup⟩

theorem tableBefore_of_guessed (hr : RenamesChecked target) {f g : String} {m : TableMetadata}
    (h : (f, g) ∈ guessedTables target source) (hm : target.find g = some m) :
    tableBefore target source g m = (source.find f).map (f, ·) := by
  obtain ⟨n, hn, hd⟩ := guessedTables_to hr h
  obtain rfl : m = n := Option.some.inj (hm.symm.trans hn)
  have hfind : (guessedTables target source).find? (·.2 = g) = some (f, g) :=
    KeyedMap.find?_of_mem guessedTables_nodup.2 h
  rw [tableBefore, hd, hfind]
  rfl

end Guessed

/-! ## Guessed renames of tables, made -/

/-- The declared renames the columns of a table haven't gone through, if there
are any. -/
def pendingRenames (target previous : TableMetadata) : Option (List (String × String)) :=
  if getColumnRenames target previous = [] then none else some (getColumnRenames target previous)

section Normalize

variable {target source : TableRepository}

theorem Normalization.step_eq (n : Normalization) {f g : String} {m s : TableMetadata}
    (hm : target.find g = some m) (hs : source.find f = some s) :
    n.step target source (f, g) =
      { source := (n.source.set (g, renamedTable m s)).erase f
        columnRenames := match pendingRenames m s with
          | some renames => assign n.columnRenames g renames
          | none => n.columnRenames
        nested := match tableEntry m s with
          | some changes => assign n.nested g changes
          | none => n.nested } := by
  have hset : ∀ t : TableMetadata, Record.find ((∅ : TableRepository).set (g, t)) g = some t :=
    fun t => by rw [Record.find_set, if_pos rfl]
  have hnested := find_nested_repositories (hset m) (hset (renamedTable m s))
  have hrenamed : (if getColumnRenames m s = [] then s
      else renameColumns s (getColumnRenames m s)) = renamedTable m s := by
    rw [renamedTable]
    split
    · rename_i h; rw [h, renameColumns_nil]
    · rfl
  unfold Normalization.step
  simp only [hm, hs, hrenamed, hnested]
  rw [pendingRenames, tableEntry, tableComparison]
  congr 1
  split <;> rfl

/-- What the loop has made of the variables, by the renames it has been through. -/
structure Normalized (target source : TableRepository) (renames : List (String × String))
    (n n' : Normalization) : Prop where
  source_to : ∀ f g m s, (f, g) ∈ renames → target.find g = some m → source.find f = some s →
    n'.source.find g = some (renamedTable m s)
  nested_to : ∀ f g m s, (f, g) ∈ renames → target.find g = some m → source.find f = some s →
    find n'.nested g = (tableEntry m s).or (find n.nested g)
  columns_to : ∀ f g m s, (f, g) ∈ renames → target.find g = some m → source.find f = some s →
    find n'.columnRenames g = (pendingRenames m s).or (find n.columnRenames g)
  source_from : ∀ k ∈ renames.map Prod.fst, n'.source.find k = none
  source_other : ∀ k, k ∉ renames.map Prod.fst → k ∉ renames.map Prod.snd →
    n'.source.find k = n.source.find k
  nested_other : ∀ k, k ∉ renames.map Prod.snd → find n'.nested k = find n.nested k
  columns_other : ∀ k, k ∉ renames.map Prod.snd →
    find n'.columnRenames k = find n.columnRenames k
  nested_nodup : (keysOf n.nested).Nodup → (keysOf n'.nested).Nodup
  columns_nodup : (keysOf n.columnRenames).Nodup → (keysOf n'.columnRenames).Nodup

theorem nodup_assign {α : Type} {fields : List (String × α)} (h : (keysOf fields).Nodup)
    (k : String) (a : α) : (keysOf (assign fields k a)).Nodup := KeyedMap.nodup_upsert h

theorem normalized_step (n : Normalization) {f g : String} (hne : f ≠ g)
    (hm : ∃ m, target.find g = some m) (hs : ∃ s, source.find f = some s) :
    Normalized target source [(f, g)] n (n.step target source (f, g)) := by
  obtain ⟨m, hm⟩ := hm
  obtain ⟨s, hs⟩ := hs
  have hmem : ∀ {f' g' : String} {m' s' : TableMetadata}, (f', g') ∈ [(f, g)] →
      target.find g' = some m' → source.find f' = some s' →
      f' = f ∧ g' = g ∧ m' = m ∧ s' = s := by
    intro f' g' m' s' hfg hm' hs'
    obtain ⟨rfl, rfl⟩ := Prod.mk.inj (List.mem_singleton.mp hfg)
    exact ⟨rfl, rfl, Option.some.inj (hm'.symm.trans hm), Option.some.inj (hs'.symm.trans hs)⟩
  rw [n.step_eq hm hs]
  refine ⟨?_, ?_, ?_, fun k hk => ?_, fun k hf hg => ?_, fun k hk => ?_, fun k hk => ?_,
    fun hn => ?_, fun hn => ?_⟩
  · intro f' g' m' s' hfg hm' hs'
    obtain ⟨rfl, rfl, rfl, rfl⟩ := hmem hfg hm' hs'
    simp [Ne.symm hne]
  · intro f' g' m' s' hfg hm' hs'
    obtain ⟨rfl, rfl, rfl, rfl⟩ := hmem hfg hm' hs'
    cases tableEntry m' s' <;> simp [find_assign]
  · intro f' g' m' s' hfg hm' hs'
    obtain ⟨rfl, rfl, rfl, rfl⟩ := hmem hfg hm' hs'
    cases pendingRenames m' s' <;> simp [find_assign]
  · obtain rfl : k = f := by simpa using hk
    simp
  · have hf' : k ≠ f := by simpa using hf
    have hg' : k ≠ g := by simpa using hg
    simp [hf', Ne.symm hg']
  · have hk' : k ≠ g := by simpa using hk
    cases tableEntry m s <;> simp [find_assign, Ne.symm hk']
  · have hk' : k ≠ g := by simpa using hk
    cases pendingRenames m s <;> simp [find_assign, Ne.symm hk']
  · cases tableEntry m s with
    | none => exact hn
    | some c => exact nodup_assign hn g c
  · cases pendingRenames m s with
    | none => exact hn
    | some renames => exact nodup_assign hn g renames

theorem Normalized.cons {r : String × String} {rest : List (String × String)}
    {n n₁ n₂ : Normalization} (hr : Renaming (r :: rest)) (h₁ : Normalized target source [r] n n₁)
    (h₂ : Normalized target source rest n₁ n₂) : Normalized target source (r :: rest) n n₂ := by
  obtain ⟨f, g⟩ := r
  have hg₁ : g ∉ rest.map Prod.fst := fun hf =>
    hr.disjoint g (List.mem_cons_of_mem _ hf) List.mem_cons_self
  have hg₂ : g ∉ rest.map Prod.snd := (List.nodup_cons.mp hr.to_nodup).1
  have hf₂ : f ∉ rest.map Prod.snd := fun ht =>
    hr.disjoint f List.mem_cons_self (List.mem_cons_of_mem _ ht)
  have hne : ∀ {f' g' : String}, (f', g') ∈ rest → g' ∉ [(f, g)].map Prod.snd := by
    intro f' g' hm he
    obtain rfl : g' = g := by simpa using he
    exact hg₂ (List.mem_map_of_mem hm)
  refine ⟨?_, ?_, ?_, fun k hk => ?_, fun k hf hg => ?_, fun k hk => ?_, fun k hk => ?_,
    fun hn => h₂.nested_nodup (h₁.nested_nodup hn), fun hn => h₂.columns_nodup (h₁.columns_nodup hn)⟩
  · intro f' g' m s hfg hm hs
    rcases List.mem_cons.mp hfg with he | hfg
    · obtain ⟨rfl, rfl⟩ := Prod.mk.inj he
      rw [h₂.source_other _ hg₁ hg₂]
      exact h₁.source_to _ _ m s (List.mem_singleton.mpr rfl) hm hs
    · exact h₂.source_to f' g' m s hfg hm hs
  · intro f' g' m s hfg hm hs
    rcases List.mem_cons.mp hfg with he | hfg
    · obtain ⟨rfl, rfl⟩ := Prod.mk.inj he
      rw [h₂.nested_other _ hg₂]
      exact h₁.nested_to _ _ m s (List.mem_singleton.mpr rfl) hm hs
    · rw [h₂.nested_to f' g' m s hfg hm hs, h₁.nested_other _ (hne hfg)]
  · intro f' g' m s hfg hm hs
    rcases List.mem_cons.mp hfg with he | hfg
    · obtain ⟨rfl, rfl⟩ := Prod.mk.inj he
      rw [h₂.columns_other _ hg₂]
      exact h₁.columns_to _ _ m s (List.mem_singleton.mpr rfl) hm hs
    · rw [h₂.columns_to f' g' m s hfg hm hs, h₁.columns_other _ (hne hfg)]
  · by_cases hf : k ∈ rest.map Prod.fst
    · exact h₂.source_from k hf
    · obtain rfl : k = f := by simpa [hf] using hk
      rw [h₂.source_other _ hf hf₂]
      exact h₁.source_from _ (by simp)
  · rw [List.map_cons, List.mem_cons, not_or] at hf hg
    rw [h₂.source_other k hf.2 hg.2, h₁.source_other k (by simpa using hf.1) (by simpa using hg.1)]
  · rw [List.map_cons, List.mem_cons, not_or] at hk
    rw [h₂.nested_other k hk.2, h₁.nested_other k (by simpa using hk.1)]
  · rw [List.map_cons, List.mem_cons, not_or] at hk
    rw [h₂.columns_other k hk.2, h₁.columns_other k (by simpa using hk.1)]

theorem normalized_foldl {renames : List (String × String)} (h : Renaming renames)
    (hfound : ∀ r ∈ renames, (∃ m, target.find r.2 = some m) ∧ ∃ s, source.find r.1 = some s)
    (n : Normalization) :
    Normalized target source renames n (renames.foldl (Normalization.step target source) n) := by
  induction renames generalizing n with
  | nil => constructor <;> simp
  | cons r rest ih =>
    have hne : r.1 ≠ r.2 := fun he => h.disjoint r.1 List.mem_cons_self (he ▸ List.mem_cons_self)
    obtain ⟨hm, hs⟩ := hfound r List.mem_cons_self
    rw [List.foldl_cons]
    exact (normalized_step n hne hm hs).cons h
      (ih h.tail (fun q hq => hfound q (List.mem_cons_of_mem _ hq)) _)

theorem renaming_guessedTables (hr : RenamesChecked target) :
    Renaming (guessedTables target source) where
  from_nodup := guessedTables_nodup.1
  to_nodup := guessedTables_nodup.2
  disjoint k hf ht := by
    obtain ⟨⟨f, g⟩, hfg, rfl⟩ := List.mem_map.mp hf
    obtain ⟨⟨p, q⟩, hpq, hk : q = f⟩ := List.mem_map.mp ht
    have hnone := (guessedTables_from hr hfg).1
    obtain ⟨m, hm, -⟩ := guessedTables_to hr hpq
    rw [hk, hnone] at hm
    simp at hm

/-- The variables after the loop. -/
def normalized (target source : TableRepository) : Normalization :=
  (guessedTables target source).foldl (Normalization.step target source)
    ⟨(alignSource target source).source,
      (getRepositoryChanges target (alignSource target source).source).nested,
      (alignSource target source).columnRenames⟩

theorem normalized_spec (source : TableRepository) (hr : RenamesChecked target) :
    Normalized target source (guessedTables target source)
      ⟨(alignSource target source).source,
        (getRepositoryChanges target (alignSource target source).source).nested,
        (alignSource target source).columnRenames⟩ (normalized target source) :=
  normalized_foldl (renaming_guessedTables hr) (fun _ h =>
    ⟨(guessedTables_to hr h).imp fun _ hm => hm.1, (guessedTables_from hr h).2.2⟩) _

theorem tableBefore_of_not_guessed {t : String} {m : TableMetadata}
    (h : t ∉ (guessedTables target source).map Prod.snd) :
    tableBefore target source t m = (declaredTable source t m).map fun s =>
      ((declaredFrom source t m).getD t, s) := by
  have hfind : (guessedTables target source).find? (·.2 = t) = none := by
    rw [List.find?_eq_none]
    rintro r hr he
    exact h (of_decide_eq_true he ▸ List.mem_map_of_mem hr)
  rw [tableBefore, hfind]
  cases declaredTable source t m <;> rfl

theorem not_guessed_from_of_target (hr : RenamesChecked target) {t : String} {m : TableMetadata}
    (ht : target.find t = some m) : t ∉ (guessedTables target source).map Prod.fst := by
  intro h
  obtain ⟨⟨f, g⟩, hfg, rfl⟩ := List.mem_map.mp h
  rw [(guessedTables_from hr hfg).1] at ht
  simp at ht

theorem find_normalized_source (hr : RenamesChecked target) {t : String} {m : TableMetadata}
    (ht : target.find t = some m) :
    (normalized target source).source.find t =
      (tableBefore target source t m).map fun b => renamedTable m b.2 := by
  have hn := normalized_spec source hr
  by_cases hg : t ∈ (guessedTables target source).map Prod.snd
  · obtain ⟨⟨f, g⟩, hfg, rfl⟩ := List.mem_map.mp hg
    obtain ⟨-, -, s, hs⟩ := guessedTables_from hr hfg
    rw [hn.source_to f g m s hfg ht hs, tableBefore_of_guessed hr hfg ht, hs]
    rfl
  · rw [hn.source_other t (not_guessed_from_of_target hr ht) hg, tableBefore_of_not_guessed hg,
      (aligned_alignSource source hr).found t m ht, Option.map_map]
    rfl

/-- The tables of the source that no target table was are left as they are. -/
theorem find_normalized_other (hr : RenamesChecked target) {k : String}
    (hk : target.find k = none) :
    (normalized target source).source.find k =
      if k ∈ (target.values.filterMap (declaredRename source)).map Prod.fst ∨
        k ∈ (guessedTables target source).map Prod.fst then none
      else source.find k := by
  have hn := normalized_spec source hr
  by_cases hf : k ∈ (guessedTables target source).map Prod.fst
  · rw [hn.source_from k hf, if_pos (Or.inr hf)]
  · have hg : k ∉ (guessedTables target source).map Prod.snd := fun hg => by
      obtain ⟨⟨f, g⟩, hfg, rfl⟩ := List.mem_map.mp hg
      obtain ⟨m, hm, -⟩ := guessedTables_to hr hfg
      rw [hk] at hm
      simp at hm
    rw [hn.source_other k hf hg, (aligned_alignSource source hr).other k (Record.find_eq_none.mp hk)]
    simp only [hf, or_false]

theorem find_normalized_nested (hr : RenamesChecked target) {t : String} {m : TableMetadata}
    (ht : target.find t = some m) :
    find (normalized target source).nested t =
      (tableBefore target source t m).bind fun b => tableEntry m b.2 := by
  have hn := normalized_spec source hr
  have hfound := (aligned_alignSource source hr).found t m ht
  have hnone : declaredTable source t m = none →
      find (getRepositoryChanges target (alignSource target source).source).nested t = none :=
    fun hd => (compared_repositories target _).find_nested_of_none (defined_withoutRenames target)
      (Or.inr (by rw [find_withoutRenames, hfound, hd]; rfl))
  by_cases hg : t ∈ (guessedTables target source).map Prod.snd
  · obtain ⟨⟨f, g⟩, hfg, rfl⟩ := List.mem_map.mp hg
    obtain ⟨-, -, s, hs⟩ := guessedTables_from hr hfg
    obtain ⟨n, hm, hd⟩ := guessedTables_to hr hfg
    obtain rfl : m = n := Option.some.inj (ht.symm.trans hm)
    rw [hn.nested_to f g m s hfg ht hs, tableBefore_of_guessed hr hfg ht, hs, hnone hd]
    exact Option.or_none
  · rw [hn.nested_other t hg, tableBefore_of_not_guessed hg]
    cases hd : declaredTable source t m with
    | none => exact hnone hd
    | some s =>
      rw [hd] at hfound
      exact find_nested_repositories ht hfound

theorem find_normalized_columns (hr : RenamesChecked target) {t : String} {m : TableMetadata}
    (ht : target.find t = some m) :
    find (normalized target source).columnRenames t =
      (tableBefore target source t m).bind fun b => pendingRenames m b.2 := by
  have hn := normalized_spec source hr
  have haligned : find (alignSource target source).columnRenames t =
      (declaredTable source t m).bind fun s => pendingRenames m s := by
    rw [(aligned_alignSource source hr).columns, find_filterMap _ target.nodup]
    · change (target.find t).bind _ = _
      rw [ht, Option.bind_some, declaredColumnRenames]
      cases declaredTable source t m with
      | none => rfl
      | some s =>
        simp only [Option.bind_some, pendingRenames]
        split <;> rfl
    · intro f g hg
      obtain ⟨s, -, hs⟩ := Option.bind_eq_some_iff.mp hg
      simp only [Option.ite_none_left_eq_some, Option.some.injEq] at hs
      exact hs.2 ▸ rfl
  by_cases hg : t ∈ (guessedTables target source).map Prod.snd
  · obtain ⟨⟨f, g⟩, hfg, rfl⟩ := List.mem_map.mp hg
    obtain ⟨-, -, s, hs⟩ := guessedTables_from hr hfg
    obtain ⟨n, hm, hd⟩ := guessedTables_to hr hfg
    obtain rfl : m = n := Option.some.inj (ht.symm.trans hm)
    rw [hn.columns_to f g m s hfg ht hs, tableBefore_of_guessed hr hfg ht, hs, haligned, hd]
    exact Option.or_none
  · rw [hn.columns_other t hg, tableBefore_of_not_guessed hg, haligned]
    cases declaredTable source t m <;> rfl

theorem not_mem_normalized (source : TableRepository) (hr : RenamesChecked target) {k : String}
    (hk : target.find k = none) :
    find (normalized target source).nested k = none ∧
      find (normalized target source).columnRenames k = none := by
  have hn := normalized_spec source hr
  have hg : k ∉ (guessedTables target source).map Prod.snd := fun hg => by
    obtain ⟨⟨f, g⟩, hfg, rfl⟩ := List.mem_map.mp hg
    obtain ⟨m, hm, -⟩ := guessedTables_to hr hfg
    rw [hk] at hm
    simp at hm
  refine ⟨?_, ?_⟩
  · rw [hn.nested_other k hg]
    exact (compared_repositories target _).find_nested_of_none (defined_withoutRenames target)
      (Or.inl (by rw [find_withoutRenames, hk]; rfl))
  · rw [hn.columns_other k hg, (aligned_alignSource source hr).columns, find_eq_none]
    refine fun hm => Record.find_eq_none.mp hk (keysOf_filterMap_subset (fun f g hg => ?_) hm)
    obtain ⟨s, -, hs⟩ := Option.bind_eq_some_iff.mp hg
    simp only [Option.ite_none_left_eq_some, Option.some.injEq] at hs
    exact hs.2 ▸ rfl

end Normalize

/-! ## Renames added to the changes -/

theorem spread_eq_append {α : Type} {object other : List (String × α)}
    (hn : (keysOf other).Nodup) (hd : ∀ k ∈ keysOf other, k ∉ keysOf object) :
    spread object other = object ++ other := by
  unfold spread
  induction other generalizing object with
  | nil => simp
  | cons f rest ih =>
    simp only [keysOf, List.map_cons, List.nodup_cons, List.mem_cons, forall_eq_or_imp] at hn hd
    rw [List.foldl_cons, assign_of_not_mem hd.1, ih hn.2, List.append_assoc]
    · rfl
    · intro k hk
      rw [keysOf_append, List.mem_append, not_or]
      refine ⟨hd.2 k hk, fun hm => ?_⟩
      obtain rfl : k = f.1 := by simpa [keysOf] using hm
      exact hn.1 hk

/-- Renames added to the tables themselves. -/
theorem addRenames_here (c : ObjectComparison) (renames : List (String × String)) :
    (addRenames (some c) [] renames).rename = spread c.rename renames ∧
      (addRenames (some c) [] renames).create = c.create ∧
      (addRenames (some c) [] renames).remove = c.remove ∧
      (addRenames (some c) [] renames).nested = c.nested := by
  unfold addRenames
  by_cases h : renames = []
  · subst h; exact ⟨rfl, rfl, rfl, rfl⟩
  · simp [h]

theorem addRenames_there (c : ObjectComparison) (key : String) (path : List String)
    {renames : List (String × String)} (h : renames ≠ []) :
    (addRenames (some c) (key :: path) renames).rename = c.rename ∧
      (addRenames (some c) (key :: path) renames).create = c.create ∧
      (addRenames (some c) (key :: path) renames).remove = c.remove ∧
      (addRenames (some c) (key :: path) renames).nested =
        assign c.nested key (addRenames (find c.nested key) path renames) := by
  rw [addRenames]
  simp [h]

/-- The changes of the columns of a table, if it has any. -/
def columnsOf (entry : Option ObjectComparison) : ObjectComparison :=
  columnChanges (entry.getD ObjectComparison.none)

/-- Two comparisons that say the same of their keys, if not of the values updated. -/
structure SameKeys (c d : ObjectComparison) : Prop where
  create : c.create = d.create
  rename : c.rename = d.rename
  nested : c.nested = d.nested
  remove : c.remove = d.remove

/-- The empty comparison, found where there is none. -/
theorem addRenames_eq_getD (entry : Option ObjectComparison) (path : List String)
    (renames : List (String × String)) :
    addRenames entry path renames =
      addRenames (some (entry.getD ObjectComparison.none)) path renames := by
  cases path <;> rfl

theorem columnsOf_addRenames (entry : Option ObjectComparison) {renames : List (String × String)}
    (h : renames ≠ []) :
    SameKeys (columnsOf (some (addRenames entry ["schema", "properties"] renames)))
      { columnsOf entry with rename := spread (columnsOf entry).rename renames } := by
  have hcolumns : columnsOf (some (addRenames entry ["schema", "properties"] renames)) =
      addRenames (some (columnsOf entry)) [] renames := by
    rw [columnsOf, Option.getD_some, columnChanges, addRenames_eq_getD,
      (addRenames_there _ "schema" ["properties"] h).2.2.2, find_assign, if_pos rfl,
      Option.bind_some, addRenames_eq_getD, (addRenames_there _ "properties" [] h).2.2.2, find_assign,
      if_pos rfl, Option.getD_some, addRenames_eq_getD, columnsOf, columnChanges]
    cases find (entry.getD ObjectComparison.none).nested "schema" <;> rfl
  obtain ⟨hr, hc, hd, hn⟩ := addRenames_here (columnsOf entry) renames
  rw [hcolumns]
  exact ⟨hc, hr, hn, hd⟩

theorem compared_schemas (target source : TableMetadata) :
    Compared repositoryOptions target.schema.toFields source.schema.toFields
      (deepCompareObject repositoryOptions target.schema.toFields source.schema.toFields) :=
  compared_repository target.schema.defined source.schema.defined

/-- A comparison that found nothing is as good as none. -/
theorem nested_getD {target source : Fields} {c : ObjectComparison}
    (h : Compared repositoryOptions target source c) :
    ((if 0 < c.counts then some c else none).getD ObjectComparison.none).nested = c.nested := by
  split
  · rfl
  · rename_i hc
    exact (h.eq_nil_of_counts hc).2.2.2.2.symm

theorem columnChanges_eq (c : ObjectComparison) :
    columnChanges c = (find ((find c.nested "schema").getD ObjectComparison.none).nested
      "properties").getD ObjectComparison.none := by
  rw [columnChanges]
  cases find c.nested "schema" <;> rfl

/-- The changes of the columns are those found under the schema. -/
theorem columnsOf_tableEntry (target previous : TableMetadata) :
    SameKeys (columnsOf (tableEntry target previous)) (columnComparison target previous) := by
  have htable := (compared_repository target.defined (renamedTable target previous).defined)
  have hschema := htable.find_nested_obj target.defined target.find_schema
    (renamedTable target previous).find_schema
  have hproperties := (compared_schemas target (renamedTable target previous)).find_nested_obj
    target.schema.defined target.schema.find_properties
    (renamedTable target previous).schema.find_properties
  rw [at_repositoryOptions] at hschema hproperties
  have hcolumns : columnsOf (tableEntry target previous) =
      if 0 < (columnComparison target previous).counts then columnComparison target previous
      else ObjectComparison.none := by
    rw [columnsOf, columnChanges_eq, tableEntry, tableComparison, nested_getD htable, hschema,
      nested_getD (compared_schemas _ _), hproperties]
    change ((if 0 < (columnComparison target previous).counts then
      some (columnComparison target previous) else none).getD _) = _
    split <;> rfl
  rw [hcolumns]
  split
  · exact ⟨rfl, rfl, rfl, rfl⟩
  · rename_i hc
    obtain ⟨h₁, -, h₃, h₄, h₅⟩ := (compared_columns target previous).eq_nil_of_counts hc
    exact ⟨h₁.symm, h₄.symm, h₅.symm, h₃.symm⟩

/-- The column renames of each table are added under it. -/
theorem foldl_addRenames {l : List (String × List (String × String))} (hn : (keysOf l).Nodup)
    (hne : ∀ f ∈ l, f.2 ≠ []) (c : ObjectComparison) {d : ObjectComparison}
    (hd : d = l.foldl (fun allChanges (table, renames) =>
      addRenames (some allChanges) [table, "schema", "properties"] renames) c) :
    d.rename = c.rename ∧ d.create = c.create ∧ d.remove = c.remove ∧
      ((keysOf c.nested).Nodup → (keysOf d.nested).Nodup) ∧
      ∀ t, find d.nested t = match find l t with
        | some renames => some (addRenames (find c.nested t) ["schema", "properties"] renames)
        | none => find c.nested t := by
  induction l generalizing c with
  | nil => subst hd; exact ⟨rfl, rfl, rfl, id, fun _ => rfl⟩
  | cons f rest ih =>
    simp only [keysOf, List.map_cons, List.nodup_cons, List.mem_cons, forall_eq_or_imp] at hn hne
    obtain ⟨h₁, h₂, h₃, h₄⟩ := addRenames_there c f.1 ["schema", "properties"] hne.1
    rw [List.foldl_cons] at hd
    obtain ⟨i₁, i₂, i₃, i₄, i₅⟩ := ih hn.2 hne.2 _ hd
    refine ⟨i₁.trans h₁, i₂.trans h₂, i₃.trans h₃, fun hc => i₄ ?_, fun t => ?_⟩
    · rw [h₄]
      exact nodup_assign hc _ _
    · rw [i₅ t, h₄, find_assign, find_cons]
      by_cases ht : f.1 = t
      · subst ht
        rw [find_eq_none.mpr hn.1, if_pos rfl, if_pos rfl]
      · rw [if_neg ht, if_neg ht]

/-! ## The changes, table by table -/

/-- What the changes of a repository say of each table. -/
structure TableChanges (target source : TableRepository) (c : TableRepositoryChanges) : Prop where
  created : ∀ t, t ∈ keysOf c.changes.create ↔
    ∃ m, target.find t = some m ∧ tableBefore target source t m = none
  removed : ∀ k, k ∈ keysOf c.changes.remove ↔
    target.find k = none ∧ k ∉ c.changes.rename.map Prod.fst ∧ ∃ s, source.find k = some s
  one_to_one : Renaming c.changes.rename
  renamed : ∀ p t, (p, t) ∈ c.changes.rename ↔
    ∃ m s, target.find t = some m ∧ tableBefore target source t m = some (p, s) ∧ p ≠ t
  nested_nodup : (keysOf c.changes.nested).Nodup
  nested_found : ∀ t ∈ keysOf c.changes.nested,
    ∃ m b, target.find t = some m ∧ tableBefore target source t m = some b
  columns : ∀ t m b, target.find t = some m → tableBefore target source t m = some b →
    SameKeys (columnsOf (find c.changes.nested t)) (columnDiff m b.2)
  found : ∀ t m, target.find t = some m →
    c.source.find t = (tableBefore target source t m).map fun b => renamedTable m b.2
  other : ∀ k, target.find k = none →
    c.source.find k = if k ∈ c.changes.rename.map Prod.fst then none else source.find k

section Spec

variable {target source : TableRepository}

theorem pendingRenames_eq_some {target previous : TableMetadata}
    {renames : List (String × String)} :
    pendingRenames target previous = some renames ↔
      getColumnRenames target previous ≠ [] ∧ getColumnRenames target previous = renames := by
  simp [pendingRenames]

theorem mem_declaredRenames {p t : String} :
    (p, t) ∈ target.values.filterMap (declaredRename source) ↔
      ∃ m, target.find t = some m ∧ declaredFrom source t m = some p := by
  rw [List.mem_filterMap]
  constructor
  · rintro ⟨⟨u, m⟩, hu, hd⟩
    obtain ⟨q, hq, he⟩ := Option.map_eq_some_iff.mp hd
    obtain ⟨rfl, rfl⟩ := Prod.mk.inj he
    exact ⟨m, find_of_mem target.nodup hu, hq⟩
  · rintro ⟨m, hm, hd⟩
    exact ⟨(t, m), mem_of_find hm, by simp [declaredRename, hd]⟩

theorem nodup_declaredRenames_to (target source : TableRepository) :
    ((target.values.filterMap (declaredRename source)).map Prod.snd).Nodup := by
  refine target.nodup.sublist (sublist_map_filterMap (fun f r hr => ?_) _)
  obtain ⟨q, -, he⟩ := Option.map_eq_some_iff.mp hr
  exact he ▸ rfl

theorem nodup_declaredRenames_from (hr : RenamesChecked target) :
    ((target.values.filterMap (declaredRename source)).map Prod.fst).Nodup := by
  refine List.Nodup.map_on (fun x hx y hy he => ?_) (nodup_declaredRenames_to target source).of_map
  obtain ⟨p, t⟩ := x
  obtain ⟨q, u⟩ := y
  obtain rfl : p = q := he
  obtain ⟨m, hm, hp⟩ := mem_declaredRenames.mp hx
  obtain ⟨n, hn, hq⟩ := mem_declaredRenames.mp hy
  obtain ⟨h₁, h₂, -⟩ := declaredFrom_some hp
  rw [hr.table_once t u m n p hm hn h₁ (declaredFrom_some hq).1 h₂]

/-- A table declared to be renamed finds the one it was. -/
theorem declaredTable_of_declaredFrom {t p : String} {m : TableMetadata}
    (h : declaredFrom source t m = some p) :
    ∃ s, source.find p = some s ∧ declaredTable source t m = some s := by
  obtain ⟨-, -, -, hp⟩ := declaredFrom_some h
  obtain ⟨s, hs⟩ := Record.has_eq_true.mp hp
  exact ⟨s, hs, by rw [declaredTable, h, Option.getD_some, hs]⟩

/-- The renames of the tables, guessed and declared. -/
def allTableRenames (target source : TableRepository) : List (String × String) :=
  guessedTables target source ++ target.values.filterMap (declaredRename source)

theorem renaming_allTableRenames (source : TableRepository) (hr : RenamesChecked target) :
    Renaming (allTableRenames target source) where
  from_nodup := by
    rw [allTableRenames, List.map_append, List.nodup_append]
    refine ⟨guessedTables_nodup.1, nodup_declaredRenames_from hr, ?_⟩
    rintro f hf g hg rfl
    obtain ⟨⟨f, t⟩, hft, rfl⟩ := List.mem_map.mp hf
    exact (guessedTables_from hr hft).2.1 hg
  to_nodup := by
    rw [allTableRenames, List.map_append, List.nodup_append]
    refine ⟨guessedTables_nodup.2, nodup_declaredRenames_to target source, ?_⟩
    rintro f hf g hg rfl
    obtain ⟨⟨f, t⟩, hft, rfl⟩ := List.mem_map.mp hf
    obtain ⟨⟨p, u⟩, hpu, rfl : u = t⟩ := List.mem_map.mp hg
    obtain ⟨m, hm, hd⟩ := guessedTables_to hr hft
    obtain ⟨n, hn, hp⟩ := mem_declaredRenames.mp hpu
    obtain rfl : m = n := Option.some.inj (hm.symm.trans hn)
    obtain ⟨s, -, hs⟩ := declaredTable_of_declaredFrom hp
    simp [hd] at hs
  disjoint k hf ht := by
    have hnone : target.find k = none := by
      rw [allTableRenames, List.map_append, List.mem_append] at hf
      rcases hf with hf | hf
      · obtain ⟨⟨f, t⟩, hft, rfl⟩ := List.mem_map.mp hf
        exact (guessedTables_from hr hft).1
      · exact not_target_of_declared hr hf
    rw [allTableRenames, List.map_append, List.mem_append] at ht
    rcases ht with ht | ht <;> obtain ⟨⟨f, t⟩, hft, rfl⟩ := List.mem_map.mp ht
    · obtain ⟨m, hm, -⟩ := guessedTables_to hr hft
      simp [hm] at hnone
    · obtain ⟨m, hm, -⟩ := mem_declaredRenames.mp hft
      simp [hm] at hnone

theorem mem_allTableRenames (hr : RenamesChecked target) {p t : String} :
    (p, t) ∈ allTableRenames target source ↔
      ∃ m s, target.find t = some m ∧ tableBefore target source t m = some (p, s) ∧ p ≠ t := by
  constructor
  · intro h
    rcases List.mem_append.mp h with h | h
    · obtain ⟨m, hm, -⟩ := guessedTables_to hr h
      obtain ⟨hp, -, s, hs⟩ := guessedTables_from hr h
      refine ⟨m, s, hm, by rw [tableBefore_of_guessed hr h hm, hs]; rfl, ?_⟩
      rintro rfl
      simp [hm] at hp
    · obtain ⟨m, hm, hd⟩ := mem_declaredRenames.mp h
      obtain ⟨s, -, hs⟩ := declaredTable_of_declaredFrom hd
      obtain ⟨-, -, ht, hp⟩ := declaredFrom_some hd
      refine ⟨m, s, hm, by rw [tableBefore, hs, hd]; rfl, ?_⟩
      rintro rfl
      simp [ht] at hp
  · rintro ⟨m, s, hm, hb, hne⟩
    rw [tableBefore] at hb
    cases hs : declaredTable source t m with
    | some s' =>
      rw [hs] at hb
      obtain ⟨hp, -⟩ := Prod.mk.inj (Option.some.inj hb)
      cases hd : declaredFrom source t m with
      | none => rw [hd] at hp; exact absurd hp.symm hne
      | some q =>
        rw [hd, Option.getD_some] at hp
        exact List.mem_append_right _ (mem_declaredRenames.mpr ⟨m, hm, hp ▸ hd⟩)
    | none =>
      rw [hs] at hb
      obtain ⟨r, hr', hb⟩ := Option.bind_eq_some_iff.mp hb
      obtain ⟨s', -, he⟩ := Option.map_eq_some_iff.mp hb
      obtain ⟨rfl, -⟩ := Prod.mk.inj he
      obtain rfl : r.2 = t := by simpa using List.find?_some hr'
      exact List.mem_append_left _ (List.mem_of_find?_eq_some hr')

theorem pendingRenames_ne (hr : RenamesChecked target)
    {f : String × List (String × String)} (hf : f ∈ (normalized target source).columnRenames)
    (hn : (keysOf (normalized target source).columnRenames).Nodup) :
    ∃ m b, target.find f.1 = some m ∧ tableBefore target source f.1 m = some b ∧
      getColumnRenames m b.2 = f.2 ∧ f.2 ≠ [] := by
  have hfind := find_of_mem hn hf
  cases hm : target.find f.1 with
  | none => simp [(not_mem_normalized source hr hm).2] at hfind
  | some m =>
    rw [find_normalized_columns hr hm] at hfind
    obtain ⟨b, hb, hp⟩ := Option.bind_eq_some_iff.mp hfind
    obtain ⟨hne, he⟩ := pendingRenames_eq_some.mp hp
    exact ⟨m, b, rfl, hb, he, he ▸ hne⟩

theorem nodup_normalized (source : TableRepository) (hr : RenamesChecked target) :
    (keysOf (normalized target source).nested).Nodup ∧
      (keysOf (normalized target source).columnRenames).Nodup := by
  have hn := normalized_spec source hr
  refine ⟨hn.nested_nodup ?_, hn.columns_nodup ?_⟩
  · exact (compared_repositories target _).nodup_nested (defined_withoutRenames target)
  · rw [(aligned_alignSource source hr).columns]
    refine target.nodup.sublist (sublist_map_filterMap (fun f r h => ?_) _)
    obtain ⟨s, -, hs⟩ := Option.bind_eq_some_iff.mp h
    simp only [Option.ite_none_left_eq_some, Option.some.injEq] at hs
    exact hs.2 ▸ rfl

/-- The changes before the column renames are added. -/
theorem changes_eq (source : TableRepository) (hr : RenamesChecked target) :
    let c := (getTableRepositoryChanges target source).changes
    c.rename = allTableRenames target source ∧
      c.create = (getRepositoryChanges target (alignSource target source).source).create ∧
      c.remove = (getRepositoryChanges target (alignSource target source).source).remove ∧
      (keysOf c.nested).Nodup ∧
      ∀ t, find c.nested t = match find (normalized target source).columnRenames t with
        | some renames => some (addRenames (find (normalized target source).nested t)
            ["schema", "properties"] renames)
        | none => find (normalized target source).nested t := by
  obtain ⟨hn₁, hn₂⟩ := nodup_normalized source hr
  obtain ⟨h₁, h₂, h₃, h₄⟩ := addRenames_here
    { getRepositoryChanges target (alignSource target source).source with
      nested := (normalized target source).nested } (alignSource target source).tableRenames
  have hall : (getTableRepositoryChanges target source).changes =
      (normalized target source).columnRenames.foldl (fun allChanges (table, renames) =>
        addRenames (some allChanges) [table, "schema", "properties"] renames)
        (addRenames (some { getRepositoryChanges target (alignSource target source).source with
          nested := (normalized target source).nested }) []
          (alignSource target source).tableRenames) := rfl
  generalize addRenames _ [] _ = d at h₁ h₂ h₃ h₄ hall
  have hne : ∀ f ∈ (normalized target source).columnRenames, f.2 ≠ [] := fun f hf => by
    obtain ⟨-, -, -, -, -, hne⟩ := pendingRenames_ne hr hf hn₂
    exact hne
  obtain ⟨i₁, i₂, i₃, i₄, i₅⟩ := foldl_addRenames hn₂ hne d hall
  refine ⟨i₁.trans (h₁.trans ?_), i₂.trans h₂, i₃.trans h₃, i₄ (h₄ ▸ hn₁), fun t => ?_⟩
  · rw [(aligned_alignSource source hr).tables, allTableRenames]
    have hone := (renaming_allTableRenames source hr).from_nodup
    rw [allTableRenames, List.map_append, List.nodup_append] at hone
    exact spread_eq_append hone.2.1 fun k hk hk' => hone.2.2 k hk' k hk rfl
  · rw [i₅ t, h₄]

theorem mem_guessed_or_declared {k : String} :
    k ∈ (allTableRenames target source).map Prod.fst ↔
      k ∈ (target.values.filterMap (declaredRename source)).map Prod.fst ∨
        k ∈ (guessedTables target source).map Prod.fst := by
  rw [allTableRenames, List.map_append, List.mem_append, or_comm]

/-- A table is created when it was none of the source. -/
theorem mem_created_tables (hr : RenamesChecked target) (t : String) :
    t ∈ keysOf (getRepositoryChanges target (alignSource target source).source).create ↔
      ∃ m, target.find t = some m ∧ tableBefore target source t m = none := by
  rw [(compared_repositories target _).mem_create, mem_withoutRenames, not_mem_withoutRenames]
  constructor
  · rintro ⟨⟨m, hm⟩, hs, hg⟩
    refine ⟨m, hm, ?_⟩
    rw [(aligned_alignSource source hr).found t m hm, Option.map_eq_none_iff] at hs
    rw [tableBefore_of_not_guessed hg, hs, Option.map_none]
  · rintro ⟨m, hm, hb⟩
    have hg : t ∉ (guessedTables target source).map Prod.snd := fun hg => by
      obtain ⟨⟨f, g⟩, hfg, rfl⟩ := List.mem_map.mp hg
      obtain ⟨-, -, s, hs⟩ := guessedTables_from hr hfg
      rw [tableBefore_of_guessed hr hfg hm, hs] at hb
      simp at hb
    rw [tableBefore_of_not_guessed hg, Option.map_eq_none_iff] at hb
    exact ⟨⟨m, hm⟩, by rw [(aligned_alignSource source hr).found t m hm, hb, Option.map_none], hg⟩

/-- A table is removed when no table of the target was it. -/
theorem mem_removed_tables (hr : RenamesChecked target) (k : String) :
    k ∈ keysOf (getRepositoryChanges target (alignSource target source).source).remove ↔
      target.find k = none ∧ k ∉ (allTableRenames target source).map Prod.fst ∧
        ∃ s, source.find k = some s := by
  rw [(compared_repositories target _).mem_remove, mem_withoutRenames, not_mem_withoutRenames,
    mem_guessed_or_declared, not_or]
  constructor
  · rintro ⟨⟨s, hs⟩, hk, hg⟩
    rw [(aligned_alignSource source hr).other k (Record.find_eq_none.mp hk),
      Option.ite_none_left_eq_some] at hs
    exact ⟨hk, ⟨hs.1, hg⟩, s, hs.2⟩
  · rintro ⟨hk, ⟨hd, hg⟩, s, hs⟩
    refine ⟨⟨s, ?_⟩, hk, hg⟩
    rw [(aligned_alignSource source hr).other k (Record.find_eq_none.mp hk), if_neg hd, hs]

theorem SameKeys.trans {c d e : ObjectComparison} (h₁ : SameKeys c d) (h₂ : SameKeys d e) :
    SameKeys c e :=
  ⟨h₁.create.trans h₂.create, h₁.rename.trans h₂.rename, h₁.nested.trans h₂.nested,
    h₁.remove.trans h₂.remove⟩

/-- The changes of the columns of a table hold its guessed and its declared renames. -/
theorem sameKeys_columnDiff {m p : TableMetadata} (h : ColumnRenamesChecked m) :
    SameKeys (columnsOf (match pendingRenames m p with
      | some renames => some (addRenames (tableEntry m p) ["schema", "properties"] renames)
      | none => tableEntry m p)) (columnDiff m p) := by
  have he := columnsOf_tableEntry m p
  by_cases hd : getColumnRenames m p = []
  · rw [pendingRenames, if_pos hd]
    exact he.trans ⟨rfl, by rw [columnDiff, allRenames, hd, List.append_nil], rfl, rfl⟩
  · rw [pendingRenames, if_neg hd]
    refine (columnsOf_addRenames (tableEntry m p) hd).trans ⟨he.create, ?_, he.nested, he.remove⟩
    have hone := (renaming_allRenames h p).from_nodup
    rw [allRenames, List.map_append, List.nodup_append] at hone
    rw [he.rename]
    exact spread_eq_append hone.2.1 fun k hk hk' => hone.2.2 k hk' k hk rfl

/-- **What the changes of a repository say of each table.** -/
theorem tableChanges (source : TableRepository) (hr : RenamesChecked target) :
    TableChanges target source (getTableRepositoryChanges target source) := by
  obtain ⟨hrename, hcreate, hremove, hnodup, hfind⟩ := changes_eq source hr
  have hsource : (getTableRepositoryChanges target source).source =
      (normalized target source).source := rfl
  refine ⟨fun t => ?_, fun k => ?_, ?_, fun p t => ?_, hnodup, fun t ht => ?_,
    fun t m b ht hb => ?_, fun t m ht => ?_, fun k hk => ?_⟩
  · rw [hcreate, mem_created_tables hr]
  · rw [hremove, hrename, mem_removed_tables hr]
  · rw [hrename]
    exact renaming_allTableRenames source hr
  · rw [hrename, mem_allTableRenames hr]
  · obtain ⟨c, hc⟩ := mem_keysOf_iff.mp ht
    rw [hfind] at hc
    cases hm : target.find t with
    | none =>
      obtain ⟨h₁, h₂⟩ := not_mem_normalized source hr hm
      simp [h₁, h₂] at hc
    | some m =>
      rw [find_normalized_nested hr hm, find_normalized_columns hr hm] at hc
      cases hb : tableBefore target source t m with
      | none => simp [hb] at hc
      | some b => exact ⟨m, b, rfl, hb⟩
  · rw [hfind, find_normalized_nested hr ht, find_normalized_columns hr ht, hb]
    exact sameKeys_columnDiff (hr.columns t m ht)
  · rw [hsource, find_normalized_source hr ht]
  · rw [hsource, hrename, find_normalized_other hr hk]
    simp only [mem_guessed_or_declared]

end Spec

end Ez4.Migration

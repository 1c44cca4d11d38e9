import Ez4.State.Plan

/-! # The plan is a layered order

What a returned plan holds (`IsPlan`): every entry in one step, orders without
a gap, dependencies before dependents on creation and after them on deletion.
Both loops of `planSteps` are rounds of `Layering.layers`, over the
dependencies of the new entries and over the dependents of the removed ones. -/
namespace Ez4.State.PlanSoundness
open Ez4.Library Ez4.State.Entry Ez4.State.Plan

variable {V : Type}

/-! ## Sets as lists of distinct ids -/

theorem mem_addId {set : List String} {id x : String} : x ∈ addId set id ↔ x ∈ set ∨ x = id := by
  unfold addId
  split
  · rename_i h
    constructor
    · exact .inl
    · rintro (h' | rfl)
      · exact h'
      · simpa using h
  · simp

theorem mem_foldl_addId {ids set : List String} {x : String} :
    x ∈ ids.foldl addId set ↔ x ∈ set ∨ x ∈ ids := by
  induction ids generalizing set with
  | nil => simp
  | cons id rest ih =>
    rw [List.foldl_cons, ih, mem_addId, List.mem_cons]
    tauto

/-- Distinct new ids are added at the end. -/
theorem foldl_addId_fresh {ids set : List String} (hn : ids.Nodup) (hf : ∀ x ∈ ids, x ∉ set) :
    ids.foldl addId set = set ++ ids := by
  induction ids generalizing set with
  | nil => simp
  | cons id rest ih =>
    obtain ⟨hid, hrest⟩ := List.nodup_cons.mp hn
    have hadd : addId set id = set ++ [id] := by
      unfold addId
      rw [if_neg]
      simpa using hf id List.mem_cons_self
    rw [List.foldl_cons, hadd, ih hrest, List.append_assoc, List.singleton_append]
    intro x hx
    rw [List.mem_append, not_or]
    refine ⟨hf x (List.mem_cons_of_mem _ hx), ?_⟩
    simp only [List.mem_singleton]
    rintro rfl
    exact hid hx

/-! ## One round of creations -/

/-- What a step planned for a new entry is: no deletion, of the given order,
and a creation exactly when the old entries lack the id. -/
structure PlansChange (oldEntries : Option (EntryStates V)) (order : Nat) (entryId : String)
    (step : StepState) : Prop where
  id : step.entryId = entryId
  order : step.order = order
  notDelete : step.action ≠ .delete
  create : step.action = .create ↔ oldEntries.bind (·.get? entryId) = none

theorem planPendingChange_ok {newEntries : EntryStates V} {oldEntries : Option (EntryStates V)}
    {handlers : StepHandlers V} {order : Nat} {force : Bool} {changes changes' : Changes}
    {candidate : EntryState V}
    (h : planPendingChange newEntries oldEntries handlers order force changes candidate =
      .ok changes') :
    (handlers candidate.type).isSome ∧
      changes'.visitSet = addId changes.visitSet candidate.entryId ∧
      ∃ step, changes'.steps = changes.steps ++ [step] ∧
        PlansChange oldEntries order candidate.entryId step := by
  unfold planPendingChange at h
  cases hh : handlers candidate.type with
  | none => rw [hh] at h; cases h
  | some handler =>
    simp only [hh] at h
    refine ⟨rfl, ?_⟩
    cases hc : oldEntries.bind (·.get? candidate.entryId) with
    | none =>
      simp only [hc, Except.ok.injEq] at h
      subst h
      exact ⟨rfl, _, rfl, rfl, rfl, by simp, by simp [hc]⟩
    | some current =>
      simp only [hc] at h
      split at h
      · simp only [Except.ok.injEq] at h
        subst h
        exact ⟨rfl, _, rfl, rfl, rfl, by simp, by simp [hc]⟩
      · obtain ⟨preview, _, h⟩ := Except.bind_ok.mp h
        obtain ⟨same, _, h⟩ := Except.bind_ok.mp h
        split at h
        · simp only [Except.ok.injEq] at h
          subst h
          exact ⟨rfl, _, rfl, rfl, rfl, by simp, by simp [hc]⟩
        · simp only [Except.ok.injEq] at h
          subst h
          exact ⟨rfl, _, rfl, rfl, rfl, by simp, by simp [hc]⟩

/-- The steps of a list of (id, order) pairs. -/
def Plans (oldEntries : Option (EntryStates V)) (stamps : List (String × Nat))
    (steps : List StepState) : Prop :=
  List.Forall₂ (fun stamp step => PlansChange oldEntries stamp.2 stamp.1 step) stamps steps

theorem planPendingChanges_ok {newEntries : EntryStates V} {oldEntries : Option (EntryStates V)}
    {handlers : StepHandlers V} {order : Nat} {force : Bool} {changes changes' : Changes}
    {entryList : List (EntryState V)}
    (h : planPendingChanges entryList newEntries oldEntries handlers order force changes =
      .ok changes') :
    (∀ entry ∈ entryList, (handlers entry.type).isSome) ∧
      changes'.visitSet = (entryList.map EntryState.entryId).foldl addId changes.visitSet ∧
      ∃ steps, changes'.steps = changes.steps ++ steps ∧
        Plans oldEntries (entryList.map fun entry => (entry.entryId, order)) steps := by
  have hall := Except.foldlM_invariant
    (I := fun seen c => (∀ entry ∈ seen, (handlers entry.type).isSome) ∧
      c.visitSet = (seen.map EntryState.entryId).foldl addId changes.visitSet ∧
      ∃ steps, c.steps = changes.steps ++ steps ∧
        Plans oldEntries (seen.map fun entry => (entry.entryId, order)) steps)
    (p := []) (fun seen entry c c' _ hI hstep => by
      obtain ⟨hhandlers, hvisit, steps, hsteps, hplans⟩ := hI
      obtain ⟨hhandler, hvisit', step, hstep', hplan⟩ := planPendingChange_ok hstep
      refine ⟨?_, ?_, steps ++ [step], ?_, ?_⟩
      · intro other ho
        rcases List.mem_append.mp ho with ho | ho
        · exact hhandlers other ho
        · exact List.mem_singleton.mp ho ▸ hhandler
      · rw [hvisit', hvisit, List.map_append, List.foldl_append]; rfl
      · rw [hstep', hsteps, List.append_assoc]
      · rw [List.map_append]
        exact List.rel_append hplans (.cons hplan .nil))
    ⟨by simp, rfl, [], by simp, .nil⟩ h
  simpa using hall

/-! ## The loops are the rounds of the layering -/

theorem planChanges_ok {newEntryList : List (EntryState V)} {newEntries : EntryStates V}
    {oldEntries : Option (EntryStates V)} {options : PlanOptions V}
    (hn : (newEntryList.map EntryState.entryId).Nodup) {fuel actionOrder actionOrder' : Nat}
    {changes changes' : Changes}
    (h : planChanges newEntryList newEntries oldEntries options fuel actionOrder changes =
      .ok (changes', actionOrder')) :
    let layers := Layering.layers EntryState.entryId EntryState.dependencies newEntryList fuel
      changes.visitSet
    (∀ entry ∈ layers.flatten, (options.handlers entry.type).isSome) ∧
      actionOrder' = actionOrder + layers.length ∧
      changes'.visitSet = changes.visitSet ++ layers.flatten.map EntryState.entryId ∧
      ∃ steps, changes'.steps = changes.steps ++ steps ∧
        Plans oldEntries (Layering.stamped EntryState.entryId layers actionOrder) steps := by
  induction fuel generalizing actionOrder changes with
  | zero =>
    simp only [planChanges, Except.ok.injEq, Prod.mk.injEq] at h
    obtain ⟨rfl, rfl⟩ := h
    exact ⟨by simp [Layering.layers], by simp [Layering.layers], by simp [Layering.layers], [],
      by simp, .nil⟩
  | succ fuel ih =>
    rw [planChanges] at h
    dsimp only at h ⊢
    rw [Layering.layers_succ]
    by_cases he : (findPendingChanges newEntryList changes.visitSet).isEmpty
    · rw [if_pos he] at h
      simp only [Except.ok.injEq, Prod.mk.injEq] at h
      obtain ⟨rfl, rfl⟩ := h
      have he' : (Layering.ready EntryState.entryId EntryState.dependencies newEntryList
        changes.visitSet).isEmpty := he
      rw [if_pos he']
      exact ⟨by simp, by simp, by simp, [], by simp, .nil⟩
    · rw [if_neg he] at h
      obtain ⟨round, hround, h⟩ := Except.bind_ok.mp h
      obtain ⟨hhandlers, hvisit, steps, hsteps, hplans⟩ := planPendingChanges_ok hround
      have hfresh : round.visitSet = changes.visitSet ++
          (findPendingChanges newEntryList changes.visitSet).map EntryState.entryId := by
        rw [hvisit, foldl_addId_fresh]
        · exact hn.sublist (List.filter_sublist.map _)
        · intro x hx
          obtain ⟨entry, hentry, rfl⟩ := List.mem_map.mp hx
          exact (Layering.mem_ready.mp hentry).2.1
      obtain ⟨hrest, horder, hvisit', steps', hsteps', hplans'⟩ := ih h
      have he' : ¬ (Layering.ready EntryState.entryId EntryState.dependencies newEntryList
        changes.visitSet).isEmpty := he
      rw [if_neg he']
      rw [hfresh] at hrest horder hvisit' hplans'
      refine ⟨?_, ?_, ?_, steps ++ steps', ?_, ?_⟩
      · intro entry hentry
        rw [List.flatten_cons, List.mem_append] at hentry
        rcases hentry with hentry | hentry
        · exact hhandlers entry hentry
        · exact hrest entry hentry
      · rw [horder, List.length_cons]
        simp only [findPendingChanges]
        omega
      · rw [hvisit', List.flatten_cons, List.map_append, List.append_assoc]
        rfl
      · rw [hsteps', hsteps, List.append_assoc]
      · exact List.rel_append hplans hplans'

theorem planRemovals_eq {oldEntryList : List (HydratedEntryState V)}
    (hn : (oldEntryList.map (·.entryId)).Nodup) {fuel actionOrder : Nat} {visitSet : List String} :
    let layers := Layering.layers (·.entryId) HydratedEntryState.dependents oldEntryList fuel
      visitSet
    planRemovals oldEntryList fuel actionOrder visitSet =
      ((Layering.stamped (·.entryId) layers actionOrder).map fun stamp =>
          { action := .delete, entryId := stamp.1, order := stamp.2 },
        visitSet ++ layers.flatten.map (·.entryId)) := by
  induction fuel generalizing actionOrder visitSet with
  | zero => simp [planRemovals, Layering.layers, Layering.stamped]
  | succ fuel ih =>
    rw [planRemovals]
    dsimp only
    rw [Layering.layers_succ]
    by_cases he : (findPendingRemoval oldEntryList visitSet).isEmpty
    · have he' : (Layering.ready (·.entryId) HydratedEntryState.dependents oldEntryList
        visitSet).isEmpty := he
      rw [if_pos he, if_pos he']
      simp [Layering.stamped]
    · have he' : ¬ (Layering.ready (·.entryId) HydratedEntryState.dependents oldEntryList
        visitSet).isEmpty := he
      have hfresh : ((findPendingRemoval oldEntryList visitSet).map (·.entryId)).foldl addId
          visitSet = visitSet ++ (findPendingRemoval oldEntryList visitSet).map (·.entryId) := by
        rw [foldl_addId_fresh]
        · exact hn.sublist (List.filter_sublist.map _)
        · intro x hx
          obtain ⟨entry, hentry, rfl⟩ := List.mem_map.mp hx
          exact (Layering.mem_ready.mp hentry).2.1
      rw [if_neg he, if_neg he', hfresh, ih]
      simp [Layering.stamped, planPendingRemoval, findPendingRemoval, List.append_assoc]

/-! ## The two halves of the plan -/

/-- The layers of the new entries. -/
abbrev creationLayers (newEntries : EntryStates V) : List (List (EntryState V)) :=
  Layering.layers EntryState.entryId EntryState.dependencies newEntries.values
    newEntries.values.length []

theorem planCreationSteps_ok {newEntries : EntryStates V} {oldEntries : Option (EntryStates V)}
    {options : PlanOptions V} {changes : Changes} {actionOrder : Nat}
    (h : planCreationSteps newEntries oldEntries options = .ok (changes, actionOrder)) :
    (Closed newEntries ∧ Acyclic newEntries) ∧
      (∀ entry ∈ newEntries.values, (options.handlers entry.type).isSome) ∧
      actionOrder = (creationLayers newEntries).length ∧
      (∀ id, id ∈ changes.visitSet ↔ newEntries.has id = true) ∧
      Plans oldEntries (Layering.stamped EntryState.entryId (creationLayers newEntries) 0)
        changes.steps := by
  obtain ⟨⟨c, n⟩, hloop, h⟩ := Except.bind_ok.mp h
  dsimp only at h
  split at h
  · cases h
  · rename_i hlen
    simp only [Except.ok.injEq, Prod.mk.injEq] at h
    obtain ⟨rfl, rfl⟩ := h
    obtain ⟨hhandlers, horder, hvisit, steps, hsteps, hplans⟩ :=
      planChanges_ok newEntries.nodup hloop
    simp only [List.nil_append] at hvisit hsteps
    have hcomplete : (creationLayers newEntries).flatten.length = newEntries.values.length := by
      rw [hvisit, List.length_map] at hlen
      exact (not_ne_iff.mp hlen).symm
    have hgraph := (Layering.layers_complete_iff le_rfl newEntries.nodup).mp hcomplete
    have hall := (Layering.all_grounded_iff newEntries.nodup).mpr hgraph
    refine ⟨hgraph, fun entry he => ?_, by simpa using horder, fun id => ?_, hsteps ▸ hplans⟩
    · have hmem := (Layering.mem_layers_iff le_rfl).mpr (hall entry he)
      obtain ⟨other, ho, hkey⟩ := List.mem_map.mp hmem
      obtain ⟨layer, hl, hol⟩ := List.mem_flatten.mp ho
      obtain ⟨i, hi⟩ := List.getElem?_of_mem hl
      have := (Layering.layers_get hi hol).1
      rw [← List.inj_on_of_nodup_map newEntries.nodup this he hkey]
      exact hhandlers other ho
    · rw [hvisit, Layering.mem_layers_iff le_rfl, ← KeyedMap.mem_keys_iff]
      refine ⟨fun hg => hg.mem, fun hk => ?_⟩
      obtain ⟨entry, he, rfl⟩ := List.mem_map.mp hk
      exact hall entry he

theorem get?_combineEntry (targetMap sourceMap tmpEntries : EntryStates V) (x id : String) :
    (combineEntry targetMap sourceMap tmpEntries x).get? id =
      if x = id then ((targetMap.get? id).or (sourceMap.get? id)).or (tmpEntries.get? id)
      else tmpEntries.get? id := by
  unfold combineEntry
  cases ht : targetMap.get? x with
  | some e =>
    have hkey := KeyedMap.key_of_get? ht
    by_cases hx : x = id
    · subst hx; simp [hkey, ht]
    · simp [hkey, hx]
  | none =>
    cases hs : sourceMap.get? x with
    | some e =>
      have hkey := KeyedMap.key_of_get? hs
      by_cases hx : x = id
      · subst hx; simp [hkey, ht, hs]
      · simp [hkey, hx]
    | none =>
      by_cases hx : x = id
      · subst hx; simp [ht, hs]
      · simp [hx]

theorem get?_foldl_combineEntry (targetMap sourceMap tmpEntries : EntryStates V)
    (ids : List String) (id : String) :
    (ids.foldl (combineEntry targetMap sourceMap) tmpEntries).get? id =
      if id ∈ ids then ((targetMap.get? id).or (sourceMap.get? id)).or (tmpEntries.get? id)
      else tmpEntries.get? id := by
  induction ids generalizing tmpEntries with
  | nil => simp
  | cons x rest ih =>
    rw [List.foldl_cons, ih, get?_combineEntry]
    by_cases hx : x = id
    · subst hx
      cases targetMap.get? x <;> cases sourceMap.get? x <;> simp
    · simp [hx, Ne.symm hx]

@[simp] theorem get?_combineEntryMaps (targetMap sourceMap : EntryStates V) (id : String) :
    (combineEntryMaps targetMap sourceMap).get? id =
      (targetMap.get? id).or (sourceMap.get? id) := by
  unfold combineEntryMaps
  rw [get?_foldl_combineEntry]
  simp only [mem_foldl_addId, List.not_mem_nil, false_or, List.mem_append, KeyedMap.mem_keys_iff,
    KeyedMap.has, KeyedMap.get?_empty, Option.or_none]
  cases targetMap.get? id <;> cases sourceMap.get? id <;> simp

@[simp] theorem get?_combinedEntryMap (newEntries : Option (EntryStates V))
    (oldEntries : EntryStates V) (id : String) :
    (combinedEntryMap newEntries oldEntries).get? id =
      ((newEntries.getD ∅).get? id).or (oldEntries.get? id) := by
  cases newEntries <;> simp [combinedEntryMap]

/-- The entries the deletion loop goes through. -/
abbrev removalList (hydrated : HydratedEntryStates V) (newEntrySet : List String) :
    List (HydratedEntryState V) :=
  hydrated.values.filter fun entry => !newEntrySet.contains entry.entryId

section
variable {combined : EntryStates V} {hydrated : HydratedEntryStates V}
  (hh : Hydrated combined (edgesOf combined.values) hydrated)
  (hhas : ∀ id, hydrated.has id = combined.has id) (newEntrySet : List String)

include hhas in
theorem mem_removalList {id : String} :
    id ∈ (removalList hydrated newEntrySet).map (·.entryId) ↔
      combined.has id = true ∧ id ∉ newEntrySet := by
  simp only [removalList, List.mem_map, List.mem_filter]
  constructor
  · rintro ⟨entry, ⟨hm, hnot⟩, rfl⟩
    exact ⟨hhas _ ▸ KeyedMap.has_of_mem hm, by simpa using hnot⟩
  · rintro ⟨hid, hnot⟩
    rw [← hhas] at hid
    obtain ⟨entry, he⟩ := KeyedMap.has_iff.mp hid
    have hkey := KeyedMap.key_of_get? he
    exact ⟨entry, ⟨KeyedMap.mem_of_get? he, by rw [hkey]; simpa using hnot⟩, hkey⟩

include hh hhas in
/-- The deletion loop waits for the entries that list the removed one. -/
theorem removal_needs {x y : String} :
    Layering.Needs (·.entryId) HydratedEntryState.dependents (removalList hydrated newEntrySet) x y ↔
      (combined.has x = true ∧ x ∉ newEntrySet) ∧ DependsOn combined y x := by
  rw [← mem_removalList hhas newEntrySet]
  constructor
  · rintro ⟨entry, hm, rfl, hy⟩
    have hget := KeyedMap.get?_of_mem (List.mem_filter.mp hm).1
    exact ⟨List.mem_map_of_mem hm, mem_edgesOf.mp ((hh.dependents _ _ hget y).mp hy)⟩
  · rintro ⟨hx, hy⟩
    obtain ⟨entry, hm, rfl⟩ := List.mem_map.mp hx
    have hget := KeyedMap.get?_of_mem (List.mem_filter.mp hm).1
    exact ⟨entry, hm, rfl, (hh.dependents _ _ hget y).mpr (mem_edgesOf.mpr hy)⟩

end

/-- What the numbered deletions hold: each removed entry once, after all the
entries that list it, under orders without a gap. -/
structure Removals (combined : EntryStates V) (newEntrySet : List String) (actionOrder : Nat)
    (stamps : List (String × Nat)) : Prop where
  nodup : (stamps.map Prod.fst).Nodup
  mem : ∀ id, id ∈ stamps.map Prod.fst ↔ combined.has id = true ∧ id ∉ newEntrySet
  after : ∀ x y n, (x, n) ∈ stamps → DependsOn combined y x → ∃ m < n, (y, m) ∈ stamps
  start : ∀ id n, (id, n) ∈ stamps → actionOrder ≤ n
  contiguous : ∀ id n m, (id, n) ∈ stamps → actionOrder ≤ m → m ≤ n → ∃ j, (j, m) ∈ stamps

def deleteStep (stamp : String × Nat) : StepState :=
  { action := .delete, entryId := stamp.1, order := stamp.2 }

theorem planDeletionSteps_ok {newEntries : Option (EntryStates V)} {oldEntries : EntryStates V}
    {newEntrySet : List String} {actionOrder : Nat} {steps : List StepState}
    (h : planDeletionSteps newEntries oldEntries newEntrySet actionOrder = .ok steps) :
    Closed (combinedEntryMap newEntries oldEntries) ∧ ∃ stamps, steps = stamps.map deleteStep ∧
      Removals (combinedEntryMap newEntries oldEntries) newEntrySet actionOrder stamps := by
  obtain ⟨hydrated, hhydrate, h⟩ := Except.bind_ok.mp h
  rw [Except.mapError_ok] at hhydrate
  have hclosed := closed_of_hydrateState hhydrate
  obtain ⟨hydrated', hhydrate', hh, hhas⟩ := hydrateState_ok hclosed
  rw [hhydrate] at hhydrate'
  cases hhydrate'
  refine ⟨hclosed, ?_⟩
  have hn : ((removalList hydrated newEntrySet).map (·.entryId)).Nodup :=
    hydrated.nodup.sublist (List.filter_sublist.map _)
  dsimp only at h
  rw [planRemovals_eq hn] at h
  dsimp only at h
  split at h
  · cases h
  · rename_i hlen
    simp only [Except.ok.injEq] at h
    rw [List.nil_append, List.length_map, not_ne_iff] at hlen
    have hgraph := (Layering.layers_complete_iff le_rfl hn).mp hlen.symm
    have hall := (Layering.all_grounded_iff hn).mpr hgraph
    refine ⟨_, h.symm, ?_, fun id => ?_, fun x y n hx hy => ?_, fun id n hid => ?_,
      fun id n m hid hm hmn => ?_⟩
    · rw [Layering.stamped_keys]; exact Layering.layers_nodup hn
    · rw [Layering.stamped_keys, Layering.mem_layers_iff le_rfl,
        ← mem_removalList hhas newEntrySet]
      refine ⟨fun hg => hg.mem, fun hk => ?_⟩
      obtain ⟨entry, he, rfl⟩ := List.mem_map.mp hk
      exact hall entry he
    · obtain ⟨_, layer, hl, _, entry, hentry, rfl⟩ := Layering.mem_stamped.mp hx
      have hitem := (Layering.layers_get hl hentry).1
      refine Layering.stamped_needs hn hitem hx y ?_
      have hget := KeyedMap.get?_of_mem (List.mem_filter.mp hitem).1
      exact (hh.dependents _ _ hget y).mpr (mem_edgesOf.mpr hy)
    · exact (Layering.stamped_lt hid).1
    · exact Layering.stamped_contiguous Layering.layers_ne_nil hid hm hmn

/-- The dependency graph among the removed entries is acyclic when the
deletion loop went through all of them. -/
theorem Removals.acyclic {combined : EntryStates V} {newEntrySet : List String}
    {actionOrder : Nat} {stamps : List (String × Nat)}
    (h : Removals combined newEntrySet actionOrder stamps) {x : String}
    (hx : x ∈ stamps.map Prod.fst) : ¬ Relation.TransGen (DependsOn combined) x x := by
  -- the order falls along every path that ends in a removed entry
  have hfall : ∀ a b, Relation.TransGen (DependsOn combined) a b → ∀ n, (b, n) ∈ stamps →
      ∃ m < n, (a, m) ∈ stamps := by
    intro a b hab
    induction hab with
    | single hd => exact fun n hn => h.after _ _ n hn hd
    | tail _ hd ih =>
      intro n hn
      obtain ⟨m, hm, hmid⟩ := h.after _ _ n hn hd
      obtain ⟨k, hk, ha⟩ := ih m hmid
      exact ⟨k, by omega, ha⟩
  intro hcycle
  obtain ⟨⟨_, n⟩, hn, rfl⟩ := List.mem_map.mp hx
  obtain ⟨m, hm, hmem⟩ := hfall _ _ hcycle n hn
  have := congrArg Prod.snd (List.inj_on_of_nodup_map h.nodup hn hmem rfl)
  dsimp only at this
  omega

/-! ## The whole plan -/

/-- What a plan holds. -/
structure IsPlan (newEntries oldEntries : EntryStates V) (steps : List StepState) : Prop where
  /-- No entry has two steps. -/
  nodup : (steps.map StepState.entryId).Nodup
  saves : ∀ id, (∃ step ∈ steps, step.entryId = id ∧ step.action ≠ .delete) ↔
    newEntries.has id = true
  removes : ∀ id, (∃ step ∈ steps, step.entryId = id ∧ step.action = .delete) ↔
    oldEntries.has id = true ∧ newEntries.has id = false
  creates : ∀ step ∈ steps, step.action = .create ↔ oldEntries.has step.entryId = false
  /-- The orders are `0..k` without a gap. -/
  contiguous : ∀ step ∈ steps, ∀ n ≤ step.order, ∃ other ∈ steps, other.order = n
  dependencies : ∀ step ∈ steps, step.action ≠ .delete → ∀ d, DependsOn newEntries step.entryId d →
    ∃ other ∈ steps, other.entryId = d ∧ other.action ≠ .delete ∧ other.order < step.order
  dependents : ∀ step ∈ steps, step.action = .delete → ∀ other ∈ steps, other.action = .delete →
    DependsOn oldEntries other.entryId step.entryId → other.order < step.order
  deletesLast : ∀ step ∈ steps, step.action = .delete → ∀ other ∈ steps, other.action ≠ .delete →
    other.order < step.order

/-- The entries the plan has to delete. -/
def removedEntries (newEntries oldEntries : EntryStates V) : EntryStates V :=
  oldEntries.filterKeys fun id => !newEntries.has id

/-- What planning checks: every dependency of a new or a removed entry
resolves to an entry, and neither graph has a cycle. -/
structure Plannable (newEntries oldEntries : EntryStates V) : Prop where
  newClosed : Closed newEntries
  newAcyclic : Acyclic newEntries
  removedResolve : ∀ id d, DependsOn (removedEntries newEntries oldEntries) id d →
    newEntries.has d = true ∨ oldEntries.has d = true
  removedAcyclic : Acyclic (removedEntries newEntries oldEntries)

section
variable {oldEntries : Option (EntryStates V)} {stamps : List (String × Nat)}
  {steps : List StepState}

theorem Plans.stamp_of_mem (h : Plans oldEntries stamps steps) {step : StepState}
    (hs : step ∈ steps) : (step.entryId, step.order) ∈ stamps ∧
      PlansChange oldEntries step.order step.entryId step := by
  induction h with
  | nil => cases hs
  | cons hp _ ih =>
    rcases List.mem_cons.mp hs with rfl | hs
    · refine ⟨?_, hp.id ▸ hp.order ▸ hp⟩
      rw [hp.id, hp.order]
      exact List.mem_cons_self
    · exact ⟨List.mem_cons_of_mem _ (ih hs).1, (ih hs).2⟩

theorem Plans.mem_of_stamp (h : Plans oldEntries stamps steps) {id : String} {n : Nat}
    (hs : (id, n) ∈ stamps) : ∃ step ∈ steps, step.entryId = id ∧ step.order = n := by
  induction h with
  | nil => cases hs
  | cons hp _ ih =>
    rcases List.mem_cons.mp hs with rfl | hs
    · exact ⟨_, List.mem_cons_self, hp.id, hp.order⟩
    · obtain ⟨step, hm, hstep⟩ := ih hs
      exact ⟨step, List.mem_cons_of_mem _ hm, hstep⟩

theorem Plans.map_entryId (h : Plans oldEntries stamps steps) :
    steps.map StepState.entryId = stamps.map Prod.fst := by
  induction h with
  | nil => rfl
  | cons hp _ ih => rw [List.map_cons, List.map_cons, ih, hp.id]

end

/-- What the numbered creations hold: each new entry once, after all its
dependencies, and every order below the next one in use. -/
structure Creations (newEntries : EntryStates V) (actionOrder : Nat)
    (stamps : List (String × Nat)) : Prop where
  nodup : (stamps.map Prod.fst).Nodup
  mem : ∀ id, id ∈ stamps.map Prod.fst ↔ newEntries.has id = true
  after : ∀ x y n, (x, n) ∈ stamps → DependsOn newEntries x y → ∃ m < n, (y, m) ∈ stamps
  stop : ∀ id n, (id, n) ∈ stamps → n < actionOrder
  contiguous : ∀ n < actionOrder, ∃ id, (id, n) ∈ stamps

theorem creations_stamped {newEntries : EntryStates V}
    (hg : Closed newEntries ∧ Acyclic newEntries) :
    Creations newEntries (creationLayers newEntries).length
      (Layering.stamped EntryState.entryId (creationLayers newEntries) 0) := by
  have hall := (Layering.all_grounded_iff newEntries.nodup).mpr hg
  refine ⟨?_, fun id => ?_, fun x y n hx hy => ?_, fun id n hid => ?_, fun n hn => ?_⟩
  · rw [Layering.stamped_keys]; exact Layering.layers_nodup newEntries.nodup
  · rw [Layering.stamped_keys, Layering.mem_layers_iff le_rfl, ← KeyedMap.mem_keys_iff]
    refine ⟨fun hg => hg.mem, fun hk => ?_⟩
    obtain ⟨entry, he, rfl⟩ := List.mem_map.mp hk
    exact hall entry he
  · obtain ⟨entry, he, rfl, hy⟩ := hy
    exact Layering.stamped_needs newEntries.nodup he hx y hy
  · have := (Layering.stamped_lt hid).2
    omega
  · exact Layering.stamped_last Layering.layers_ne_nil (Nat.zero_le n)
      (hn.trans_eq (Nat.zero_add _).symm)

theorem mem_keys_of_stamp {stamps : List (String × Nat)} {id : String} {n : Nat}
    (h : (id, n) ∈ stamps) : id ∈ stamps.map Prod.fst := List.mem_map.mpr ⟨_, h, rfl⟩

/-- Two numbers of one key are equal when the keys are distinct. -/
theorem stamp_inj {stamps : List (String × Nat)} (hn : (stamps.map Prod.fst).Nodup) {id : String}
    {n m : Nat} (h : (id, n) ∈ stamps) (h' : (id, m) ∈ stamps) : n = m :=
  congrArg Prod.snd (List.inj_on_of_nodup_map hn h h' rfl)

section
variable {newEntries oldEntries combined : EntryStates V} {given : Option (EntryStates V)}
  {newEntrySet : List String} {actionOrder : Nat} {creations removals : List (String × Nat)}
  {steps : List StepState}

/-- A step of the plan is a change of a new entry or a deletion. -/
theorem mem_halves (hplans : Plans given creations steps) {step : StepState}
    (h : step ∈ steps ++ removals.map deleteStep) :
    (step.action ≠ .delete ∧ (step.entryId, step.order) ∈ creations ∧
        PlansChange given step.order step.entryId step) ∨
      (step.action = .delete ∧ (step.entryId, step.order) ∈ removals) := by
  rcases List.mem_append.mp h with h | h
  · obtain ⟨hmem, hchange⟩ := hplans.stamp_of_mem h
    exact .inl ⟨hchange.notDelete, hmem, hchange⟩
  · obtain ⟨stamp, hmem, rfl⟩ := List.mem_map.mp h
    exact .inr ⟨rfl, hmem⟩

theorem isPlan_of_halves (hgiven : ∀ id, given.bind (·.get? id) = oldEntries.get? id)
    (hset : ∀ id, id ∈ newEntrySet ↔ newEntries.has id = true)
    (hcombined : ∀ id, combined.get? id = (newEntries.get? id).or (oldEntries.get? id))
    (hc : Creations newEntries actionOrder creations) (hplans : Plans given creations steps)
    (hr : Removals combined newEntrySet actionOrder removals) :
    IsPlan newEntries oldEntries (steps ++ removals.map deleteStep) := by
  have hchange : ∀ id n, (id, n) ∈ creations →
      ∃ step ∈ steps ++ removals.map deleteStep, step.entryId = id ∧ step.action ≠ .delete ∧
        step.order = n := by
    intro id n h
    obtain ⟨step, hm, rfl, rfl⟩ := hplans.mem_of_stamp h
    exact ⟨step, List.mem_append_left _ hm, rfl, (hplans.stamp_of_mem hm).2.notDelete, rfl⟩
  have hdelete : ∀ id n, (id, n) ∈ removals →
      deleteStep (id, n) ∈ steps ++ removals.map deleteStep :=
    fun id n h => List.mem_append_right _ (List.mem_map_of_mem h)
  have hremoved : ∀ id, id ∈ removals.map Prod.fst ↔
      oldEntries.has id = true ∧ newEntries.has id = false := by
    intro id
    rw [hr.mem, hset, KeyedMap.has, hcombined]
    cases hn : newEntries.get? id <;> simp [KeyedMap.has, hn]
  refine ⟨?_, fun id => ⟨?_, fun h => ?_⟩, fun id => ⟨?_, fun h => ?_⟩, fun step hs => ?_,
    fun step hs n hn => ?_, fun step hs ha d hd => ?_, fun step hs ha other ho ha' hd => ?_,
    fun step hs ha other ho ha' => ?_⟩
  · rw [List.map_append, hplans.map_entryId, List.map_map, List.nodup_append]
    refine ⟨hc.nodup, hr.nodup, fun x hx y hy hxy => ?_⟩
    subst hxy
    have h1 := (hc.mem x).mp hx
    rw [((hremoved x).mp hy).2] at h1
    cases h1
  · rintro ⟨step, hs, rfl, ha⟩
    rcases mem_halves hplans hs with ⟨_, hm, _⟩ | ⟨hd, _⟩
    · exact (hc.mem _).mp (mem_keys_of_stamp hm)
    · exact absurd hd ha
  · obtain ⟨⟨_, n⟩, hm, rfl⟩ := List.mem_map.mp ((hc.mem id).mpr h)
    obtain ⟨step, hs, hid, ha, _⟩ := hchange _ _ hm
    exact ⟨step, hs, hid, ha⟩
  · rintro ⟨step, hs, rfl, ha⟩
    rcases mem_halves hplans hs with ⟨hn, _⟩ | ⟨_, hm⟩
    · exact absurd ha hn
    · exact (hremoved _).mp (mem_keys_of_stamp hm)
  · obtain ⟨⟨_, n⟩, hm, rfl⟩ := List.mem_map.mp ((hremoved id).mpr h)
    exact ⟨_, hdelete _ _ hm, rfl, rfl⟩
  · rcases mem_halves hplans hs with ⟨_, _, hch⟩ | ⟨hd, hm⟩
    · rw [hch.create, hgiven, KeyedMap.has_eq_false]
    · have := ((hremoved _).mp (mem_keys_of_stamp hm)).1
      simp [hd, this]
  · by_cases hlt : n < actionOrder
    · obtain ⟨id, hid⟩ := hc.contiguous n hlt
      obtain ⟨other, ho, _, _, horder⟩ := hchange _ _ hid
      exact ⟨other, ho, horder⟩
    · rcases mem_halves hplans hs with ⟨_, hm, _⟩ | ⟨_, hm⟩
      · have := hc.stop _ _ hm
        omega
      · obtain ⟨id, hid⟩ := hr.contiguous _ _ n hm (by omega) hn
        exact ⟨_, hdelete _ _ hid, rfl⟩
  · rcases mem_halves hplans hs with ⟨_, hm, _⟩ | ⟨hdel, _⟩
    · obtain ⟨m, hlt, hmem⟩ := hc.after _ _ _ hm hd
      obtain ⟨other, ho, hid, hna, horder⟩ := hchange _ _ hmem
      exact ⟨other, ho, hid, hna, horder ▸ hlt⟩
    · exact absurd hdel ha
  · rcases mem_halves hplans hs with ⟨hn, _⟩ | ⟨_, hm⟩
    · exact absurd ha hn
    rcases mem_halves hplans ho with ⟨hn, _⟩ | ⟨_, hm'⟩
    · exact absurd ha' hn
    have hnew := ((hremoved _).mp (mem_keys_of_stamp hm')).2
    have hdep : DependsOn combined other.entryId step.entryId := by
      obtain ⟨entry, he, hx⟩ := dependsOn_iff.mp hd
      refine dependsOn_iff.mpr ⟨entry, ?_, hx⟩
      rw [hcombined, KeyedMap.has_eq_false.mp hnew, he]
      rfl
    obtain ⟨m, hlt, hmem⟩ := hr.after _ _ _ hm hdep
    rwa [stamp_inj hr.nodup hm' hmem]
  · rcases mem_halves hplans hs with ⟨hn, _⟩ | ⟨_, hm⟩
    · exact absurd ha hn
    rcases mem_halves hplans ho with ⟨_, hm', _⟩ | ⟨hd, _⟩
    · have h1 := hc.stop _ _ hm'
      have h2 := hr.start _ _ hm
      omega
    · exact absurd hd ha'

/-- The halves went through, so the maps are as planning checks. -/
theorem plannable_of_halves (hset : ∀ id, id ∈ newEntrySet ↔ newEntries.has id = true)
    (hcombined : ∀ id, combined.get? id = (newEntries.get? id).or (oldEntries.get? id))
    (hg : Closed newEntries ∧ Acyclic newEntries) (hclosed : Closed combined)
    (hr : Removals combined newEntrySet actionOrder removals) :
    Plannable newEntries oldEntries := by
  have hsub : ∀ x y, DependsOn (removedEntries newEntries oldEntries) x y →
      DependsOn combined x y ∧ x ∈ removals.map Prod.fst := by
    intro x y h
    obtain ⟨entry, he, hy⟩ := dependsOn_iff.mp h
    rw [removedEntries, KeyedMap.get?_filterKeys] at he
    split at he
    · rename_i hnot
      have hnone : newEntries.get? x = none := by simpa [KeyedMap.has] using hnot
      have hget : combined.get? x = some entry := by rw [hcombined, hnone, he]; rfl
      refine ⟨dependsOn_iff.mpr ⟨entry, hget, hy⟩, (hr.mem x).mpr ⟨?_, ?_⟩⟩
      · exact KeyedMap.has_iff.mpr ⟨_, hget⟩
      · rw [hset, KeyedMap.has, hnone]; simp
    · cases he
  refine ⟨hg.1, hg.2, fun id d h => ?_, fun x hx => ?_⟩
  · obtain ⟨entry, he, hd⟩ := dependsOn_iff.mp (hsub _ _ h).1
    have := closed_iff.mp hclosed _ _ he d hd
    rw [KeyedMap.has, hcombined] at this
    cases hn : newEntries.get? d with
    | some e => exact .inl (by simp [KeyedMap.has, hn])
    | none => exact .inr (by simpa [KeyedMap.has, hn] using this)
  · obtain ⟨y, hy, _⟩ := Relation.TransGen.head'_iff.mp hx
    exact hr.acyclic (hsub _ _ hy).2 (Relation.TransGen.mono (fun a b h => (hsub a b h).1) _ _ hx)

end

theorem removals_nil {newEntries : EntryStates V} {newEntrySet : List String} {actionOrder : Nat}
    (hset : ∀ id, id ∈ newEntrySet ↔ newEntries.has id = true) :
    Removals newEntries newEntrySet actionOrder [] :=
  ⟨List.nodup_nil, fun id => by rw [hset]; simp, by simp, by simp, by simp⟩

theorem planSteps_ok {newEntries oldEntries : Option (EntryStates V)} {options : PlanOptions V}
    {steps : List StepState} (h : planSteps newEntries oldEntries options = .ok steps) :
    IsPlan (newEntries.getD ∅) (oldEntries.getD ∅) steps ∧
      Plannable (newEntries.getD ∅) (oldEntries.getD ∅) ∧
      ∀ entry ∈ (newEntries.getD ∅).values, (options.handlers entry.type).isSome := by
  unfold planSteps at h
  cases newEntries with
  | none =>
    cases oldEntries with
    | none => cases h
    | some oldEntries =>
      obtain ⟨hclosed, removals, rfl, hr⟩ := planDeletionSteps_ok h
      have hcombined : ∀ id, (combinedEntryMap none oldEntries).get? id =
          ((∅ : EntryStates V).get? id).or (oldEntries.get? id) := fun id => by simp
      have hgraph : Closed (∅ : EntryStates V) ∧ Acyclic (∅ : EntryStates V) := by
        refine ⟨closed_iff.mpr (by simp), fun x hx => ?_⟩
        obtain ⟨_, ⟨entry, he, _⟩, _⟩ := Relation.TransGen.head'_iff.mp hx
        cases he
      have hset : ∀ id, id ∈ ([] : List String) ↔ (∅ : EntryStates V).has id = true :=
        fun id => by simp [KeyedMap.has]
      have hplans : Plans (some oldEntries) [] [] := .nil
      have hc : Creations (∅ : EntryStates V) 0 [] :=
        ⟨by simp, by simp [KeyedMap.has], by simp, by simp, by simp⟩
      exact ⟨isPlan_of_halves (fun id => by simp) hset hcombined hc hplans hr,
        plannable_of_halves hset hcombined hgraph hclosed hr, by intro e he; cases he⟩
  | some newEntries =>
    cases oldEntries with
    | none =>
      obtain ⟨⟨changes, actionOrder⟩, hcreate, h⟩ := Except.bind_ok.mp h
      simp only [pure, Except.pure, Except.ok.injEq] at h
      subst h
      obtain ⟨hgraph, hhandlers, rfl, hset, hplans⟩ := planCreationSteps_ok hcreate
      have hcombined : ∀ id, newEntries.get? id =
          (newEntries.get? id).or ((∅ : EntryStates V).get? id) := fun id => by simp
      have hr : Removals newEntries changes.visitSet (creationLayers newEntries).length [] :=
        removals_nil hset
      refine ⟨?_, plannable_of_halves hset hcombined hgraph hgraph.1 hr, hhandlers⟩
      have := isPlan_of_halves (fun id => by simp) hset hcombined (creations_stamped hgraph)
        hplans hr
      simpa using this
    | some oldEntries =>
      obtain ⟨⟨changes, actionOrder⟩, hcreate, h⟩ := Except.bind_ok.mp h
      obtain ⟨deletionSteps, hdelete, h⟩ := Except.bind_ok.mp h
      simp only [pure, Except.pure, Except.ok.injEq] at h
      subst h
      obtain ⟨hgraph, hhandlers, rfl, hset, hplans⟩ := planCreationSteps_ok hcreate
      obtain ⟨hclosed, removals, rfl, hr⟩ := planDeletionSteps_ok hdelete
      have hcombined : ∀ id, (combinedEntryMap (some newEntries) oldEntries).get? id =
          (newEntries.get? id).or (oldEntries.get? id) := fun id => by simp
      exact ⟨isPlan_of_halves (fun id => by simp) hset hcombined (creations_stamped hgraph)
        hplans hr, plannable_of_halves hset hcombined hgraph hclosed hr, hhandlers⟩

/-- **A returned plan is a complete, layered topological order**, and maps
with a cycle or a missing dependency have none. -/
theorem planSteps_layered (newEntries oldEntries : Option (EntryStates V))
    (options : PlanOptions V) :
    (∀ steps, planSteps newEntries oldEntries options = .ok steps →
      IsPlan (newEntries.getD ∅) (oldEntries.getD ∅) steps) ∧
    (¬ Plannable (newEntries.getD ∅) (oldEntries.getD ∅) →
      ∃ failure, planSteps newEntries oldEntries options = .error failure) := by
  refine ⟨fun steps h => (planSteps_ok h).1, fun hnot => ?_⟩
  exact Except.error_of_not_ok fun steps h => hnot (planSteps_ok h).2.1

/-! ## Loading a state again -/

theorem dependsOn_removedEntries_empty {oldEntries : EntryStates V} {x y : String} :
    DependsOn (removedEntries ∅ oldEntries) x y ↔ DependsOn oldEntries x y := by
  simp [dependsOn_iff, removedEntries, KeyedMap.has]

/-- **A state can be planned again exactly when its dependencies resolve and
have no cycle.** -/
theorem planSteps_again_iff {entries : EntryStates V} (options : PlanOptions V) :
    (∃ steps, planSteps none (some entries) options = .ok steps) ↔
      Closed entries ∧ Acyclic entries := by
  constructor
  · rintro ⟨steps, h⟩
    obtain ⟨_, hplannable, _⟩ := planSteps_ok h
    constructor
    · refine closed_iff.mpr fun x entry hx d hd => ?_
      have hdep := dependsOn_removedEntries_empty.mpr (dependsOn_iff.mpr ⟨entry, hx, hd⟩)
      rcases hplannable.removedResolve x d hdep with h | h
      · simp [KeyedMap.has] at h
      · exact h
    · intro x hx
      exact hplannable.removedAcyclic x
        (Relation.TransGen.mono (fun _ _ => dependsOn_removedEntries_empty.mpr) _ _ hx)
  · rintro ⟨hclosed, hacyclic⟩
    obtain ⟨hydrated, hhydrate, hh, hhas⟩ := hydrateState_ok hclosed
    have hn : ((removalList hydrated []).map (·.entryId)).Nodup :=
      hydrated.nodup.sublist (List.filter_sublist.map _)
    have hneeds : ∀ x y, Layering.Needs (·.entryId) HydratedEntryState.dependents
        (removalList hydrated []) x y → DependsOn entries y x :=
      fun x y h => ((removal_needs hh hhas []).mp h).2
    have hcomplete := (Layering.layers_complete_iff le_rfl hn).mpr ⟨fun entry he d hd => ?_,
      fun x hx => hacyclic x (Relation.transGen_swap.mp (Relation.TransGen.mono hneeds _ _ hx))⟩
    · refine ⟨(planRemovals (removalList hydrated []) (removalList hydrated []).length 0 []).1,
        Except.bind_ok.mpr ⟨hydrated, Except.mapError_ok.mpr hhydrate, ?_⟩⟩
      dsimp only
      rw [planRemovals_eq hn]
      rw [List.nil_append, List.length_map, hcomplete]
      exact if_neg (not_not.mpr rfl)
    · rw [mem_removalList hhas]
      obtain ⟨e, hget, hx⟩ := dependsOn_iff.mp (hneeds _ _ ⟨entry, he, rfl, hd⟩)
      exact ⟨KeyedMap.has_iff.mpr ⟨e, hget⟩, List.not_mem_nil⟩

end Ez4.State.PlanSoundness

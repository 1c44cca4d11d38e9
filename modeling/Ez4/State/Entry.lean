import Ez4.Library.KeyedMap
import Ez4.Library.Layering
import Ez4.Library.Except

/-! # Entry states

The entries of a deploy, the errors of the state operations and the lookups
through entry maps (`entry.ts`, `errors.ts`, `hydrate.ts`). An entry sits in
a map under its own id: `attachEntry` files it there and `validateEntries`
refuses any other map. A key holding `undefined` counts as a missing one. -/
namespace Ez4.State.Entry
open Ez4.Library

/-- An entry state. `V` is the type of the parameters and of the result, which
no state operation looks into. -/
structure EntryState (V : Type) where
  type : String
  entryId : String
  dependencies : List String
  connections : Option (List String) := none
  /-- `partial`: whether the last apply was partial. -/
  isPartial : Option Bool := none
  parameters : V
  result : Option V := none
deriving DecidableEq, Repr

/-- A map of entry states. -/
abbrev EntryStates (V : Type) := KeyedMap (EntryState.entryId (V := V))

/-- An instance of `Error`. -/
inductive EntryError
  | entriesNotFound
  | entryNotFound (entryId : String)
  | handlerNotFound (entryType entryId : String)
  | dependencyNotFound (entryId dependencyId : String)
  | corruptedStateReferences (expectedLength consumedLength : Nat)
  | skipFailedEntry (entryId : String)
  | skipFailedEntryDependency (entryId : String)
  | skipFailedEntryDependent (entryId : String)
  /-- The error of a walk that never ends. -/
  | stackOverflow
  /-- The error of a conversion of a value that has no text. -/
  | notConvertible
  /-- Any other error, such as one a handler makes. -/
  | custom (message : String)
deriving DecidableEq, Repr

def EntryError.message : EntryError → String
  | .entriesNotFound => "No entries were given for the operation."
  | .entryNotFound entryId => "Entry " ++ entryId ++ " does not exists."
  | .handlerNotFound entryType entryId =>
    "No handler found for type " ++ entryType ++ ", unable to manage entry " ++ entryId ++ "."
  | .dependencyNotFound entryId dependencyId =>
    "Dependency " ++ dependencyId ++ " linked to entry " ++ entryId ++ " does not exists."
  | .corruptedStateReferences expectedLength consumedLength =>
    "Only " ++ toString consumedLength ++ " of " ++ toString expectedLength ++
      " references were found."
  | .skipFailedEntry entryId => "Skipping failed entry (" ++ entryId ++ ")."
  | .skipFailedEntryDependency entryId =>
    "Skipping entry (" ++ entryId ++ ") due to dependency failures."
  | .skipFailedEntryDependent entryId =>
    "Skipping entry (" ++ entryId ++ ") due to dependent failures."
  | .stackOverflow => "Maximum call stack size exceeded"
  | .notConvertible => "Cannot convert a Symbol value to a string"
  | .custom message => message

/-- What a `throw` can throw: an error, or any other value with the text a
template literal makes of it. A symbol, or an object whose conversion throws,
has no text. -/
inductive Thrown
  | error (error : EntryError)
  | value (text : Option String)
deriving DecidableEq, Repr

/-- ``error instanceof Error ? error : new Error(`${error}`)``, where the
conversion itself may throw. -/
def Thrown.toError? : Thrown → Option EntryError
  | .error e => some e
  | .value text => text.map .custom

variable {V : Type}

def getEntry (entryMap : EntryStates V) (entryId : String) : Except EntryError (EntryState V) :=
  match entryMap.get? entryId with
  | some entry => .ok entry
  | none => .error (.entryNotFound entryId)

def isEntryType (entry : EntryState V) (type : Option String) : Bool :=
  match type with
  | none => true
  | some type => type == "" || entry.type == type

def getEntryDependencies (entryMap : EntryStates V) (entry : EntryState V) (type : Option String) :
    Except EntryError (List (EntryState V)) := do
  let dependencies ← entry.dependencies.mapM fun dependencyId =>
    match entryMap.get? dependencyId with
    | some dependency => .ok dependency
    | none => .error (.dependencyNotFound entry.entryId dependencyId)
  return dependencies.filter fun dependency => isEntryType dependency type

def getEntryDependents (entryMap : EntryStates V) (entry : EntryState V) (type : Option String) :
    List (EntryState V) :=
  entryMap.values.filter fun dependent =>
    isEntryType dependent type && dependent.dependencies.contains entry.entryId

/-! ## The dependency graph of a map -/

/-- The entry of id `x` lists `y` in its dependencies. -/
def DependsOn (entryMap : EntryStates V) : String → String → Prop :=
  Layering.Needs EntryState.entryId EntryState.dependencies entryMap.values

/-- Every dependency is the id of an entry of the map. -/
def Closed (entryMap : EntryStates V) : Prop :=
  Layering.Resolved EntryState.entryId EntryState.dependencies entryMap.values

/-- No entry depends on itself, directly or not. -/
def Acyclic (entryMap : EntryStates V) : Prop :=
  Layering.Acyclic EntryState.entryId EntryState.dependencies entryMap.values

theorem dependsOn_iff {entryMap : EntryStates V} {x y : String} :
    DependsOn entryMap x y ↔ ∃ entry, entryMap.get? x = some entry ∧ y ∈ entry.dependencies := by
  constructor
  · rintro ⟨entry, hm, rfl, hy⟩
    exact ⟨entry, KeyedMap.get?_of_mem hm, hy⟩
  · rintro ⟨entry, hx, hy⟩
    exact ⟨entry, KeyedMap.mem_of_get? hx, KeyedMap.key_of_get? hx, hy⟩

theorem closed_iff {entryMap : EntryStates V} :
    Closed entryMap ↔ ∀ x entry, entryMap.get? x = some entry →
      ∀ y ∈ entry.dependencies, entryMap.has y = true := by
  constructor
  · intro h x entry hx y hy
    exact KeyedMap.mem_keys_iff.mp (h entry (KeyedMap.mem_of_get? hx) y hy)
  · intro h entry hm y hy
    exact KeyedMap.mem_keys_iff.mpr (h entry.entryId entry (KeyedMap.get?_of_mem hm) y hy)

theorem mem_getEntryDependents {entryMap : EntryStates V} {entry dependent : EntryState V} :
    dependent ∈ getEntryDependents entryMap entry none ↔
      dependent ∈ entryMap.values ∧ entry.entryId ∈ dependent.dependencies := by
  simp [getEntryDependents, isEntryType]

/-! ## Hydration -/

/-- An entry state with the ids of its dependents. -/
structure HydratedEntryState (V : Type) extends EntryState V where
  dependents : List String
deriving DecidableEq, Repr

abbrev HydratedEntryStates (V : Type) :=
  KeyedMap (fun entry : HydratedEntryState V => entry.entryId)

/-- `dependency.dependents.push(entryId)`. -/
def HydratedEntryState.addDependent (entry : HydratedEntryState V) (entryId : String) :
    HydratedEntryState V :=
  { entry with dependents := entry.dependents ++ [entryId] }

/-- One dependency of the entry `entryId` on the way through `hydrateState`. -/
def hydrateDependency (entryMap : EntryStates V) (entryId : String)
    (tmpEntries : HydratedEntryStates V) (dependencyId : String) :
    Except EntryError (HydratedEntryStates V) :=
  match tmpEntries.get? dependencyId with
  | some dependency => .ok (tmpEntries.set (dependency.addDependent entryId))
  | none =>
    match entryMap.get? dependencyId with
    | none => .error (.dependencyNotFound entryId dependencyId)
    | some dependency => .ok (tmpEntries.set ⟨dependency, [entryId]⟩)

/-- One entry on the way through `hydrateState`. -/
def hydrateEntry (entryMap : EntryStates V) (tmpEntries : HydratedEntryStates V)
    (entry : EntryState V) : Except EntryError (HydratedEntryStates V) :=
  let tmpEntries :=
    if tmpEntries.has entry.entryId then tmpEntries else tmpEntries.set ⟨entry, []⟩
  entry.dependencies.foldlM (hydrateDependency entryMap entry.entryId) tmpEntries

/-- Fill in the `dependents` of each entry, or fail at the first dependency
that is not in the map. -/
def hydrateState (entryMap : EntryStates V) : Except EntryError (HydratedEntryStates V) :=
  entryMap.values.foldlM (hydrateEntry entryMap) ∅

/-- What the map under construction holds once the given (entry, dependency)
pairs went through. -/
structure Hydrated (entryMap : EntryStates V) (edges : List (String × String))
    (tmpEntries : HydratedEntryStates V) : Prop where
  entry : ∀ id hydrated, tmpEntries.get? id = some hydrated →
    entryMap.get? id = some hydrated.toEntryState
  dependents : ∀ id hydrated, tmpEntries.get? id = some hydrated →
    ∀ x, x ∈ hydrated.dependents ↔ (x, id) ∈ edges
  targets : ∀ x id, (x, id) ∈ edges → tmpEntries.has id = true

theorem Hydrated.empty (entryMap : EntryStates V) : Hydrated entryMap [] ∅ :=
  ⟨by simp, by simp, by simp⟩

/-- An entry met for the first time starts without dependents. -/
theorem Hydrated.start {entryMap : EntryStates V} {edges : List (String × String)}
    {tmpEntries : HydratedEntryStates V} (h : Hydrated entryMap edges tmpEntries)
    {entry : EntryState V} (hm : entry ∈ entryMap.values) :
    Hydrated entryMap edges
      (if tmpEntries.has entry.entryId then tmpEntries else tmpEntries.set ⟨entry, []⟩) := by
  split
  · exact h
  · rename_i hnew
    have hnone : tmpEntries.get? entry.entryId = none := by simpa [KeyedMap.has] using hnew
    refine ⟨fun id hydrated hid => ?_, fun id hydrated hid x => ?_, fun x id he => ?_⟩
    · rw [KeyedMap.get?_set] at hid
      split at hid
      · rename_i hkey
        simp only [Option.some.injEq] at hid
        subst hid
        exact hkey ▸ KeyedMap.get?_of_mem hm
      · exact h.entry id hydrated hid
    · rw [KeyedMap.get?_set] at hid
      split at hid
      · rename_i hkey
        simp only [Option.some.injEq] at hid
        subst hid
        constructor
        · intro hx; simp at hx
        · intro hx
          have := h.targets x id hx
          rw [← hkey, KeyedMap.has, hnone] at this
          simp at this
      · exact h.dependents id hydrated hid x
    · rw [KeyedMap.has, KeyedMap.get?_set]
      split
      · rfl
      · exact h.targets x id he

theorem hydrateDependency_spec {entryMap : EntryStates V} {edges : List (String × String)}
    {tmpEntries : HydratedEntryStates V} (h : Hydrated entryMap edges tmpEntries)
    (entryId dependencyId : String) :
    (entryMap.has dependencyId = true → ∃ tmpEntries',
      hydrateDependency entryMap entryId tmpEntries dependencyId = .ok tmpEntries' ∧
      Hydrated entryMap (edges ++ [(entryId, dependencyId)]) tmpEntries' ∧
      ∀ id, tmpEntries.has id = true → tmpEntries'.has id = true) ∧
    (entryMap.has dependencyId = false →
      hydrateDependency entryMap entryId tmpEntries dependencyId =
        .error (.dependencyNotFound entryId dependencyId)) := by
  -- writing under `dependencyId` an entry of the map with one dependent more
  have hwrite : ∀ written : HydratedEntryState V, written.entryId = dependencyId →
      entryMap.get? dependencyId = some written.toEntryState →
      (∀ x, x ∈ written.dependents ↔ (x, dependencyId) ∈ edges ∨ x = entryId) →
      Hydrated entryMap (edges ++ [(entryId, dependencyId)]) (tmpEntries.set written) ∧
      ∀ id, tmpEntries.has id = true → (tmpEntries.set written).has id = true := by
    intro written hkey hentry hdependents
    refine ⟨⟨fun id hydrated hid => ?_, fun id hydrated hid x => ?_, fun x id he => ?_⟩,
      fun id hid => ?_⟩
    · rw [KeyedMap.get?_set] at hid
      split at hid
      · rename_i hk
        simp only [Option.some.injEq] at hid
        subst hid
        rw [← hk, hkey]; exact hentry
      · exact h.entry id hydrated hid
    · rw [KeyedMap.get?_set] at hid
      split at hid
      · rename_i hk
        simp only [Option.some.injEq] at hid
        subst hid
        rw [hdependents, ← hk, hkey]
        simp
      · rename_i hk
        rw [h.dependents id hydrated hid x]
        have hne : id ≠ dependencyId := fun he => hk (hkey.trans he.symm)
        simp [hne]
    · rw [KeyedMap.has, KeyedMap.get?_set]
      split
      · rfl
      · rename_i hk
        rcases List.mem_append.mp he with he | he
        · exact h.targets x id he
        · simp only [List.mem_singleton, Prod.mk.injEq] at he
          exact absurd (hkey.trans he.2.symm) hk
    · rw [KeyedMap.has, KeyedMap.get?_set]
      split
      · rfl
      · exact hid
  unfold hydrateDependency
  cases htmp : tmpEntries.get? dependencyId with
  | some dependency =>
    have hentry := h.entry _ _ htmp
    have hkey := KeyedMap.key_of_get? htmp
    refine ⟨fun _ => ⟨_, rfl, hwrite _ hkey hentry fun x => ?_⟩, fun hf => ?_⟩
    · simp [HydratedEntryState.addDependent, h.dependents _ _ htmp x]
    · rw [KeyedMap.has, hentry] at hf; simp at hf
  | none =>
    cases hget : entryMap.get? dependencyId with
    | none => exact ⟨fun ht => by rw [KeyedMap.has, hget] at ht; simp at ht, fun _ => rfl⟩
    | some dependency =>
      refine ⟨fun _ => ⟨_, rfl, hwrite _ (KeyedMap.key_of_get? hget) hget fun x => ?_⟩, fun hf => ?_⟩
      · have hno : (x, dependencyId) ∉ edges := by
          intro he
          have := h.targets x dependencyId he
          rw [KeyedMap.has, htmp] at this; simp at this
        simp [hno]
      · rw [KeyedMap.has, hget] at hf; simp at hf

/-- The pairs of an entry and a dependency it lists. -/
def edgesOf (entries : List (EntryState V)) : List (String × String) :=
  entries.flatMap fun entry => entry.dependencies.map fun dependencyId =>
    (entry.entryId, dependencyId)

theorem mem_edgesOf {entryMap : EntryStates V} {x y : String} :
    (x, y) ∈ edgesOf entryMap.values ↔ DependsOn entryMap x y := by
  simp only [edgesOf, List.mem_flatMap, List.mem_map, Prod.mk.injEq, DependsOn, Layering.Needs]
  constructor
  · rintro ⟨entry, hm, d, hd, rfl, rfl⟩; exact ⟨entry, hm, rfl, hd⟩
  · rintro ⟨entry, hm, rfl, hd⟩; exact ⟨entry, hm, y, hd, rfl, rfl⟩

/-- The state of `hydrateState` after the given entries: they are all there,
and so are the dependents they gave. -/
def HydratedBy (entryMap : EntryStates V) (done : List (EntryState V))
    (tmpEntries : HydratedEntryStates V) : Prop :=
  Hydrated entryMap (edgesOf done) tmpEntries ∧
    ∀ entry ∈ done, tmpEntries.has entry.entryId = true

theorem hydrateEntry_ok {entryMap : EntryStates V} {done : List (EntryState V)}
    {tmpEntries : HydratedEntryStates V} (h : HydratedBy entryMap done tmpEntries)
    {entry : EntryState V} (hm : entry ∈ entryMap.values)
    (hclosed : ∀ d ∈ entry.dependencies, entryMap.has d = true) :
    ∃ tmpEntries', hydrateEntry entryMap tmpEntries entry = .ok tmpEntries' ∧
      HydratedBy entryMap (done ++ [entry]) tmpEntries' := by
  have hstart := h.1.start hm
  let first := if tmpEntries.has entry.entryId then tmpEntries else tmpEntries.set ⟨entry, []⟩
  have hfirst : ∀ id, tmpEntries.has id = true ∨ id = entry.entryId → first.has id = true := by
    intro id hid
    simp only [first]
    split
    · rename_i hhas
      rcases hid with hid | rfl
      · exact hid
      · exact hhas
    · rw [KeyedMap.has, KeyedMap.get?_set]
      split
      · rfl
      · rename_i hk
        rcases hid with hid | rfl
        · exact hid
        · exact absurd rfl hk
  obtain ⟨tmpEntries', hrun, hhydrated, hgrow⟩ := Except.foldlM_total
    (f := hydrateDependency entryMap entry.entryId)
    (I := fun seen tmp =>
      Hydrated entryMap (edgesOf done ++ seen.map fun d => (entry.entryId, d)) tmp ∧
        ∀ id, first.has id = true → tmp.has id = true)
    (l := entry.dependencies) (p := []) (b := first)
    (fun seen d tmp hd hI => by
      obtain ⟨tmp', hok, hh, hg⟩ := (hydrateDependency_spec hI.1 entry.entryId d).1 (hclosed d hd)
      exact ⟨tmp', hok, by simpa [List.append_assoc] using hh, fun id hid => hg id (hI.2 id hid)⟩)
    ⟨by simpa [first] using hstart, fun _ hid => hid⟩
  refine ⟨tmpEntries', hrun, by simpa [edgesOf] using hhydrated, fun other ho => ?_⟩
  rcases List.mem_append.mp ho with ho | ho
  · exact hgrow _ (hfirst _ (.inl (h.2 other ho)))
  · rw [List.mem_singleton.mp ho]
    exact hgrow _ (hfirst _ (.inr rfl))

/-- A closed map hydrates: the same entries, each with the entries that list
it in their dependencies. -/
theorem hydrateState_ok {entryMap : EntryStates V} (hc : Closed entryMap) :
    ∃ hydrated, hydrateState entryMap = .ok hydrated ∧
      Hydrated entryMap (edgesOf entryMap.values) hydrated ∧
      ∀ id, hydrated.has id = entryMap.has id := by
  obtain ⟨hydrated, hrun, hh, hhas⟩ := Except.foldlM_total (f := hydrateEntry entryMap)
    (I := HydratedBy entryMap) (l := entryMap.values) (p := []) (b := ∅)
    (fun done entry tmp hm hI => hydrateEntry_ok hI hm fun d hd =>
      closed_iff.mp hc _ _ (KeyedMap.get?_of_mem hm) d hd)
    ⟨Hydrated.empty entryMap, by simp⟩
  refine ⟨hydrated, hrun, hh, fun id => Bool.eq_iff_iff.mpr ⟨fun h => ?_, fun h => ?_⟩⟩
  · obtain ⟨e, he⟩ := KeyedMap.has_iff.mp h
    exact KeyedMap.has_iff.mpr ⟨_, hh.entry id e he⟩
  · obtain ⟨e, he⟩ := KeyedMap.has_iff.mp h
    rw [← KeyedMap.key_of_get? he]
    exact hhas e (KeyedMap.mem_of_get? he)

theorem hydrateEntry_resolved {entryMap : EntryStates V} {done : List (EntryState V)}
    {tmpEntries tmpEntries' : HydratedEntryStates V} (h : HydratedBy entryMap done tmpEntries)
    {entry : EntryState V} (hm : entry ∈ entryMap.values)
    (hrun : hydrateEntry entryMap tmpEntries entry = .ok tmpEntries') :
    ∀ d ∈ entry.dependencies, entryMap.has d = true := by
  have hall := Except.foldlM_invariant
    (I := fun seen tmp =>
      Hydrated entryMap (edgesOf done ++ seen.map fun d => (entry.entryId, d)) tmp ∧
        ∀ d ∈ seen, entryMap.has d = true)
    (p := []) (fun seen d tmp tmp' _ hI hstep => by
      obtain ⟨hsome, hnone⟩ := hydrateDependency_spec hI.1 entry.entryId d
      cases hd : entryMap.has d with
      | false => rw [hnone hd] at hstep; cases hstep
      | true =>
        obtain ⟨tmp'', hok, hh, _⟩ := hsome hd
        rw [hok] at hstep
        cases hstep
        refine ⟨by simpa [List.append_assoc] using hh, fun x hx => ?_⟩
        rcases List.mem_append.mp hx with hx | hx
        · exact hI.2 x hx
        · exact List.mem_singleton.mp hx ▸ hd)
    ⟨by simpa using h.1.start hm, by simp⟩ hrun
  simpa using hall.2

/-- A map that hydrates is closed. -/
theorem closed_of_hydrateState {entryMap : EntryStates V} {hydrated : HydratedEntryStates V}
    (h : hydrateState entryMap = .ok hydrated) : Closed entryMap := by
  have hall := Except.foldlM_invariant
    (I := fun done tmp => HydratedBy entryMap done tmp ∧
      ∀ entry ∈ done, ∀ d ∈ entry.dependencies, entryMap.has d = true)
    (p := []) (fun done entry tmp tmp' hm hI hstep => by
      have hdeps := hydrateEntry_resolved hI.1 hm hstep
      obtain ⟨tmp'', hok, hh⟩ := hydrateEntry_ok hI.1 hm hdeps
      rw [hok] at hstep
      cases hstep
      refine ⟨hh, fun other ho => ?_⟩
      rcases List.mem_append.mp ho with ho | ho
      · exact hI.2 other ho
      · exact List.mem_singleton.mp ho ▸ hdeps)
    ⟨⟨Hydrated.empty entryMap, by simp⟩, by simp⟩ h
  exact closed_iff.mpr fun x entry hx d hd => hall.2 entry (by simpa using KeyedMap.mem_of_get? hx) d hd

end Ez4.State.Entry

import Ez4.Project.Environment

/-! # Runs in which every invocation keeps to its own environment -/
namespace Ez4.Project.Environment
open Ez4.Library Ez4.Utils

variable {settings : Settings} {s t : Process} {v : Variables} {id : Nat} {name other text : String}

/-! ## Objects of texts -/

namespace Variables

theorem own_set : Variables.own (v.set (other, text)) name =
    if other = name then some text else v.own name := by
  unfold own
  rw [KeyedMap.get?_set]
  split <;> rfl

theorem own_erase : Variables.own (v.erase other) name = if name = other then none else v.own name := by
  unfold own
  rw [KeyedMap.get?_erase]
  split <;> rfl

theorem has_eq_isSome_own : v.has name = (v.own name).isSome := by
  rw [KeyedMap.has, own, Option.isSome_map]

theorem own_eq_none_iff : v.own name = none ↔ v.has name = false := by
  rw [has_eq_isSome_own, Option.isSome_eq_false_iff, Option.isNone_iff_eq_none]

/-- A plain object reads what it has, and the inherited members otherwise. -/
theorem isSome_read : (v.read name).isSome = v.isIn name := by
  rw [read, isIn, has_eq_isSome_own]
  cases v.own name with
  | some text => rfl
  | none => cases objectPrototypeNames.contains name <;> rfl

theorem read_of_own (h : v.own name = some text) : v.read name = some (.text text) := by
  rw [read, h]

theorem isIn_of_own (h : v.own name = some text) : v.isIn name = true := by
  rw [← isSome_read, read_of_own h]
  rfl

theorem isIn_of_own_eq_none (h : v.own name = none) (hname : name ∉ objectPrototypeNames) :
    v.isIn name = false := by
  rw [isIn, own_eq_none_iff.mp h, Bool.false_or]
  simpa using hname

theorem read_eq_none (h : v.own name = none) (hname : name ∉ objectPrototypeNames) :
    v.read name = none := by
  rw [← Option.not_isSome_iff_eq_none, isSome_read, isIn_of_own_eq_none h hname]
  decide

/-- A name of no built-in member is read where it is the object's own. -/
theorem read_of_not_mem (hname : name ∉ objectPrototypeNames) :
    v.read name = (v.own name).map Value.text := by
  cases h : v.own name with
  | some text => exact read_of_own h
  | none => exact read_eq_none h hname

theorem own_assign (hname : other ≠ "__proto__") :
    Variables.own (v.assign other text) name = if other = name then some text else v.own name := by
  rw [assign, if_neg hname, own_set]

end Variables

/-! ## Scopes -/

namespace Process

@[simp] theorem store_none : s.store none = none := rfl

@[simp] theorem target_setVariables : (s.setVariables id v).target = s.target := rfl

theorem store_setVariables (other : Nat) : (s.setVariables id v).store (some other) =
    if id = other then (s.store (some other)).map fun _ => v else s.store (some other) := by
  simp only [store, setVariables, Option.bind_some, List.getElem?_modify]
  split <;> cases s.scopes[other]? <;> rfl

/-- The scopes that were started before keep their variables. -/
theorem store_runWithVariables {caller : Option Nat} {linked : Variables}
    (h : s.store (some id) = some v) : (s.runWithVariables caller linked).store (some id) = some v := by
  obtain ⟨scope, hscope, rfl⟩ := Option.map_eq_some_iff.mp h
  have hlt : id < s.scopes.length := (List.getElem?_eq_some_iff.mp hscope).1
  simp only [store, runWithVariables, Option.bind_some, List.getElem?_append_left hlt, hscope,
    Option.map_some]

theorem store_isSome (h : id < s.scopes.length) : ∃ v, s.store (some id) = some v :=
  ⟨_, by rw [store, Option.bind_some, List.getElem?_eq_getElem h, Option.map_some]⟩

theorem set_of_isIn (hstore : s.store (some id) = some v) (h : v.isIn name = true) :
    s.set (some id) name text = s.setVariables id (v.assign name text) := by
  simp only [set, hstore, h, if_true]

theorem deleteProperty_of_isIn (hstore : s.store (some id) = some v) (h : v.isIn name = true) :
    s.deleteProperty (some id) name = s.setVariables id (v.erase name) := by
  simp only [deleteProperty, hstore, h, if_true]

theorem deleteProperty_of_not_isIn (hstore : s.store (some id) = some v) (h : v.isIn name = false) :
    s.deleteProperty (some id) name = { s with target := s.target.erase name } := by
  simp only [deleteProperty, hstore, h, Bool.false_eq_true, if_false]

end Process

/-- What a caller reads depends on its own scope and the real environment alone. -/
theorem ReadsTheSame.of_eq {caller : Option Nat} (htarget : t.target = s.target)
    (hstore : t.store caller = s.store caller) : ReadsTheSame settings s t caller := by
  constructor <;> intros <;>
    simp only [Process.get, Process.has, Process.ownKeys, Process.getOwnPropertyDescriptor,
      Process.targetDescriptor, htarget, hstore]

/-! ## The four ways of reading -/

/-- The names a callback can read: a built-in member's only where a variable has it. -/
def IsReadable (settings : Settings) (s : Process) (id : Nat) (name : String) : Prop :=
  name ∈ objectPrototypeNames → (∃ v ∈ s.store (some id), v.has name = true) ∨
    (isVisibleVariable settings name = true ∧ s.target.has name = true)

theorem mem_ownKeys (hstore : s.store (some id) = some v) :
    name ∈ s.ownKeys settings (some id) ↔
      (isVisibleVariable settings name = true ∧ s.target.has name = true) ∨ v.has name = true := by
  rw [Process.ownKeys, hstore]
  simp only [List.mem_eraseDups, List.mem_append, List.mem_filter, KeyedMap.mem_keys_iff]
  rw [and_comm]

/-- A name that is found in the scope reads as the scope has it. -/
theorem agrees_of_isIn (hstore : s.store (some id) = some v) (hin : v.isIn name = true) :
    Agrees settings s id name ↔ IsReadable settings s id name := by
  have hget : s.get settings (some id) name = v.read name := by
    simp only [Process.get, hstore, hin, if_true]
  have hsome : (s.get settings (some id) name).isSome = true := by
    rw [hget, Variables.isSome_read, hin]
  have hread : IsReadable settings s id name ↔ name ∈ s.ownKeys settings (some id) := by
    rw [mem_ownKeys hstore, IsReadable, hstore]
    simp only [Option.mem_def, Option.some.injEq, exists_eq_left']
    constructor
    · intro h
      by_cases hname : name ∈ objectPrototypeNames
      · exact (h hname).symm
      · rw [Variables.isIn, Bool.or_eq_true] at hin
        exact .inr (hin.resolve_right fun hmem => hname (by simpa using hmem))
    · exact fun h _ => h.symm
  rw [hread]
  refine ⟨fun h => h.keys.mpr hsome, fun hmem => ⟨?_, iff_of_true hmem hsome, ?_⟩⟩
  · rw [hsome, Process.has, hstore]
    simp only [hin, Bool.true_or]
  · rw [hget, Process.getOwnPropertyDescriptor, hstore]
    simp only [hin, if_true, Option.map_map]
    exact Option.map_id'

/-- A name that is not is no built-in member's, and reads as the real environment shows it. -/
theorem agrees_of_not_isIn (hstore : s.store (some id) = some v) (hin : v.isIn name = false) :
    Agrees settings s id name := by
  have hnone : v.has name = false ∧ name ∉ objectPrototypeNames := by
    simpa [Variables.isIn] using hin
  obtain ⟨hown, hname⟩ := hnone
  cases hvisible : isVisibleVariable settings name with
  | false =>
    have hget : s.get settings (some id) name = none := by
      simp [Process.get, hstore, hin, hvisible]
    refine ⟨?_, ?_, ?_⟩
    · rw [hget, Process.has, hstore]
      simp [hin, hvisible]
    · rw [mem_ownKeys hstore, hget, hvisible, hown]
      simp
    · rw [hget, Process.getOwnPropertyDescriptor, hstore]
      simp [hin, hvisible]
  | true =>
    have hget : s.get settings (some id) name = (s.target.own name).map Value.text := by
      rw [← Variables.read_of_not_mem hname]
      simp [Process.get, hstore, hin, hvisible]
    have hsome : (s.get settings (some id) name).isSome = s.target.has name := by
      rw [hget, Option.isSome_map, Variables.has_eq_isSome_own]
    refine ⟨?_, ?_, ?_⟩
    · rw [hsome, Process.has, hstore]
      have hcontains : objectPrototypeNames.contains name = false := by simpa using hname
      simp only [hvisible, Variables.isIn, hcontains, hown, Bool.or_false, Bool.false_or,
        Bool.true_and]
    · rw [mem_ownKeys hstore, hsome, hvisible, hown]
      simp
    · rw [hget, Process.getOwnPropertyDescriptor, hstore]
      simp only [hin, hvisible, Process.targetDescriptor, Bool.not_true, Bool.false_eq_true, if_false,
        Option.map_map]
      rfl

/-- **The four ways agree on a name exactly where a callback can read it.** -/
theorem agrees_iff (h : id < s.scopes.length) :
    Agrees settings s id name ↔ IsReadable settings s id name := by
  obtain ⟨v, hstore⟩ := Process.store_isSome h
  cases hin : v.isIn name with
  | true => exact agrees_of_isIn hstore hin
  | false =>
    refine iff_of_true (agrees_of_not_isIn hstore hin) fun hmem => ?_
    have hname : name ∉ objectPrototypeNames := by
      simp only [Variables.isIn, Bool.or_eq_false_iff] at hin
      simpa using hin.2
    exact absurd hmem hname

/-! ## Keeping to itself -/

/-- The condition on the steps. A callback writes the names its scope has, and deletes the names
of variables that the real environment does not have for it; and what a callback deleted is not
written to the real environment where the callback sees it. -/
def KeepsToItself (settings : Settings) (s : Emulation) (event : Event) : Prop :=
  match event.caller, event.operation with
  | some id, .set name _ =>
    name ≠ "__proto__" ∧ ∃ v ∈ s.process.store (some id), v.isIn name = true
  | some id, .deleteProperty name =>
    name ∉ objectPrototypeNames ∧ (s.process.target.has name = true →
      isVisibleVariable settings name = false ∧
        ∃ v ∈ s.process.store (some id), v.isIn name = true)
  | none, .set name _ =>
    isVisibleVariable settings name = true →
      ∀ id < s.process.scopes.length, said s.past id name ≠ some none
  | _, _ => True

/-- A change in a callback that meets the condition is one of its scope alone. -/
structure IsOwnChange (s t : Process) (id : Nat) : Prop where
  target : t.target = s.target
  store : ∀ other, other ≠ id → t.store (some other) = s.store (some other)

theorem isOwnChange_setVariables : IsOwnChange s (s.setVariables id v) id :=
  ⟨rfl, fun other hother => by rw [Process.store_setVariables, if_neg (Ne.symm hother)]⟩

theorem isOwnChange_set (past : List Event)
    (hok : KeepsToItself settings ⟨s, past⟩ ⟨some id, .set name text⟩) :
    IsOwnChange s (s.set (some id) name text) id := by
  obtain ⟨-, v, hstore, hin⟩ := hok
  rw [Process.set_of_isIn hstore hin]
  exact isOwnChange_setVariables

theorem isOwnChange_deleteProperty (past : List Event) (hid : id < s.scopes.length)
    (hok : KeepsToItself settings ⟨s, past⟩ ⟨some id, .deleteProperty name⟩) :
    IsOwnChange s (s.deleteProperty (some id) name) id := by
  obtain ⟨-, hreal⟩ := hok
  obtain ⟨v, hstore⟩ := Process.store_isSome hid
  cases hin : v.isIn name with
  | true =>
    rw [Process.deleteProperty_of_isIn hstore hin]
    exact isOwnChange_setVariables
  | false =>
    have habsent : s.target.has name = false := by
      rw [← Bool.not_eq_true]
      intro hhas
      obtain ⟨-, w, hw, hinw⟩ := hreal hhas
      obtain rfl := Option.some.inj (hstore.symm.trans hw)
      exact absurd (hinw.symm.trans hin) (by decide)
    rw [Process.deleteProperty_of_not_isIn hstore hin]
    exact ⟨KeyedMap.erase_of_has_eq_false habsent, fun _ _ => rfl⟩

/-- **No change that meets the condition is seen outside its callback.** -/
theorem isIsolated_of_keepsToItself {s : Emulation} {event : Event}
    (hid : ∀ id ∈ event.caller, id < s.process.scopes.length)
    (hok : KeepsToItself settings s event) : IsIsolated settings s.process event := by
  intro id hcaller hchange caller houtside
  obtain ⟨eventCaller, operation⟩ := event
  obtain rfl : eventCaller = some id := hcaller
  have hown : IsOwnChange s.process (s.process.apply (some id) operation) id := by
    cases operation with
    | set name text => exact isOwnChange_set s.past hok
    | deleteProperty name =>
      exact isOwnChange_deleteProperty s.past (hid id rfl) hok
    | runWithVariables _ | get _ | has _ | ownKeys | getOwnPropertyDescriptor _ => cases hchange
  refine .of_eq hown.target ?_
  cases caller with
  | none => rfl
  | some other =>
    exact hown.store other fun he => houtside other rfl (he ▸ .same)

/-! ## What a callback is told of its own writes -/

/-- The scope of the callback has what it last wrote, and nothing shows what it last deleted. -/
structure IsRecalled (settings : Settings) (s : Process) (id : Nat) (name : String)
    (last : Option String) : Prop where
  own : ∃ v, s.store (some id) = some v ∧ v.own name = last
  absent : last = none → name ∉ objectPrototypeNames ∧
    (isVisibleVariable settings name = true → s.target.own name = none)

def IsKept (settings : Settings) (s : Emulation) : Prop :=
  ∀ id name last, said s.past id name = some last → IsRecalled settings s.process id name last

theorem IsRecalled.get {last : Option String} (h : IsRecalled settings s id name last) :
    s.get settings (some id) name = last.map .text := by
  obtain ⟨⟨v, hstore, hown⟩, habsent⟩ := h
  rw [Process.get, hstore]
  cases last with
  | some text =>
    simp only [Variables.isIn_of_own hown, if_true]
    exact Variables.read_of_own hown
  | none =>
    obtain ⟨hname, hhidden⟩ := habsent rfl
    simp only [Variables.isIn_of_own_eq_none hown hname, Bool.false_eq_true, if_false]
    cases hvisible : isVisibleVariable settings name with
    | false => rfl
    | true => exact Variables.read_eq_none (hhidden hvisible) hname

theorem said_cons {event : Event} {past : List Event} {last : Option String}
    (h : said (event :: past) id name = some last) :
    event.tells id name = some last ∨ (event.tells id name = none ∧ said past id name = some last) := by
  rw [said, List.findSome?_cons] at h
  cases htells : event.tells id name with
  | some told =>
    rw [htells] at h
    exact .inl h
  | none =>
    rw [htells] at h
    exact .inr ⟨rfl, h⟩

/-- What the steps of others keep. -/
theorem IsRecalled.keep {last : Option String} (h : IsRecalled settings s id name last)
    (hstore : ∀ v, s.store (some id) = some v → t.store (some id) = some v)
    (htarget : last = none → isVisibleVariable settings name = true →
      s.target.own name = none → t.target.own name = none) :
    IsRecalled settings t id name last := by
  obtain ⟨⟨v, hscope, hown⟩, habsent⟩ := h
  refine ⟨⟨v, hstore v hscope, hown⟩, fun hlast => ?_⟩
  obtain ⟨hname, hhidden⟩ := habsent hlast
  exact ⟨hname, fun hvisible => htarget hlast hvisible (hhidden hvisible)⟩

theorem isRecalled_set (hstore : s.store (some id) = some v) (hin : v.isIn name = true)
    (hname : name ≠ "__proto__") :
    IsRecalled settings (s.set (some id) name text) id name (some text) := by
  rw [Process.set_of_isIn hstore hin]
  refine ⟨⟨v.assign name text, ?_, ?_⟩, fun hlast => by cases hlast⟩
  · rw [Process.store_setVariables, if_pos rfl, hstore, Option.map_some]
  · rw [Variables.own_assign hname, if_pos rfl]

theorem isRecalled_deleteProperty (past : List Event) (hid : id < s.scopes.length)
    (hok : KeepsToItself settings ⟨s, past⟩ ⟨some id, .deleteProperty name⟩) :
    IsRecalled settings (s.deleteProperty (some id) name) id name none := by
  obtain ⟨v, hstore⟩ := Process.store_isSome hid
  have htarget := (isOwnChange_deleteProperty past hid hok).target
  obtain ⟨hname, hreal⟩ := hok
  refine ⟨?_, fun _ => ⟨hname, fun hvisible => ?_⟩⟩
  · cases hin : v.isIn name with
    | true =>
      rw [Process.deleteProperty_of_isIn hstore hin]
      refine ⟨v.erase name, ?_, ?_⟩
      · rw [Process.store_setVariables, if_pos rfl, hstore, Option.map_some]
      · rw [Variables.own_erase, if_pos rfl]
    | false =>
      rw [Process.deleteProperty_of_not_isIn hstore hin]
      refine ⟨v, hstore, Variables.own_eq_none_iff.mpr ?_⟩
      rw [Variables.isIn, Bool.or_eq_false_iff] at hin
      exact hin.1
  · rw [htarget, Variables.own_eq_none_iff, ← Bool.not_eq_true]
    intro hhas
    exact absurd (hvisible.symm.trans (hreal hhas).1) (by decide)

/-- What is recalled of one variable of a callback, after a change of its own to another one. -/
theorem IsRecalled.of_ownChange {last : Option String} {changed : Nat}
    (h : IsRecalled settings s id name last) (hown : IsOwnChange s t changed)
    (hsame : changed = id → ∀ v, s.store (some id) = some v →
      ∃ w, t.store (some id) = some w ∧ w.own name = v.own name) :
    IsRecalled settings t id name last := by
  obtain ⟨⟨v, hscope, hlast⟩, habsent⟩ := h
  refine ⟨?_, by rw [hown.target]; exact habsent⟩
  by_cases hid : changed = id
  · obtain ⟨w, hw, hsame⟩ := hsame hid v hscope
    exact ⟨w, hw, hsame.trans hlast⟩
  · exact ⟨v, by rw [hown.store id (Ne.symm hid), hscope], hlast⟩

/-! ## Steps and runs -/

theorem lt_of_store (h : s.store (some id) = some v) : id < s.scopes.length := by
  obtain ⟨scope, hscope, -⟩ := Option.map_eq_some_iff.mp h
  exact (List.getElem?_eq_some_iff.mp hscope).1

/-- What an event says of a variable of a callback is recalled after it. -/
theorem isRecalled_of_tells {s : Emulation} {event : Event} {last : Option String}
    (hid : ∀ id ∈ event.caller, id < s.process.scopes.length) (hok : KeepsToItself settings s event)
    (htells : event.tells id name = some last) :
    IsRecalled settings (s.process.apply event.caller event.operation) id name last := by
  obtain ⟨caller, operation⟩ := event
  cases operation with
  | set written text =>
    obtain ⟨⟨hcaller, hwritten⟩, hlast⟩ := Option.ite_none_right_eq_some.mp htells
    obtain rfl : caller = some id := hcaller
    obtain rfl : written = name := hwritten
    obtain rfl := Option.some.inj hlast
    obtain ⟨hname, v, hstore, hin⟩ := hok
    exact isRecalled_set hstore hin hname
  | deleteProperty deleted =>
    obtain ⟨⟨hcaller, hdeleted⟩, hlast⟩ := Option.ite_none_right_eq_some.mp htells
    obtain rfl : caller = some id := hcaller
    obtain rfl : deleted = name := hdeleted
    obtain rfl := Option.some.inj hlast
    exact isRecalled_deleteProperty s.past (hid id rfl) hok
  | runWithVariables _ | get _ | has _ | ownKeys | getOwnPropertyDescriptor _ => cases htells

/-- What an event does not speak of is recalled as before. -/
theorem isRecalled_of_silent {s : Emulation} {event : Event} {last : Option String}
    (hid : ∀ id ∈ event.caller, id < s.process.scopes.length) (hok : KeepsToItself settings s event)
    (hsaid : said s.past id name = some last) (htells : event.tells id name = none)
    (h : IsRecalled settings s.process id name last) :
    IsRecalled settings (s.process.apply event.caller event.operation) id name last := by
  obtain ⟨caller, operation⟩ := event
  cases operation with
  | runWithVariables linked =>
    exact h.keep (fun _ => Process.store_runWithVariables) fun _ _ hown => hown
  | get _ | has _ | ownKeys | getOwnPropertyDescriptor _ => exact h
  | set written text =>
    have hother : ¬ (caller = some id ∧ written = name) := by
      intro hboth
      have hsome : Event.tells ⟨caller, .set written text⟩ id name = some (some text) := if_pos hboth
      cases hsome.symm.trans htells
    cases caller with
    | none =>
      refine h.keep (fun _ hstore => hstore) fun hlast hvisible hown => ?_
      have hne : written ≠ name := by
        rintro rfl
        obtain ⟨v, hstore, -⟩ := h.own
        exact hok hvisible id (lt_of_store hstore) (hlast ▸ hsaid)
      exact (Variables.own_set.trans (if_neg hne)).trans hown
    | some changed =>
      refine h.of_ownChange (isOwnChange_set s.past hok) fun he v hstore => ?_
      obtain rfl : changed = id := he
      obtain ⟨hproto, w, hw, hin⟩ := hok
      obtain rfl := Option.some.inj (hstore.symm.trans hw)
      refine ⟨v.assign written text, ?_, ?_⟩
      · rw [Process.apply, Process.set_of_isIn hstore hin, Process.store_setVariables, if_pos rfl,
          hstore, Option.map_some]
      · rw [Variables.own_assign hproto, if_neg fun he => hother ⟨rfl, he⟩]
  | deleteProperty deleted =>
    have hother : ¬ (caller = some id ∧ deleted = name) := by
      intro hboth
      have hsome : Event.tells ⟨caller, .deleteProperty deleted⟩ id name = some none := if_pos hboth
      cases hsome.symm.trans htells
    cases caller with
    | none =>
      refine h.keep (fun _ hstore => hstore) fun _ _ hown => ?_
      refine Variables.own_erase.trans ?_
      rw [hown, ite_self]
    | some changed =>
      refine h.of_ownChange (isOwnChange_deleteProperty s.past (hid changed rfl) hok)
        fun he v hstore => ?_
      obtain rfl : changed = id := he
      cases hin : v.isIn deleted with
      | true =>
        refine ⟨v.erase deleted, ?_, ?_⟩
        · rw [Process.apply, Process.deleteProperty_of_isIn hstore hin, Process.store_setVariables,
            if_pos rfl, hstore, Option.map_some]
        · rw [Variables.own_erase, if_neg fun he => hother ⟨rfl, he.symm⟩]
      | false =>
        refine ⟨v, ?_, rfl⟩
        rw [Process.apply, Process.deleteProperty_of_not_isIn hstore hin]
        exact hstore

theorem isKept_step {s t : Emulation} {event : Event} (h : IsKept settings s)
    (hok : KeepsToItself settings s event) (hstep : s.step event = some t) : IsKept settings t := by
  obtain ⟨hid, hstep⟩ := Option.ite_none_right_eq_some.mp hstep
  obtain rfl := Option.some.inj hstep
  intro id name last hsaid
  rcases said_cons hsaid with htells | ⟨htells, hsaid⟩
  · exact isRecalled_of_tells hid hok htells
  · exact isRecalled_of_silent hid hok hsaid htells (h id name last hsaid)

theorem isKept_init (target : Variables) : IsKept settings (emulator target).init :=
  fun _ _ _ hsaid => by cases hsaid

/-- **In a run whose steps meet the condition an invocation sees an environment of its own.** -/
theorem runWithVariables_ownEnvironment {target : Variables} {events : List Event} {s : Emulation}
    (hok : (emulator target).Meets (KeepsToItself settings) events (emulator target).init)
    (hrun : (emulator target).run events (emulator target).init = some s) :
    (∀ id < s.process.scopes.length, ∀ name,
      Agrees settings s.process id name ↔ IsReadable settings s.process id name) ∧
    Remembers settings s ∧
    ∀ event t, KeepsToItself settings s event → (emulator target).step s event = some t →
      IsIsolated settings s.process event := by
  have h : IsKept settings s :=
    Machine.run_invariant_of_meets (fun _ _ _ => isKept_step) (isKept_init target) hok hrun
  refine ⟨fun id hid name => agrees_iff hid, fun id name last hsaid => (h id name last hsaid).get,
    fun event t hkeeps hstep => ?_⟩
  exact isIsolated_of_keepsToItself (Option.ite_none_right_eq_some.mp hstep).1 hkeeps

/-! ## Samples -/

instance decidableKeepsToItself (settings : Settings) (s : Emulation) :
    ∀ event, Decidable (KeepsToItself settings s event)
  | ⟨some _, .set _ _⟩ => inferInstanceAs (Decidable (_ ∧ ∃ v ∈ s.process.store _, _))
  | ⟨some _, .deleteProperty _⟩ =>
    inferInstanceAs (Decidable (_ ∧ (_ → _ ∧ ∃ v ∈ s.process.store _, _)))
  | ⟨none, .set _ _⟩ => inferInstanceAs (Decidable (_ → ∀ id < s.process.scopes.length, _))
  | ⟨none, .runWithVariables _⟩ | ⟨none, .deleteProperty _⟩ | ⟨none, .get _⟩ | ⟨none, .has _⟩
  | ⟨none, .ownKeys⟩ | ⟨none, .getOwnPropertyDescriptor _⟩ | ⟨some _, .runWithVariables _⟩
  | ⟨some _, .get _⟩ | ⟨some _, .has _⟩ | ⟨some _, .ownKeys⟩
  | ⟨some _, .getOwnPropertyDescriptor _⟩ => .isTrue trivial

namespace Sample

def real : Variables := ⟨[("TABLE", "real"), ("PATH", "/bin")], by decide⟩

def strict : Settings := { strict := true, allowed := ["STAGE"] }

/-- Two callbacks at once and one inside the first, which deletes a variable that is hidden. -/
def nested : List Event :=
  [⟨none, .runWithVariables ⟨[("TABLE", "first"), ("EMPTY", "")], by decide⟩⟩,
    ⟨none, .runWithVariables ⟨[("TABLE", "second")], by decide⟩⟩,
    ⟨some 0, .runWithVariables ⟨[("toString", "text")], by decide⟩⟩,
    ⟨some 2, .set "TABLE" "third"⟩,
    ⟨some 0, .deleteProperty "TABLE"⟩,
    ⟨some 2, .set "toString" "other"⟩,
    ⟨none, .set "TABLE" "changed"⟩]

theorem nested_isSome : ((emulator real).run nested (emulator real).init).isSome = true := by
  decide +kernel

theorem nested_ownEnvironment : ∃ s, (emulator real).run nested (emulator real).init = some s ∧
    (∀ id < s.process.scopes.length, ∀ name,
      Agrees strict s.process id name ↔ IsReadable strict s.process id name) ∧
    Remembers strict s ∧
    ∀ event t, KeepsToItself strict s event → (emulator real).step s event = some t →
      IsIsolated strict s.process event :=
  ⟨_, (Option.some_get nested_isSome).symm,
    runWithVariables_ownEnvironment (by decide +kernel) (Option.some_get nested_isSome).symm⟩

/-- What the callbacks read after it. -/
example : ((emulator real).run nested (emulator real).init).map (fun s =>
      ([0, 1, 2].map (fun id => s.process.get strict (some id) "TABLE"),
        s.process.ownKeys strict (some 2), s.process.get strict none "TABLE")) =
    some ([none, some (.text "second"), some (.text "third")], ["PATH", "TABLE", "toString"],
      some (.text "changed")) := by
  decide +kernel

def concurrent : List Event := [⟨none, .runWithVariables ∅⟩, ⟨none, .runWithVariables ∅⟩]

theorem concurrent_isSome : ((emulator ∅).run concurrent (emulator ∅).init).isSome = true := by
  decide +kernel

/-- A variable that the first callback does not declare is written to the real environment. -/
theorem concurrent_leaks : ∃ s, (emulator ∅).run concurrent (emulator ∅).init = some s ∧
    s.process.get {} (some 1) "TABLE" = none ∧
    (s.process.set (some 0) "TABLE" "first").get {} (some 1) "TABLE" = some (.text "first") ∧
    ¬ IsIsolated {} s.process ⟨some 0, .set "TABLE" "first"⟩ := by
  refine ⟨_, (Option.some_get concurrent_isSome).symm, by decide +kernel, by decide +kernel,
    fun h => ?_⟩
  have hsame := (h 0 rfl rfl (some 1) fun other hother hwithin => ?_).get "TABLE"
  · exact absurd hsame (by decide +kernel)
  · obtain rfl := Option.some.inj hother
    cases hwithin with
    | nested hscope hparent _ =>
      obtain rfl := Option.some.inj hscope
      cases hparent

end Sample

end Ez4.Project.Environment

import Ez4.Project.LinkedContexts

/-! # What a target gets of its linked services

The variables of every service the target reaches, and the graph of their
contexts. -/
namespace Ez4.Project.LinkedServices
open Ez4.Library

variable {Opt R V Key : Type} {answer : Target Opt → Replies Opt R V} {linkedKey : String → R → Key}
  {services : Links Opt} {target : Target Opt} {ref : Reference Opt} {source : Source Opt R V}
  {vars : Variables V}

/-! ## Services that are reached -/

variable (answer) in
/-- The references that are met from the services, each with its target, through the answers. -/
inductive Reaches (services : Links Opt) : Target Opt → Reference Opt → Prop
  | start {link : String × Reference Opt} (h : link ∈ services.values) :
      Reaches services none link.2
  | inner {target : Target Opt} {ref : Reference Opt} {source : Source Opt R V} {links : Links Opt}
      {link : String × Reference Opt} (h : Reaches services target ref)
      (hsource : answer target ref = some source) (hservices : source.services = some links)
      (hlink : link ∈ links.values) : Reaches services (some ref) link.2

variable (answer) in
/-- The variables of a service that is reached. -/
def Brings (services : Links Opt) (vars : Variables V) : Prop :=
  ∃ target ref source, Reaches answer services target ref ∧ answer target ref = some source ∧
    source.vars = some vars

theorem isClosed_reaches : IsClosed answer (Reaches answer services) :=
  fun _ _ _ _ h hsource hservices _ hlink => .inner h hsource hservices hlink

/-- No variable is skipped by a context that was cached. -/
theorem mem_assigned_of_reaches {stands : Standing Opt R V} {here : Contexts R} {t : State R V Key}
    (h : Kept answer linkedKey (Reaches answer services) stands (fun _ => False) t)
    (hlinked : IsLinked answer (answer none) stands here services.values)
    (hassigned : IsAssigned (answer none) t.assigned services.values)
    (href : Reaches answer services target ref) (hsource : answer target ref = some source)
    (hvars : source.vars = some vars) : vars ∈ t.assigned := by
  have hbuilt : ∃ (links : Links Opt) (found : Contexts R) (link : String × Reference Opt),
      IsLinked answer (answer target) stands found links.values ∧
        IsAssigned (answer target) t.assigned links.values ∧ link ∈ links.values ∧
          link.2 = ref := by
    clear hsource hvars
    induction href with
    | start hlink => exact ⟨services, here, _, hlinked, hassigned, hlink, rfl⟩
    | inner _ hsource hservices hlink ih =>
      obtain ⟨links, found, link, hfound, -, hmem, rfl⟩ := ih
      obtain ⟨context, -, hstands⟩ := hfound.entry link hmem _ hsource
      rcases hstands with ⟨-, hnone⟩ | ⟨address, inner, -, hinner, hstands⟩
      · rw [hservices] at hnone
        cases hnone
      · obtain rfl := Option.some.inj (hservices.symm.trans hinner)
        obtain ⟨⟨below, -, hbelow⟩, hvars⟩ := (h.filled address _ _ hstands).resolve_left id
        exact ⟨_, below, _, hbelow, hvars, hlink, rfl⟩
  obtain ⟨links, -, link, -, hbefore, hmem, rfl⟩ := hbuilt
  exact hbefore link hmem source vars hsource hvars

/-! ## Assignments -/

section
variable {held after : Variables V} {entries : List (String × V)} {e : VariablesError}

/-- Some entries give one name different values. -/
def HasConflict (given : String × V → Prop) : Prop :=
  ∃ name value other, value ≠ other ∧ given (name, value) ∧ given (name, other)

theorem get?_set_iff {entry other : String × V}
    (h : held.get? entry.1 = none ∨ held.get? entry.1 = some entry) :
    (held.set entry).get? other.1 = some other ↔
      held.get? other.1 = some other ∨ other = entry := by
  rw [KeyedMap.get?_set]
  by_cases hname : entry.1 = other.1
  · rw [if_pos hname, Option.some.injEq]
    constructor
    · exact fun h => .inr h.symm
    · rintro (hother | rfl)
      · rw [← hname] at hother
        rcases h with h | h
        · rw [h] at hother
          cases hother
        · exact Option.some.inj (h.symm.trans hother)
      · rfl
  · rw [if_neg hname]
    exact (or_iff_left fun h : other = entry => hname (by rw [h])).symm

variable [DecidableEq V]

theorem assignOne_cases (held : Variables V) (entry : String × V) :
    (assignOne held entry = .ok (held.set entry) ∧
      (held.get? entry.1 = none ∨ held.get? entry.1 = some entry)) ∨
    (assignOne held entry = .error (.duplicate entry.1) ∧
      ∃ other, other ≠ entry.2 ∧ held.get? entry.1 = some (entry.1, other)) := by
  cases hget : held.get? entry.1 with
  | none => exact .inl ⟨by rw [assignOne, hget], .inl rfl⟩
  | some other =>
    have hname : other.1 = entry.1 := KeyedMap.key_of_get? hget
    by_cases hvalue : other.2 = entry.2
    · exact .inl ⟨by rw [assignOne, hget]; exact if_pos hvalue,
        .inr (congrArg some (Prod.ext hname hvalue))⟩
    · exact .inr ⟨by rw [assignOne, hget]; exact if_neg hvalue, other.2, hvalue, by rw [← hname]⟩

theorem foldlM_assignOne_ok (h : entries.foldlM assignOne held = .ok after) (entry : String × V) :
    after.get? entry.1 = some entry ↔ held.get? entry.1 = some entry ∨ entry ∈ entries := by
  induction entries generalizing held with
  | nil =>
    cases h
    simp
  | cons first entries ih =>
    rw [List.foldlM_cons] at h
    rcases assignOne_cases held first with ⟨hone, hbefore⟩ | ⟨hone, -⟩
    · rw [hone] at h
      rw [ih h, get?_set_iff hbefore, List.mem_cons, or_assoc]
    · rw [hone] at h
      cases h

theorem foldlM_assignOne_error (h : entries.foldlM assignOne held = .error e) :
    HasConflict fun entry => held.get? entry.1 = some entry ∨ entry ∈ entries := by
  induction entries generalizing held with
  | nil => cases h
  | cons first entries ih =>
    rw [List.foldlM_cons] at h
    rcases assignOne_cases held first with ⟨hone, hbefore⟩ | ⟨hone, other, hne, hget⟩
    · rw [hone] at h
      obtain ⟨name, value, other, hne, hvalue, hother⟩ := ih h
      rw [get?_set_iff hbefore, or_assoc, ← List.mem_cons] at hvalue hother
      exact ⟨name, value, other, hne, hvalue, hother⟩
    · exact ⟨first.1, first.2, other, hne.symm, .inr List.mem_cons_self, .inl hget⟩

theorem foldlM_assign (lists : List (Variables V)) :
    lists.foldlM assignServiceVariables (some held) =
    ((lists.flatMap KeyedMap.values).foldlM assignOne held).map some := by
  induction lists generalizing held with
  | nil => rfl
  | cons vars lists ih =>
    rw [List.foldlM_cons, List.flatMap_cons, List.foldlM_append, assignServiceVariables]
    cases vars.values.foldlM assignOne held with
    | error e => rfl
    | ok after => exact ih

variable (answer) in
/-- A variable of the target or of a service it reaches. -/
def IsGiven (services : Links Opt) (held : Option (Variables V)) (entry : String × V) : Prop :=
  (held.bind fun before => before.get? entry.1) = some entry ∨
    ∃ vars, Brings answer services vars ∧ entry ∈ vars.values

/-- What becomes of the calls that were made for the services that are reached. -/
theorem foldlM_assigned {lists : List (Variables V)}
    (hlists : ∀ vars, vars ∈ lists ↔ Brings answer services vars)
    (held : Option (Variables V)) :
    (∀ after, lists.foldlM assignServiceVariables held = .ok after →
      ∀ entry, (after.bind fun found => found.get? entry.1) = some entry ↔
        IsGiven answer services held entry) ∧
    ((∃ e, lists.foldlM assignServiceVariables held = .error e) ↔
      HasConflict (IsGiven answer services held) ∨
        (held = none ∧ ∃ vars, Brings answer services vars)) := by
  cases held with
  | none =>
    have hgiven : ∀ entry, IsGiven answer services none entry ↔
        ∃ vars, Brings answer services vars ∧ entry ∈ vars.values :=
      fun entry => or_iff_right fun h => by cases h
    cases lists with
    | nil =>
      have hnone : ∀ vars, ¬ Brings answer services vars :=
        fun vars hvars => absurd ((hlists vars).mpr hvars) List.not_mem_nil
      refine ⟨fun after hafter entry => ?_, ?_⟩
      · cases hafter
        rw [hgiven]
        refine iff_of_false (fun h => by cases h) ?_
        rintro ⟨vars, hvars, -⟩
        exact hnone vars hvars
      · refine iff_of_false ?_ ?_
        · rintro ⟨e, he⟩
          cases he
        rintro (⟨name, value, other, -, hvalue, -⟩ | ⟨-, vars, hvars⟩)
        · obtain ⟨vars, hvars, -⟩ := (hgiven _).mp hvalue
          exact hnone vars hvars
        · exact hnone vars hvars
    | cons vars lists =>
      have herror : (vars :: lists).foldlM assignServiceVariables none =
          Except.error (α := Option (Variables V)) .missingSupport := rfl
      rw [herror]
      refine ⟨(fun after hafter => by cases hafter), iff_of_true ⟨_, rfl⟩ (.inr ⟨rfl, vars, ?_⟩)⟩
      exact (hlists vars).mp List.mem_cons_self
  | some held =>
    have hgiven : ∀ entry, IsGiven answer services (some held) entry ↔
        held.get? entry.1 = some entry ∨ entry ∈ lists.flatMap KeyedMap.values := by
      intro entry
      simp only [IsGiven, Option.bind_some, List.mem_flatMap, hlists]
    rw [foldlM_assign]
    cases hrun : (lists.flatMap KeyedMap.values).foldlM assignOne held with
    | ok after =>
      have hafter := fun entry => (foldlM_assignOne_ok hrun entry).trans (hgiven entry).symm
      refine ⟨fun found hfound entry => ?_, iff_of_false ?_ ?_⟩
      · cases hfound
        exact hafter entry
      · rintro ⟨e, he⟩
        cases he
      · rintro (⟨name, value, other, hne, hvalue, hother⟩ | ⟨hnone, -⟩)
        · have hvalue' : after.get? name = some (name, value) := (hafter (name, value)).mpr hvalue
          have hother' : after.get? name = some (name, other) := (hafter (name, other)).mpr hother
          exact hne (congrArg Prod.snd (Option.some.inj (hvalue'.symm.trans hother')))
        · cases hnone
    | error e =>
      obtain ⟨name, value, other, hne, hvalue, hother⟩ := foldlM_assignOne_error hrun
      refine ⟨(fun found hfound => by cases hfound), iff_of_true ⟨e, rfl⟩ (.inl ?_)⟩
      exact ⟨name, value, other, hne, (hgiven _).mpr hvalue, (hgiven _).mpr hother⟩

/-! ## The whole preparation -/

/-- **Sharing linked contexts changes nothing but their identity.** The preparation returns, its
graph of contexts unfolds to what the handlers answer without a cache, and the variables are those
of the target and of all services it reaches, unless two of them differ. -/
theorem prepareLinkedContext_unfolds [DecidableEq Key] (hkeys : KeysTellApart answer linkedKey)
    {keys : List Key} (hfinite : HasKeys answer linkedKey (Reaches answer services) keys)
    {fuel : Nat}
    (hfuel : keys.length < fuel) (held : Option (Variables V)) :
    ∃ result, prepareLinkedContext answer linkedKey fuel services held = some result ∧
      (∀ here contexts after, result = .ok (here, contexts, after) →
        (∀ name path, findContext contexts here name path =
          findSource answer none services name path) ∧
          ∀ entry, (after.bind fun found => found.get? entry.1) = some entry ↔
            IsGiven answer services held entry) ∧
      ((∃ e, result = .error e) ↔
        HasConflict (IsGiven answer services held) ∨
          (held = none ∧ ∃ vars, Brings answer services vars)) := by
  have hreaches : ∀ link ∈ services.values, Reaches answer services none link.2 := fun _ => .start
  have hfew : uncached keys ({} : State R V Key) < fuel :=
    Nat.lt_of_le_of_lt List.countP_le_length hfuel
  obtain ⟨here, t, hrun, -⟩ :=
    buildLinkedContexts_returns isClosed_reaches hfinite fuel none services {} hreaches hfew
  have hstart : Kept answer linkedKey (Reaches answer services) (fun _ => none) (fun _ => False)
      ({} : State R V Key) :=
    ⟨fun _ _ => rfl, (fun _ _ h => by cases h), (fun _ _ _ h => by cases h),
      fun _ h => absurd h List.not_mem_nil⟩
  obtain ⟨stands, hkept, -, hlinked, hassigned⟩ :=
    buildLinkedContexts_builds hkeys isClosed_reaches fuel none services {} _ _ here t
      hstart hreaches hrun
  have hlists : ∀ vars, vars ∈ t.assigned.reverse ↔ Brings answer services vars := by
    intro vars
    rw [List.mem_reverse]
    refine ⟨hkept.reached vars, ?_⟩
    rintro ⟨target, ref, source, href, hsource, hvars⟩
    exact mem_assigned_of_reaches hkept hlinked hassigned href hsource hvars
  obtain ⟨hok, herror⟩ := foldlM_assigned hlists held
  have hresult : prepareLinkedContext answer linkedKey fuel services held =
      some ((t.assigned.reverse.foldlM assignServiceVariables held).map fun after =>
        (here, t.contexts, after)) := by
    rw [prepareLinkedContext, hrun]
    rfl
  refine ⟨_, hresult, ?_, ?_⟩
  · intro found contexts after hresult
    cases hfold : t.assigned.reverse.foldlM assignServiceVariables held with
    | error e =>
      rw [hfold] at hresult
      cases hresult
    | ok vars =>
      rw [hfold] at hresult
      cases hresult
      exact ⟨fun name path => findContext_eq hkept path none services here name hlinked,
        hok after hfold⟩
  · rw [← herror]
    cases t.assigned.reverse.foldlM assignServiceVariables held with
    | error e => exact iff_of_true ⟨e, rfl⟩ ⟨e, rfl⟩
    | ok vars =>
      refine iff_of_false ?_ ?_ <;>
      · rintro ⟨e, he⟩
        cases he

end

/-! ## Services that refer to each other -/

namespace Sample

def linkTo (service : String) : Links Unit := (∅ : Links Unit).set (service, ⟨service, ()⟩)

def oneVariable (name value : String) : Variables String := (∅ : Variables String).set (name, value)

/-- Each of the two has the other as its linked service. -/
def answerEither : Target Unit → Replies Unit Unit String := fun _ ref =>
  match ref.service with
  | "orders" => some ⟨(), some (linkTo "stock"), some (oneVariable "REGION" "west")⟩
  | "stock" => some ⟨(), some (linkTo "orders"), some (oneVariable "REGION" "west")⟩
  | _ => none

def keyByName (service : String) (_ : Unit) : String := service

theorem service_of_answer {target : Target Unit} {ref : Reference Unit}
    {source : Source Unit Unit String}
    (h : answerEither target ref = some source) :
    ref.service = "orders" ∨ ref.service = "stock" := by
  rw [answerEither] at h
  split at h
  · exact .inl ‹_›
  · exact .inr ‹_›
  · cases h

theorem keyByName_tellsApart : KeysTellApart answerEither keyByName := by
  intro target ref source target' ref' source' hsource hsource' hkey
  have hservice : ref.service = ref'.service := hkey
  have href : ref = ref' := by
    cases ref
    cases ref'
    cases hservice
    rfl
  subst href
  have hsame : source = source' := Option.some.inj (hsource.symm.trans hsource')
  exact ⟨by rw [hsame], fun _ _ => rfl⟩

theorem keyByName_finite (services : Links Unit) :
    HasKeys answerEither keyByName (Reaches answerEither services) ["orders", "stock"] := by
  intro target ref source links _ hsource _
  rcases service_of_answer hsource with h | h <;> rw [keyByName, h] <;> decide

theorem orders_unfold : ∃ result,
    prepareLinkedContext answerEither keyByName 3 (linkTo "orders")
      (some (oneVariable "STAGE" "dev")) =
        some result ∧
      (∀ here contexts after, result = .ok (here, contexts, after) →
        (∀ name path, findContext contexts here name path =
          findSource answerEither none (linkTo "orders") name path) ∧
          ∀ entry, (after.bind fun found => found.get? entry.1) = some entry ↔
            IsGiven answerEither (linkTo "orders") (some (oneVariable "STAGE" "dev")) entry) ∧
      ((∃ e, result = .error e) ↔
        HasConflict (IsGiven answerEither (linkTo "orders") (some (oneVariable "STAGE" "dev"))) ∨
          (some (oneVariable "STAGE" "dev") = none ∧
            ∃ vars, Brings answerEither (linkTo "orders") vars)) :=
  prepareLinkedContext_unfolds keyByName_tellsApart (keyByName_finite _) (by decide) _

/-- Around the circle and back, through the one context that was built for each. -/
example : (prepareLinkedContext answerEither keyByName 3 (linkTo "orders") (some ∅)).map
    (fun result => result.toOption.bind fun done =>
      findContext done.2.1 done.1 "orders" ["stock", "orders", "stock"]) =
        some (some ((), true)) := by
  decide

end Sample

end Ez4.Project.LinkedServices

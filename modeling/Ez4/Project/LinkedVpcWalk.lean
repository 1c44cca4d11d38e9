import Mathlib.Data.List.FinRange
import Ez4.Project.LinkedVpc

/-! # What the walk over linked contexts misses

Every name is looked at once, and a loop that comes to a name looked at before
ends there. As long as the walk has answered nothing but `false`, each loop it
entered has gone through all of its names or ended at one found elsewhere. -/
namespace Ez4.Project.LinkedVpc
open Ez4.Utils

variable {n : Nat} {contexts : Contexts n} {start loop other : Loop n} {name : String}

/-! ## Use -/

theorem Uses.trans {inner : Fin n} {linked : LinkedContext n} {inside : String}
    (h : name ∈ serviceNames contexts loop) (hlinked : linkedContext contexts loop name = some linked)
    (hinner : linked.context = some inner) (huses : Uses contexts (inner, none) other inside) :
    Uses contexts loop other inside := by
  induction huses with
  | start hmem => exact .nested (.start h) hlinked hinner hmem
  | nested _ hlinked hinner hmem ih => exact .nested ih hlinked hinner hmem

theorem NeedsVpc.requires (h : NeedsVpc contexts loop name)
    (hmem : name ∈ serviceNames contexts loop) : Requires contexts loop := by
  obtain ⟨linked, hlinked, hvpc | ⟨inner, hinner, deep, inside, found, huses, hfound, hvpc⟩⟩ := h
  · exact ⟨loop, name, linked, .start hmem, hlinked, hvpc⟩
  · exact ⟨deep, inside, found, huses.trans hmem hlinked hinner, hfound, hvpc⟩

/-- The names of a record are found in it. -/
theorem linkedContext_of_mem {inner : Fin n} (h : name ∈ serviceNames contexts (inner, none)) :
    ∃ linked, linkedContext contexts (inner, none) name = some linked := by
  obtain ⟨⟨key, linked⟩, hentry, rfl⟩ := List.mem_map.mp h
  cases hfound : linkedContext contexts (inner, none) key with
  | some linked => exact ⟨linked, rfl⟩
  | none => simpa using List.lookup_eq_none_iff.mp hfound _ hentry

/-! ## Names seen before -/

theorem find_eq {cache : Cache} (hplain : name ∉ objectPrototypeNames) :
    cache.find name = (List.lookup name cache).map .own := by
  unfold Cache.find property
  dsimp only
  cases List.lookup name cache with
  | some value => rfl
  | none => simp [hplain]

/-- How many of the names are not in the cache. -/
def unseen (names : List String) (cache : Cache) : Nat :=
  names.countP fun name => (List.lookup name cache).isNone

theorem unseen_mono {names : List String} {cache more : Cache}
    (h : ∀ name, List.lookup name more = none → List.lookup name cache = none) :
    unseen names more ≤ unseen names cache := by
  refine List.countP_mono_left fun name _ hname => ?_
  rw [Option.isNone_iff_eq_none] at hname ⊢
  exact h name hname

theorem lookup_cons_eq_none {cache : Cache} {value : Bool} {key : String}
    (h : List.lookup name ((key, value) :: cache) = none) :
    name ≠ key ∧ List.lookup name cache = none := by
  rw [List.lookup_cons] at h
  split at h
  · cases h
  · rename_i hne
    exact ⟨by simpa using hne, h⟩

theorem unseen_cons_lt {names : List String} {cache : Cache} {value : Bool} (hmem : name ∈ names)
    (hnew : List.lookup name cache = none) :
    unseen names ((name, value) :: cache) < unseen names cache := by
  obtain ⟨before, after, rfl⟩ := List.append_of_mem hmem
  have hmono : ∀ names, unseen names ((name, value) :: cache) ≤ unseen names cache :=
    fun _ => unseen_mono fun _ h => (lookup_cons_eq_none h).2
  have hbefore := hmono before
  have hafter := hmono after
  simp only [unseen, List.countP_append, List.countP_cons] at hbefore hafter ⊢
  rw [if_neg (by simp), if_pos (by simp [hnew])]
  omega

/-! ## Where the walk has been -/

section
variable (contexts start)

/-- What holds of the cache, given the services looked at so far and the loops
entered, while the walk has answered nothing but `false`. -/
structure Kept (visited : Loop n → String → Prop) (entered : Loop n → Prop) (cache : Cache) :
    Prop where
  seen : ∀ name, (∃ value, List.lookup name cache = some value) ↔ ∃ loop, visited loop name
  quiet : ∀ name, List.lookup name cache ≠ some true
  used : ∀ loop name, visited loop name → Uses contexts start loop name
  loops : ∀ loop name, visited loop name → entered loop
  heads : ∀ loop head tail, entered loop → serviceNames contexts loop = head :: tail →
    ∃ other, visited other head

/-- A service that does not require the VPC, whose inner loop has been entered. -/
def Quiet (entered : Loop n → Prop) (loop : Loop n) (name : String) : Prop :=
  ∃ linked, linkedContext contexts loop name = some linked ∧ linked.requireVpc ≠ some true ∧
    ∀ inner, linked.context = some inner → entered (inner, none)

/-- A loop went through its names, up to the first that was looked at in another one. -/
def Done (visited : Loop n → String → Prop) (loop : Loop n) : Prop :=
  ∃ before after, serviceNames contexts loop = before ++ after ∧
    (∀ name ∈ before, visited loop name) ∧
    ∀ name ∈ after.head?, ∃ other, other ≠ loop ∧ visited other name

/-- What a part of the walk adds, while it is `doing` some loop. -/
structure Grown (visited : Loop n → String → Prop) (entered : Loop n → Prop)
    (visited' : Loop n → String → Prop) (entered' : Loop n → Prop) (doing : Loop n → Prop) :
    Prop where
  keepsVisited : ∀ loop name, visited loop name → visited' loop name
  keepsEntered : ∀ loop, entered loop → entered' loop
  fresh : ∀ loop name, visited' loop name → ¬ visited loop name →
    ¬ entered loop ∧ Quiet contexts entered' loop name
  done : ∀ loop, entered' loop → ¬ entered loop → ¬ doing loop → Done contexts visited' loop

end

section
variable {visited visited₁ visited₂ : Loop n → String → Prop}
  {entered entered₁ entered₂ doing : Loop n → Prop} {cache : Cache}

theorem Quiet.mono (h : Quiet contexts entered loop name)
    (hmono : ∀ loop, entered loop → entered₁ loop) : Quiet contexts entered₁ loop name := by
  obtain ⟨linked, hlinked, hvpc, hinner⟩ := h
  exact ⟨linked, hlinked, hvpc, fun inner h => hmono _ (hinner inner h)⟩

theorem Done.mono (h : Done contexts visited loop)
    (hmono : ∀ loop name, visited loop name → visited₁ loop name) :
    Done contexts visited₁ loop := by
  obtain ⟨before, after, hnames, hbefore, hcut⟩ := h
  refine ⟨before, after, hnames, fun name hname => hmono _ _ (hbefore name hname), ?_⟩
  intro name hname
  obtain ⟨other, hne, hother⟩ := hcut name hname
  exact ⟨other, hne, hmono _ _ hother⟩

theorem Grown.refl : Grown contexts visited entered visited entered doing :=
  ⟨fun _ _ h => h, fun _ h => h, fun _ _ h hnot => absurd h hnot, fun _ h hnot => absurd h hnot⟩

/-- The cache forgets no name. -/
theorem Kept.lookup_mono {more : Cache} (h : Kept contexts start visited entered cache)
    (h' : Kept contexts start visited₁ entered₁ more)
    (hmono : ∀ loop name, visited loop name → visited₁ loop name) (name : String)
    (hnew : List.lookup name more = none) : List.lookup name cache = none := by
  cases hfound : List.lookup name cache with
  | none => rfl
  | some value =>
    obtain ⟨loop, hloop⟩ := (h.seen name).mp ⟨value, hfound⟩
    obtain ⟨value', hvalue⟩ := (h'.seen name).mpr ⟨loop, hmono _ _ hloop⟩
    rw [hnew] at hvalue
    cases hvalue

/-- What a cached name answers is `false`. -/
theorem Kept.find {answer : Answer} (h : Kept contexts start visited entered cache)
    (hplain : name ∉ objectPrototypeNames) (hfound : cache.find name = some answer) :
    answer = .own false ∧ ∃ other, visited other name := by
  rw [find_eq hplain] at hfound
  obtain ⟨value, hvalue, rfl⟩ := Option.map_eq_some_iff.mp hfound
  refine ⟨?_, (h.seen name).mp ⟨value, hvalue⟩⟩
  cases value with
  | false => rfl
  | true => exact absurd hvalue (h.quiet name)

/-- Looking at one more service. -/
theorem Kept.visit (h : Kept contexts start visited entered cache)
    (huses : Uses contexts start loop name)
    (hhead : ∀ head tail, serviceNames contexts loop = head :: tail →
      head = name ∨ ∃ other, visited other head) :
    Kept contexts start (fun l m => visited l m ∨ l = loop ∧ m = name)
      (fun l => entered l ∨ l = loop) ((name, false) :: cache) := by
  refine ⟨fun m => ?_, fun m hm => ?_, ?_, ?_, ?_⟩
  · rw [List.lookup_cons]
    constructor
    · rintro ⟨value, hvalue⟩
      split at hvalue
      · rename_i heq
        exact ⟨loop, .inr ⟨rfl, by simpa using heq⟩⟩
      · obtain ⟨other, hother⟩ := (h.seen m).mp ⟨value, hvalue⟩
        exact ⟨other, .inl hother⟩
    · rintro ⟨other, hother | ⟨-, rfl⟩⟩
      · split
        · exact ⟨false, rfl⟩
        · exact (h.seen m).mpr ⟨other, hother⟩
      · exact ⟨false, by simp⟩
  · rw [List.lookup_cons] at hm
    split at hm
    · cases hm
    · exact h.quiet m hm
  · rintro l m (hv | ⟨rfl, rfl⟩)
    · exact h.used l m hv
    · exact huses
  · rintro l m (hv | ⟨rfl, -⟩)
    · exact .inl (h.loops l m hv)
    · exact .inr rfl
  · rintro l head tail (he | rfl) hnames
    · obtain ⟨other, hother⟩ := h.heads l head tail he hnames
      exact ⟨other, .inl hother⟩
    · rcases hhead head tail hnames with rfl | ⟨other, hother⟩
      · exact ⟨l, .inr ⟨rfl, rfl⟩⟩
      · exact ⟨other, .inl hother⟩

/-- A loop that ends is entered. -/
theorem Kept.enter (h : Kept contexts start visited entered cache)
    (hhead : ∀ head tail, serviceNames contexts loop = head :: tail →
      ∃ other, visited other head) :
    Kept contexts start visited (fun l => entered l ∨ l = loop) cache := by
  refine ⟨h.seen, h.quiet, h.used, fun l m hv => .inl (h.loops l m hv), ?_⟩
  rintro l head tail (he | rfl) hnames
  · exact h.heads l head tail he hnames
  · exact hhead head tail hnames

/-- The loop being done has looked at one more service, and walked from it. -/
theorem Grown.visit {visited₀ : Loop n → String → Prop} {entered₀ : Loop n → Prop}
    (h : Grown contexts visited₀ entered₀ visited entered (· = loop)) (hnew : ¬ entered₀ loop)
    (h' : Grown contexts (fun l m => visited l m ∨ l = loop ∧ m = name)
      (fun l => entered l ∨ l = loop) visited₁ entered₁ fun _ => False)
    (hquiet : Quiet contexts entered₁ loop name) :
    Grown contexts visited₀ entered₀ visited₁ entered₁ (· = loop) := by
  refine ⟨fun l m hv => h'.keepsVisited l m (.inl (h.keepsVisited l m hv)),
    fun l he => h'.keepsEntered l (.inl (h.keepsEntered l he)), fun l m hv hnot => ?_,
    fun l he hnot hne => ?_⟩
  · by_cases hseen : visited l m
    · obtain ⟨hentered, hold⟩ := h.fresh l m hseen hnot
      exact ⟨hentered, hold.mono fun l he => h'.keepsEntered l (.inl he)⟩
    · by_cases hhere : l = loop ∧ m = name
      · obtain ⟨rfl, rfl⟩ := hhere
        exact ⟨hnew, hquiet⟩
      · obtain ⟨hentered, hfresh⟩ := h'.fresh l m hv (by tauto)
        exact ⟨fun he => hentered (.inl (h.keepsEntered l he)), hfresh⟩
  · by_cases hearlier : entered l
    · exact (h.done l hearlier hnot hne).mono fun l m hv => h'.keepsVisited l m (.inl hv)
    · exact h'.done l he (by tauto) not_false

/-- The loop being done ends. -/
theorem Grown.finish {visited₀ : Loop n → String → Prop} {entered₀ : Loop n → Prop}
    (h : Grown contexts visited₀ entered₀ visited entered (· = loop))
    (hdone : Done contexts visited loop) :
    Grown contexts visited₀ entered₀ visited (fun l => entered l ∨ l = loop) fun _ => False := by
  refine ⟨h.keepsVisited, fun l he => .inl (h.keepsEntered l he), fun l m hv hnot => ?_, ?_⟩
  · obtain ⟨hentered, hold⟩ := h.fresh l m hv hnot
    exact ⟨hentered, hold.mono fun l => .inl⟩
  · rintro l (he | rfl) hnot -
    · by_cases hl : l = loop
      · exact hl ▸ hdone
      · exact h.done l he hnot hl
    · exact hdone

end

/-! ## The walk -/

section
variable (contexts start)

/-- What a walk from a loop comes to. -/
def Answered (visited : Loop n → String → Prop) (entered : Loop n → Prop) (loop : Loop n)
    (walk : Walk) : Prop :=
  (∃ cache, walk = .ok (.own true, cache) ∧ Requires contexts loop) ∨
  ∃ cache visited' entered', walk = .ok (.own false, cache) ∧
    Kept contexts start visited' entered' cache ∧
    Grown contexts visited entered visited' entered' (fun _ => False) ∧ entered' loop

end

section
variable (hplain : ∀ loop name, Uses contexts start loop name → name ∉ objectPrototypeNames)
  {items : List String} (hitems : ∀ loop name, Uses contexts start loop name → name ∈ items)
include hplain hitems

theorem walkServices_answered {walk : Loop n → Cache → Walk} {bound : Nat}
    (hwalk : ∀ (inner : Fin n) (visited : Loop n → String → Prop) (entered : Loop n → Prop)
      (cache : Cache),
      (∀ name ∈ serviceNames contexts (inner, none), Uses contexts start (inner, none) name) →
      Kept contexts start visited entered cache → unseen items cache < bound →
      Answered contexts start visited entered (inner, none) (walk (inner, none) cache))
    (huses : ∀ name ∈ serviceNames contexts loop, Uses contexts start loop name)
    (hfound : ∀ name ∈ serviceNames contexts loop,
      ∃ linked, linkedContext contexts loop name = some linked)
    {visited₀ : Loop n → String → Prop} {entered₀ : Loop n → Prop} (hnew : ¬ entered₀ loop)
    {before names : List String} (hnames : serviceNames contexts loop = before ++ names)
    {visited : Loop n → String → Prop} {entered : Loop n → Prop} {cache : Cache}
    (hkept : Kept contexts start visited entered cache)
    (hgrown : Grown contexts visited₀ entered₀ visited entered (· = loop))
    (hvisited : ∀ m, visited loop m ↔ m ∈ before) (hfuel : unseen items cache < bound + 1) :
    Answered contexts start visited₀ entered₀ loop
      (walkServices contexts walk loop names cache) := by
  have hnodup : (serviceNames contexts loop).Nodup := (loop.2.getD (contexts loop.1).names).2
  induction names generalizing before visited entered cache with
  | nil =>
    have hdone : Done contexts visited loop :=
      ⟨before, [], hnames, fun m hm => (hvisited m).mpr hm, by simp⟩
    refine .inr ⟨cache, visited, _, rfl, hkept.enter fun head tail hhead => ⟨loop, ?_⟩,
      hgrown.finish hdone, .inr rfl⟩
    rw [hvisited, ← List.append_nil before, ← hnames, hhead]
    exact List.mem_cons_self
  | cons name names ih =>
    have hmem : name ∈ serviceNames contexts loop := by rw [hnames]; simp
    have hhead : ∀ head tail, serviceNames contexts loop = head :: tail →
        head = name ∨ ∃ other, visited other head := by
      intro head tail hhead
      rw [hnames] at hhead
      cases before with
      | nil => exact .inl (List.cons.inj hhead).1.symm
      | cons first before =>
        obtain rfl := (List.cons.inj hhead).1
        exact .inr ⟨loop, (hvisited _).mpr List.mem_cons_self⟩
    have hname := hplain loop name (huses name hmem)
    unfold walkServices
    cases hseen : cache.find name with
    | some answer =>
      -- the name was found in another loop, as no loop has a name twice
      obtain ⟨rfl, other, hother⟩ := hkept.find hname hseen
      have hne : other ≠ loop := by
        rintro rfl
        rw [hnames, List.nodup_append] at hnodup
        exact hnodup.2.2 name ((hvisited name).mp hother) name List.mem_cons_self rfl
      have hdone : Done contexts visited loop := by
        refine ⟨before, name :: names, hnames, fun m hm => (hvisited m).mpr hm, fun m hm => ?_⟩
        obtain rfl := Option.some.inj hm
        exact ⟨other, hne, hother⟩
      refine .inr ⟨cache, visited, _, rfl, hkept.enter fun head tail h => ?_,
        hgrown.finish hdone, .inr rfl⟩
      rcases hhead head tail h with rfl | hvisited
      · exact ⟨other, hother⟩
      · exact hvisited
    | none =>
      obtain ⟨linked, hlinked⟩ := hfound name hmem
      have hlookup : List.lookup name cache = none := by
        rw [find_eq hname] at hseen
        exact Option.map_eq_none_iff.mp hseen
      have hfewer : unseen items ((name, false) :: cache) < unseen items cache :=
        unseen_cons_lt (hitems loop name (huses name hmem)) hlookup
      cases hvpc : linked.requireVpc.getD false with
      | true =>
        have hrequire : linked.requireVpc = some true := by
          cases h : linked.requireVpc with
          | none => rw [h] at hvpc; cases hvpc
          | some value => rw [h] at hvpc; exact congrArg some hvpc
        refine .inl ⟨(name, true) :: cache, ?_,
          NeedsVpc.requires ⟨linked, hlinked, .inl hrequire⟩ hmem⟩
        simp only [hlinked, hvpc, if_true]
      | false =>
        have hno : linked.requireVpc ≠ some true := by
          intro h
          rw [h] at hvpc
          cases hvpc
        have hkept' := hkept.visit (huses name hmem) hhead
        have hnames' : serviceNames contexts loop = (before ++ [name]) ++ names := by
          rw [hnames, List.append_assoc, List.singleton_append]
        have hvisited' : ∀ m, (visited loop m ∨ loop = loop ∧ m = name) ↔ m ∈ before ++ [name] := by
          intro m
          simp [hvisited]
        simp only [hlinked, hvpc, Bool.false_eq_true, if_false]
        cases hcontext : linked.context with
        | none =>
          have hquiet : Quiet contexts (fun l => entered l ∨ l = loop) loop name :=
            ⟨linked, hlinked, hno, by simp [hcontext]⟩
          exact ih hnames' hkept' (hgrown.visit hnew .refl hquiet) hvisited' (by omega)
        | some inner =>
          have hinside : ∀ m ∈ serviceNames contexts (inner, none),
              Uses contexts start (inner, none) m :=
            fun m hm => .nested (huses name hmem) hlinked hcontext hm
          obtain ⟨more, hcall, hrequires⟩ | ⟨more, visited', entered', hcall, hmore, hinner, hentered⟩ :=
            hwalk inner _ _ _ hinside hkept' (by omega)
          · refine .inl ⟨more, ?_, NeedsVpc.requires
              ⟨linked, hlinked, .inr ⟨inner, hcontext, hrequires⟩⟩ hmem⟩
            simp only [hcall, Answer.isTruthy, if_true]
          · have hquiet : Quiet contexts entered' loop name := by
              refine ⟨linked, hlinked, hno, fun i hi => ?_⟩
              obtain rfl := Option.some.inj (hcontext.symm.trans hi)
              exact hentered
            have hfuel' : unseen items more ≤ unseen items ((name, false) :: cache) :=
              unseen_mono (hkept'.lookup_mono hmore hinner.keepsVisited)
            simp only [hcall, Answer.isTruthy, Bool.false_eq_true, if_false]
            refine ih hnames' hmore (hgrown.visit hnew hinner hquiet) (fun m => ?_) (by omega)
            rw [← hvisited' m]
            refine ⟨fun hv => ?_, hinner.keepsVisited loop m⟩
            -- nothing inside goes through this loop again
            by_contra hnot
            exact (hinner.fresh loop m hv hnot).1 (.inr rfl)

theorem isVpcRequired_answered {fuel : Nat}
    (huses : ∀ name ∈ serviceNames contexts loop, Uses contexts start loop name)
    (hfound : ∀ name ∈ serviceNames contexts loop,
      ∃ linked, linkedContext contexts loop name = some linked)
    {visited : Loop n → String → Prop} {entered : Loop n → Prop} {cache : Cache}
    (hkept : Kept contexts start visited entered cache) (hfuel : unseen items cache < fuel) :
    Answered contexts start visited entered loop (isVpcRequired contexts fuel loop cache) := by
  induction fuel generalizing loop visited entered cache with
  | zero => exact absurd hfuel (Nat.not_lt_zero _)
  | succ fuel ih =>
    unfold isVpcRequired
    by_cases hentered : entered loop
    · -- a loop entered before ends at its first name
      refine .inr ⟨cache, visited, entered, ?_, hkept, .refl, hentered⟩
      cases hnames : serviceNames contexts loop with
      | nil => rfl
      | cons head tail =>
        obtain ⟨other, hother⟩ := hkept.heads loop head tail hentered hnames
        obtain ⟨value, hvalue⟩ := (hkept.seen head).mpr ⟨other, hother⟩
        have hplain' := hplain loop head (huses head (by rw [hnames]; exact List.mem_cons_self))
        have hfind : cache.find head = some (.own value) := by rw [find_eq hplain', hvalue]; rfl
        obtain ⟨hfalse, -⟩ := hkept.find hplain' hfind
        unfold walkServices
        rw [hfind, hfalse]
    · refine walkServices_answered hplain hitems (fun inner visited entered cache hinner hkept hlt =>
        ih hinner (fun _ hm => linkedContext_of_mem hm) hkept hlt) huses hfound hentered
        (List.nil_append _).symm hkept .refl (fun m => ?_) hfuel
      simpa using fun hm => hentered (hkept.loops loop m hm)

end

/-- Where the walk from a loop has ended with `false`, a service in use is one it looked
at or one that needs no VPC. -/
theorem visited_or_not_needsVpc {visited : Loop n → String → Prop} {entered : Loop n → Prop}
    {cache : Cache} (hkept : Kept contexts start visited entered cache)
    (hgrown : Grown contexts (fun _ _ => False) (fun _ => False) visited entered fun _ => False)
    (hstart : entered start) (hkeeps : KeepsRequirements contexts start)
    (huses : Uses contexts start loop name) :
    visited loop name ∨ ¬ NeedsVpc contexts loop name := by
  have hloop : ∀ loop, entered loop →
      (∀ name ∈ serviceNames contexts loop, Uses contexts start loop name) →
      ∀ name ∈ serviceNames contexts loop, visited loop name ∨ ¬ NeedsVpc contexts loop name := by
    intro loop hentered huses name hmem
    obtain ⟨before, after, hnames, hbefore, hcut⟩ := hgrown.done loop hentered id id
    have hmem' := hmem
    rw [hnames, List.mem_append] at hmem'
    rcases hmem' with hmem' | hmem'
    · exact .inl (hbefore name hmem')
    · cases after with
      | nil => cases hmem'
      | cons cut after =>
        obtain ⟨other, hne, hother⟩ := hcut cut rfl
        have hcutmem : cut ∈ serviceNames contexts loop := by rw [hnames]; simp
        exact .inr (hkeeps.shared loop other cut hne.symm (huses cut hcutmem)
          (hkept.used other cut hother) before after hnames name hmem')
  induction huses with
  | start hmem => exact hloop start hstart (fun _ => .start) _ hmem
  | @nested loop name inside linked inner huses hlinked hinner hmem ih =>
    rcases ih with hvisited | hnot
    · obtain ⟨-, found, hfound, -, hentered⟩ := hgrown.fresh loop name hvisited id
      obtain rfl := Option.some.inj (hlinked.symm.trans hfound)
      exact hloop (inner, none) (hentered inner hinner)
        (fun _ hm => .nested huses hlinked hinner hm) _ hmem
    · exact .inr fun hneeds => hnot ⟨linked, hlinked, .inr ⟨inner, hinner, hneeds.requires hmem⟩⟩

/-- All names that a walk may come to. -/
def allNames (contexts : Contexts n) (start : Loop n) : List String :=
  serviceNames contexts start ++ (List.finRange n).flatMap fun inner =>
    serviceNames contexts (inner, none)

theorem Uses.mem_allNames (h : Uses contexts start loop name) : name ∈ allNames contexts start := by
  cases h with
  | start hmem => exact List.mem_append_left _ hmem
  | nested _ _ _ hmem =>
    exact List.mem_append_right _ (List.mem_flatMap.mpr ⟨_, List.mem_finRange _, hmem⟩)

namespace Sample

/-- A service inside an api that refers back to its own record. -/
def nested : Contexts 2
  | 0 => ⟨[("api", { requireVpc := none, context := some 1 })], by decide⟩
  | 1 => ⟨[("db", { requireVpc := some true, context := none }),
      ("self", { requireVpc := none, context := some 1 })], by decide⟩

theorem uses_nested {loop : Loop 2} {name : String} (h : Uses nested (0, none) loop name) :
    loop = (0, none) ∧ name = "api" ∨ loop = (1, none) ∧ (name = "db" ∨ name = "self") := by
  have hone : ∀ name ∈ serviceNames nested (1, none), name = "db" ∨ name = "self" := by decide
  induction h with
  | start hmem => exact .inl ⟨rfl, List.mem_singleton.mp hmem⟩
  | @nested loop name inside linked inner _ hlinked hinner hmem ih =>
    have hinner' : inner = 1 := by
      rcases ih with ⟨rfl, rfl⟩ | ⟨rfl, rfl | rfl⟩ <;>
        (obtain rfl := Option.some.inj hlinked; simpa using hinner.symm)
    exact .inr ⟨by rw [hinner'], hone inside (hinner' ▸ hmem)⟩

theorem nested_keepsRequirements : KeepsRequirements nested (0, none) := by
  refine ⟨fun loop name h => ?_, fun loop other name hne h h' => ?_⟩
  · rcases uses_nested h with ⟨-, rfl⟩ | ⟨-, rfl | rfl⟩ <;> decide
  · -- the two records have no name in common
    rcases uses_nested h with ⟨rfl, rfl⟩ | ⟨rfl, rfl | rfl⟩ <;>
      rcases uses_nested h' with ⟨rfl, hname⟩ | ⟨rfl, hname⟩ <;>
      first | exact absurd rfl hne | exact absurd hname (by decide)

/-- The api has a database of its own, under the name of another one. -/
def twoDatabases : Contexts 2
  | 0 => ⟨[("db", { requireVpc := none, context := none }),
      ("api", { requireVpc := none, context := some 1 })], by decide⟩
  | 1 => ⟨[("db", { requireVpc := some true, context := none })], by decide⟩

end Sample

end Ez4.Project.LinkedVpc

import Ez4.Project.LinkedServices

/-! # Shared contexts stand for the services they were built from

Every address of the heap stands for the services whose build it is. A cached
context is used again only where the key, and so the services, are the same. -/
namespace Ez4.Project.LinkedServices
open Ez4.Library

/-- What is answered for the linked services of one target. -/
abbrev Replies (Opt R V : Type) := Reference Opt → Option (Source Opt R V)

/-- The targets and services that the addresses of the heap stand for. -/
abbrev Standing (Opt R V : Type) := Nat → Option (Replies Opt R V × Links Opt)

variable {Opt R V Key : Type} {answer : Target Opt → Replies Opt R V} {linkedKey : String → R → Key}
  {stands stands' : Standing Opt R V} {reply : Replies Opt R V} {here : Contexts R}
  {links : List (String × Reference Opt)} {context : Option Nat} {services : Option (Links Opt)}
  {pending : Nat → Prop} {s t : State R V Key} {reaches : Target Opt → Reference Opt → Prop}
  {target : Target Opt} {link : String × Reference Opt} {source : Source Opt R V}

/-! ## What contexts stand for -/

def StandsFor (stands : Standing Opt R V) (context : Option Nat) (reply : Replies Opt R V)
    (services : Option (Links Opt)) : Prop :=
  (context = none ∧ services = none) ∨
    ∃ address links, context = some address ∧ services = some links ∧ stands address =
      some (reply, links)

def Extends (stands stands' : Standing Opt R V) : Prop :=
  ∀ address served, stands address = some served → stands' address = some served

theorem StandsFor.mono (h : StandsFor stands context reply services)
    (hmore : Extends stands stands') :
    StandsFor stands' context reply services := by
  rcases h with h | ⟨address, links, hcontext, hservices, hstands⟩
  · exact .inl h
  · exact .inr ⟨address, links, hcontext, hservices, hmore address _ hstands⟩

variable (answer reply) in
/-- A record has the linked contexts of some links. -/
structure IsLinked (stands : Standing Opt R V) (here : Contexts R)
    (links : List (String × Reference Opt)) : Prop where
  entry : ∀ link ∈ links, ∀ source, reply link.2 = some source → ∃ context,
    here.get? link.1 = some (link.1, ⟨source.remaining, context⟩) ∧
      StandsFor stands context (answer (some link.2)) source.services
  absent : ∀ name, (∀ link ∈ links, link.1 = name → reply link.2 = none) → here.get? name = none

theorem IsLinked.mono (h : IsLinked answer reply stands here links)
    (hmore : Extends stands stands') :
    IsLinked answer reply stands' here links where
  entry link hlink source hsource := by
    obtain ⟨context, hget, hstands⟩ := h.entry link hlink source hsource
    exact ⟨context, hget, hstands.mono hmore⟩
  absent := h.absent

theorem IsLinked.skip (h : IsLinked answer reply stands here links) (hnone : reply link.2 = none) :
    IsLinked answer reply stands here (links ++ [link]) where
  entry other hother source hsource := by
    rcases List.mem_append.mp hother with hother | hother
    · exact h.entry other hother source hsource
    · rw [List.mem_singleton.mp hother, hnone] at hsource
      cases hsource
  absent name hname := h.absent name fun other hother => hname other (List.mem_append_left _ hother)

theorem get?_set_other {entry : LinkedContext R} {key name : String} (h : key ≠ name) :
    (here.set (key, entry)).get? name = here.get? name :=
  KeyedMap.get?_set_of_ne h

theorem IsLinked.set (h : IsLinked answer reply stands here links)
    (hnew : link.1 ∉ links.map Prod.fst)
    (hsource : reply link.2 = some source)
    (hstands : StandsFor stands context (answer (some link.2)) source.services) :
    IsLinked answer reply stands (here.set (link.1, ⟨source.remaining, context⟩))
      (links ++ [link]) where
  entry other hother found hfound := by
    rcases List.mem_append.mp hother with hother | hother
    · obtain ⟨before, hget, hbefore⟩ := h.entry other hother found hfound
      have hne : link.1 ≠ other.1 := fun h => hnew (h ▸ List.mem_map_of_mem hother)
      exact ⟨before, by rw [get?_set_other hne, hget], hbefore⟩
    · obtain rfl := List.mem_singleton.mp hother
      obtain rfl := Option.some.inj (hsource.symm.trans hfound)
      exact ⟨context, KeyedMap.get?_set_self .., hstands⟩
  absent name hname := by
    have hne : link.1 ≠ name := by
      rintro rfl
      rw [hname link (List.mem_append_right _ (List.mem_singleton_self _)) rfl] at hsource
      cases hsource
    rw [get?_set_other hne]
    exact h.absent name fun other hother => hname other (List.mem_append_left _ hother)

variable (reply) in
/-- The variables of some links were assigned. -/
def IsAssigned (assigned : List (Variables V)) (links : List (String × Reference Opt)) : Prop :=
  ∀ link ∈ links, ∀ source vars, reply link.2 = some source → source.vars = some vars →
    vars ∈ assigned

theorem IsAssigned.mono {assigned more : List (Variables V)} (h : IsAssigned reply assigned links)
    (hmore : assigned ⊆ more) : IsAssigned reply more links :=
  fun link hlink source vars hsource hvars => hmore (h link hlink source vars hsource hvars)

/-! ## The invariant -/

variable (answer linkedKey reaches) in
/-- What holds of the heap and the cache while the contexts at some addresses are being built. -/
structure Kept (stands : Standing Opt R V) (pending : Nat → Prop) (s : State R V Key) : Prop where
  fresh : ∀ address, s.next ≤ address → stands address = none
  cached : ∀ key address, s.contextCache key = some address → ∃ target ref source links,
    answer target ref = some source ∧ linkedKey ref.service source.remaining = key ∧
      source.services = some links ∧ stands address = some (answer (some ref), links)
  filled : ∀ address reply links, stands address = some (reply, links) → pending address ∨
    (∃ here, s.contexts address = some here ∧ IsLinked answer reply stands here links.values) ∧
      IsAssigned reply s.assigned links.values
  reached : ∀ vars ∈ s.assigned, ∃ target ref source, reaches target ref ∧
    answer target ref = some source ∧ source.vars = some vars

/-- What a build leaves as it was. -/
structure Grown (stands : Standing Opt R V) (s : State R V Key) (stands' : Standing Opt R V)
    (t : State R V Key) : Prop where
  more : Extends stands stands'
  next : s.next ≤ t.next
  contexts : ∀ address, address < s.next → t.contexts address = s.contexts address
  assigned : s.assigned ⊆ t.assigned

theorem Grown.refl : Grown stands s stands s :=
  ⟨fun _ _ h => h, Nat.le_refl _, fun _ _ => rfl, List.Subset.refl _⟩

theorem Grown.trans {u : State R V Key} {stands'' : Standing Opt R V} (h : Grown stands s stands' t)
    (hmore : Grown stands' t stands'' u) : Grown stands s stands'' u where
  more address served hserved := hmore.more address served (h.more address served hserved)
  next := Nat.le_trans h.next hmore.next
  contexts address hlt := by
    rw [hmore.contexts address (Nat.lt_of_lt_of_le hlt h.next), h.contexts address hlt]
  assigned := List.Subset.trans h.assigned hmore.assigned

theorem subset_assign (vars : Option (Variables V)) : s.assigned ⊆ (s.assign vars).assigned :=
  List.subset_append_right _ _

theorem mem_assign {vars : Variables V} : vars ∈ (s.assign (some vars)).assigned :=
  List.mem_cons_self

theorem Kept.assign (h : Kept answer linkedKey reaches stands pending s)
    (hreaches : reaches target link.2)
    (hsource : answer target link.2 = some source) :
    Kept answer linkedKey reaches stands pending (s.assign source.vars) where
  fresh := h.fresh
  cached := h.cached
  filled address reply links hlinks :=
    (h.filled address reply links hlinks).imp_right fun hfilled =>
    ⟨hfilled.1, hfilled.2.mono (subset_assign _)⟩
  reached vars hvars := by
    rcases List.mem_append.mp hvars with hvars | hvars
    · exact ⟨target, link.2, source, hreaches, hsource, by simpa using hvars⟩
    · exact h.reached vars hvars

theorem Grown.assign (h : Grown stands s stands' t) (vars : Option (Variables V)) :
    Grown stands s stands' (t.assign vars) where
  more := h.more
  next := h.next
  contexts := h.contexts
  assigned := List.Subset.trans h.assigned (subset_assign vars)

theorem IsAssigned.assign (h : IsAssigned reply s.assigned links)
    (hsource : reply link.2 = some source) :
    IsAssigned reply (s.assign source.vars).assigned (links ++ [link]) := by
  intro other hother found vars hfound hvars
  rcases List.mem_append.mp hother with hother | hother
  · exact subset_assign _ (h other hother found vars hfound hvars)
  · rw [List.mem_singleton.mp hother, hsource] at hfound
    obtain rfl := Option.some.inj hfound
    rw [hvars]
    exact mem_assign

/-! ## One link -/

theorem allocate_stands (hfresh : stands s.next = none) (served : Replies Opt R V × Links Opt) :
    Extends stands (put stands s.next (some served)) := by
  intro address before hlinks
  have hne : address ≠ s.next := by
    rintro rfl
    rw [hfresh] at hlinks
    cases hlinks
  rw [put_of_ne _ _ _ hne, hlinks]

/-- The context that was being built is filled with what its build has come to. -/
theorem Kept.fill {address : Nat} {services : Links Opt}
    (h : Kept answer linkedKey reaches stands (fun other => pending other ∨ other = address) s)
    (hstands : stands address = some (reply, services))
    (hlinked : IsLinked answer reply stands here services.values)
    (hassigned : IsAssigned reply s.assigned services.values) :
    Kept answer linkedKey reaches stands pending (s.fill address here) where
  fresh := h.fresh
  cached := h.cached
  filled other found links hlinks := by
    by_cases hother : other = address
    · rw [hother, hstands] at hlinks
      cases hlinks
      exact .inr ⟨⟨here, by rw [hother]; exact put_self _ _ _, hlinked⟩, hassigned⟩
    · rcases h.filled other found links hlinks with
        (hpending | hsame) | ⟨⟨found, hfound, hbefore⟩, hvars⟩
      · exact .inl hpending
      · exact absurd hsame hother
      · exact .inr ⟨⟨found, (put_of_ne _ _ _ hother).trans hfound, hbefore⟩, hvars⟩
  reached := h.reached

section
variable [DecidableEq Key]

theorem Kept.allocate (h : Kept answer linkedKey reaches stands pending s) {services : Links Opt}
    (hsource : answer target link.2 = some source) (hservices : source.services = some services) :
    Kept answer linkedKey reaches (put stands s.next (some (answer (some link.2), services)))
      (fun address => pending address ∨ address = s.next)
      (s.allocate (linkedKey link.2.service source.remaining)) := by
  have hmore := allocate_stands (h.fresh s.next (Nat.le_refl _)) (answer (some link.2), services)
  refine ⟨fun address hle => ?_, fun key address hcached => ?_,
    fun address reply links hlinks => ?_, h.reached⟩
  · change s.next + 1 ≤ address at hle
    rw [put_of_ne _ _ _ (by omega)]
    exact h.fresh address (by omega)
  · rcases (put_eq_some_iff s.contextCache _).mp hcached with ⟨rfl, rfl⟩ | ⟨-, hcached⟩
    · exact ⟨target, link.2, source, services, hsource, rfl, hservices, put_self _ _ _⟩
    · obtain ⟨other, ref, found, links, hfound, hkey, hlinks, hstands⟩ :=
        h.cached key address hcached
      exact ⟨other, ref, found, links, hfound, hkey, hlinks, hmore address _ hstands⟩
  · rcases (put_eq_some_iff stands s.next).mp hlinks with ⟨rfl, -⟩ | ⟨hne, hlinks⟩
    · exact .inl (.inr rfl)
    · refine (h.filled address reply links hlinks).imp .inl fun hfilled => ?_
      obtain ⟨⟨here, hhere, hlinked⟩, hassigned⟩ := hfilled
      refine ⟨⟨here, ?_, hlinked.mono hmore⟩, hassigned⟩
      exact (put_of_ne _ _ _ hne).trans hhere

variable (answer linkedKey) in
/-- The hash tells services apart whose own services differ, or what is answered for them. -/
def KeysTellApart : Prop :=
  ∀ target ref source target' ref' source', answer target ref = some source →
    answer target' ref' = some source' →
      linkedKey ref.service source.remaining = linkedKey ref'.service source'.remaining →
        source.services = source'.services ∧
          ∀ links, source.services = some links → answer (some ref) = answer (some ref')

variable (answer reaches) in
/-- What a reference reaches, its services reach. -/
def IsClosed : Prop :=
  ∀ target ref source links, reaches target ref → answer target ref = some source →
    source.services = some links → ∀ link ∈ links.values, reaches (some ref) link.2

variable (answer linkedKey reaches) in
/-- What a build comes to, whatever it starts from. -/
def Builds
    (build : Target Opt → Links Opt → State R V Key → Option (Contexts R × State R V Key)) : Prop :=
  ∀ target services s stands pending here t, Kept answer linkedKey reaches stands pending s →
    (∀ link ∈ services.values, reaches target link.2) → build target services s = some (here, t) →
      ∃ stands', Kept answer linkedKey reaches stands' pending t ∧ Grown stands s stands' t ∧
        IsLinked answer (answer target) stands' here services.values ∧
          IsAssigned (answer target) t.assigned services.values

variable {build : Target Opt → Links Opt → State R V Key → Option (Contexts R × State R V Key)}

theorem linkOne_kept (hkeys : KeysTellApart answer linkedKey) (hclosed : IsClosed answer reaches)
    (hbuild : Builds answer linkedKey reaches build)
    (h : Kept answer linkedKey reaches stands pending s)
    (hlinked : IsLinked answer (answer target) stands here links)
    (hassigned : IsAssigned (answer target) s.assigned links) (hnew : link.1 ∉ links.map Prod.fst)
    (hreaches : reaches target link.2) {here' : Contexts R}
    (hone : linkOne answer linkedKey build target (here, s) link = some (here', t)) :
    ∃ stands', Kept answer linkedKey reaches stands' pending t ∧ Grown stands s stands' t ∧
      IsLinked answer (answer target) stands' here' (links ++ [link]) ∧
        IsAssigned (answer target) t.assigned (links ++ [link]) := by
  rw [linkOne] at hone
  split at hone
  · next hnone =>
    cases hone
    refine ⟨stands, h, .refl, hlinked.skip hnone, fun other hother source vars hsource hvars => ?_⟩
    rcases List.mem_append.mp hother with hother | hother
    · exact hassigned other hother source vars hsource hvars
    · rw [List.mem_singleton.mp hother, hnone] at hsource
      cases hsource
  · next source hsource =>
    dsimp only at hone
    split at hone
    · next address hcached =>
      -- the services of a cached context are those of the link
      cases hone
      obtain ⟨other, ref, found, sub, hfound, hkey, hsub, hstands⟩ := h.cached _ _ hcached
      obtain ⟨hservices, hreplies⟩ := hkeys _ _ _ _ _ _ hsource hfound hkey.symm
      have hsame := hservices.trans hsub
      rw [← hreplies sub hsame] at hstands
      exact ⟨stands, h.assign hreaches hsource, Grown.refl.assign _,
        hlinked.set hnew hsource (.inr ⟨address, sub, rfl, hsame, hstands⟩),
        hassigned.assign hsource⟩
    · next hcached hservices =>
      cases hone
      exact ⟨stands, h.assign hreaches hsource, Grown.refl.assign _,
        hlinked.set hnew hsource (.inl ⟨rfl, hservices⟩), hassigned.assign hsource⟩
    · next services hcached hservices =>
      obtain ⟨⟨sub, u⟩, hsub, hdone⟩ := Option.map_eq_some_iff.mp hone
      cases hdone
      have hinner := hclosed _ _ _ _ hreaches hsource hservices
      have hmore := allocate_stands (h.fresh s.next (Nat.le_refl _))
        (answer (some link.2), services)
      obtain ⟨stands', hkept, hgrown, hsubLinked, hsubAssigned⟩ :=
        hbuild (some link.2) services _ _ _ _ _ (h.allocate hsource hservices) hinner hsub
      have hstands : stands' s.next = some (answer (some link.2), services) :=
        hgrown.more _ _ (put_self _ _ _)
      have hfilled := hkept.fill hstands hsubLinked hsubAssigned
      have hextends : Extends stands stands' := fun address served hserved =>
        hgrown.more address served (hmore address served hserved)
      have hfull : Grown stands s stands' (u.fill s.next sub) := by
        refine ⟨hextends, Nat.le_of_succ_le hgrown.next, fun address hlt => ?_, hgrown.assigned⟩
        have hlater := hgrown.contexts address (Nat.lt_succ_of_lt hlt)
        refine (put_of_ne _ _ _ (by omega)).trans (hlater.trans ?_)
        exact put_of_ne _ _ _ (by omega)
      refine ⟨stands', hfilled.assign hreaches hsource, hfull.assign _, ?_, ?_⟩
      · exact (hlinked.mono hextends).set hnew hsource
          (.inr ⟨s.next, services, rfl, hservices, hstands⟩)
      · exact (hassigned.mono hgrown.assigned).assign hsource

/-! ## A build -/

theorem foldlM_kept (hkeys : KeysTellApart answer linkedKey) (hclosed : IsClosed answer reaches)
    (hbuild : Builds answer linkedKey reaches build) {more : List (String × Reference Opt)}
    (hnodup : ((links ++ more).map Prod.fst).Nodup)
    (hreaches : ∀ link ∈ more, reaches target link.2)
    (h : Kept answer linkedKey reaches stands pending s)
    (hlinked : IsLinked answer (answer target) stands here links)
    (hassigned : IsAssigned (answer target) s.assigned links) {here' : Contexts R}
    (hrun : more.foldlM (linkOne answer linkedKey build target) (here, s) = some (here', t)) :
    ∃ stands', Kept answer linkedKey reaches stands' pending t ∧ Grown stands s stands' t ∧
      IsLinked answer (answer target) stands' here' (links ++ more) ∧
        IsAssigned (answer target) t.assigned (links ++ more) := by
  induction more generalizing links here s stands with
  | nil =>
    cases hrun
    rw [List.append_nil]
    exact ⟨stands, h, .refl, hlinked, hassigned⟩
  | cons link more ih =>
    obtain ⟨hlink, hmore⟩ := List.forall_mem_cons.mp hreaches
    rw [List.foldlM_cons] at hrun
    obtain ⟨⟨here₁, s₁⟩, hone, hrest⟩ := Option.bind_eq_some_iff.mp hrun
    have hnew : link.1 ∉ links.map Prod.fst := by
      rw [List.map_append, List.nodup_append] at hnodup
      exact fun hmem => hnodup.2.2 _ hmem _ List.mem_cons_self rfl
    obtain ⟨stands₁, hkept, hgrown, hlinked, hassigned⟩ :=
      linkOne_kept hkeys hclosed hbuild h hlinked hassigned hnew hlink hone
    rw [List.append_cons] at hnodup ⊢
    obtain ⟨stands₂, hkept, hgrown', hlinked, hassigned⟩ :=
      ih hnodup hmore hkept hlinked hassigned hrest
    exact ⟨stands₂, hkept, hgrown.trans hgrown', hlinked, hassigned⟩

theorem buildLinkedContexts_builds (hkeys : KeysTellApart answer linkedKey)
    (hclosed : IsClosed answer reaches) (fuel : Nat) :
    Builds answer linkedKey reaches (buildLinkedContexts answer linkedKey fuel) := by
  induction fuel with
  | zero =>
    intro target services s stands pending here t _ _ hrun
    cases hrun
  | succ fuel ih =>
    intro target services s stands pending here t h hreaches hrun
    have hempty : IsLinked answer (answer target) stands (∅ : Contexts R) [] :=
      ⟨fun _ hlink => absurd hlink List.not_mem_nil, fun _ _ => rfl⟩
    have hnodup : (([] ++ services.values).map Prod.fst).Nodup := services.nodup
    exact foldlM_kept hkeys hclosed ih hnodup hreaches h hempty
      (fun _ hlink => absurd hlink List.not_mem_nil) hrun

/-! ## Enough fuel -/

/-- How many of the keys have no cached context. -/
def uncached (keys : List Key) (s : State R V Key) : Nat :=
  keys.countP fun key => (s.contextCache key).isNone

theorem uncached_allocate {keys : List Key} {key : Key} (hmem : key ∈ keys)
    (hnew : s.contextCache key = none) : uncached keys (s.allocate key) < uncached keys s := by
  have hcache : ∀ other, ((s.allocate key).contextCache other).isNone =
      (!(decide (other = key)) && (s.contextCache other).isNone) := by
    intro other
    change (put s.contextCache key (some s.next) other).isNone = _
    rw [put_apply]
    by_cases hother : other = key <;> simp [hother]
  have hmono : ∀ keys, uncached keys (s.allocate key) ≤ uncached keys s := by
    refine fun keys => List.countP_mono_left fun other _ hother => ?_
    rw [hcache, Bool.and_eq_true] at hother
    exact hother.2
  obtain ⟨before, after, rfl⟩ := List.append_of_mem hmem
  have hbefore := hmono before
  have hafter := hmono after
  simp only [uncached, List.countP_append, List.countP_cons] at hbefore hafter ⊢
  rw [if_neg (by simp [hcache]), if_pos (by simp [hnew])]
  omega

variable (answer linkedKey reaches) in
/-- The linked keys of the services that are reached are among some keys. -/
def HasKeys (keys : List Key) : Prop :=
  ∀ target ref source links, reaches target ref → answer target ref = some source →
    source.services = some links → linkedKey ref.service source.remaining ∈ keys

variable (reaches) in
/-- What it returns whenever few enough keys are not cached. -/
def Returns (keys : List Key) (bound : Nat)
    (build : Target Opt → Links Opt → State R V Key → Option (Contexts R × State R V Key)) : Prop :=
  ∀ target services s, (∀ link ∈ services.values, reaches target link.2) → uncached keys s < bound →
    ∃ here t, build target services s = some (here, t) ∧ uncached keys t ≤ uncached keys s

theorem linkOne_returns {keys : List Key} {fuel : Nat} (hclosed : IsClosed answer reaches)
    (hkeys : HasKeys answer linkedKey reaches keys) (hbuild : Returns reaches keys fuel build)
    (hreaches : reaches target link.2) (hfew : uncached keys s < fuel + 1) :
    ∃ here' t, linkOne answer linkedKey build target (here, s) link = some (here', t) ∧
      uncached keys t ≤ uncached keys s := by
  rw [linkOne]
  split
  · exact ⟨here, s, rfl, Nat.le_refl _⟩
  · next source hsource =>
    dsimp only
    split
    · exact ⟨_, _, rfl, Nat.le_refl _⟩
    · exact ⟨_, _, rfl, Nat.le_refl _⟩
    · next services hcached hservices =>
      have hless := uncached_allocate (hkeys _ _ _ _ hreaches hsource hservices) hcached
      obtain ⟨sub, t, hsub, hle⟩ :=
        hbuild _ services _ (hclosed _ _ _ _ hreaches hsource hservices)
          (Nat.lt_of_lt_of_le hless (Nat.le_of_lt_succ hfew))
      refine ⟨_, (t.fill s.next sub).assign source.vars, by rw [hsub]; rfl, ?_⟩
      exact Nat.le_trans hle (Nat.le_of_lt hless)

theorem buildLinkedContexts_returns {keys : List Key} (hclosed : IsClosed answer reaches)
    (hkeys : HasKeys answer linkedKey reaches keys) (fuel : Nat) :
    Returns reaches keys fuel (buildLinkedContexts answer linkedKey fuel) := by
  induction fuel with
  | zero => exact fun _ _ _ _ hfew => absurd hfew (Nat.not_lt_zero _)
  | succ fuel ih =>
    intro target services s hreaches hfew
    have hloop : ∀ (links : List (String × Reference Opt)) (here : Contexts R) (s : State R V Key),
        (∀ link ∈ links, reaches target link.2) → uncached keys s < fuel + 1 →
        ∃ here' t, links.foldlM (linkOne answer linkedKey
          (buildLinkedContexts answer linkedKey fuel)
          target) (here, s) = some (here', t) ∧ uncached keys t ≤ uncached keys s := by
      intro links
      induction links with
      | nil => exact fun here s _ _ => ⟨here, s, rfl, Nat.le_refl _⟩
      | cons link links ihLinks =>
        intro here s hreaches hfew
        obtain ⟨hlink, hlinks⟩ := List.forall_mem_cons.mp hreaches
        obtain ⟨here₁, s₁, hone, hle⟩ := @linkOne_returns Opt R V Key answer linkedKey here s
          reaches target link _ (buildLinkedContexts answer linkedKey fuel) keys fuel hclosed hkeys
          ih hlink hfew
        obtain ⟨here₂, s₂, hrest, hle₂⟩ := ihLinks here₁ s₁ hlinks (Nat.lt_of_le_of_lt hle hfew)
        exact ⟨here₂, s₂, by rw [List.foldlM_cons, hone]; exact hrest, Nat.le_trans hle₂ hle⟩
    exact hloop services.values ∅ s hreaches hfew

end

/-! ## The graph -/

theorem IsLinked.get?_none {links : Links Opt} (h : IsLinked answer reply stands here links.values)
    {name : String} (hnone : links.get? name = none) : here.get? name = none := by
  refine h.absent name fun link hlink hname => ?_
  rw [← hname, KeyedMap.get?_of_mem hlink] at hnone
  cases hnone

theorem IsLinked.get?_unanswered {links : Links Opt}
    (h : IsLinked answer reply stands here links.values)
    {name : String} (hlink : links.get? name = some link) (hnone : reply link.2 = none) :
    here.get? name = none := by
  refine h.absent name fun other hother hname => ?_
  rw [← hname, KeyedMap.get?_of_mem hother] at hlink
  rw [Option.some.inj hlink, hnone]

theorem IsLinked.get?_some {links : Links Opt} (h : IsLinked answer reply stands here links.values)
    {name : String} (hlink : links.get? name = some link) (hsource : reply link.2 = some source) :
    ∃ context, here.get? name = some (name, ⟨source.remaining, context⟩) ∧
      StandsFor stands context (answer (some link.2)) source.services := by
  obtain ⟨context, hget, hstands⟩ := h.entry link (KeyedMap.mem_of_get? hlink) source hsource
  rw [show link.1 = name from KeyedMap.key_of_get? hlink] at hget
  exact ⟨context, hget, hstands⟩

/-- The graph of contexts unfolds to the answers. -/
theorem findContext_eq (h : Kept answer linkedKey reaches stands (fun _ => False) s)
    (path : List String) :
    ∀ (target : Target Opt) (links : Links Opt) (here : Contexts R) (name : String),
      IsLinked answer (answer target) stands here links.values →
        findContext s.contexts here name path = findSource answer target links name path := by
  induction path with
  | nil =>
    intro target links here name hlinked
    rw [findContext, findSource]
    cases hlink : links.get? name with
    | none => rw [hlinked.get?_none hlink]; rfl
    | some link =>
      rw [Option.bind_some]
      cases hsource : answer target link.2 with
      | none => rw [hlinked.get?_unanswered hlink hsource]; rfl
      | some source =>
        obtain ⟨context, hget, hstands⟩ := hlinked.get?_some hlink hsource
        rw [hget]
        rcases hstands with ⟨rfl, hservices⟩ | ⟨address, inner, rfl, hservices, -⟩ <;>
          simp only [Option.map_some, hservices, Option.isSome]
  | cons next more ih =>
    intro target links here name hlinked
    rw [findContext, findSource]
    cases hlink : links.get? name with
    | none => rw [hlinked.get?_none hlink]; rfl
    | some link =>
      rw [Option.bind_some]
      cases hsource : answer target link.2 with
      | none => rw [hlinked.get?_unanswered hlink hsource]; rfl
      | some source =>
        obtain ⟨context, hget, hstands⟩ := hlinked.get?_some hlink hsource
        rw [hget, Option.bind_some, Option.bind_some]
        rcases hstands with ⟨rfl, hservices⟩ | ⟨address, inner, rfl, hservices, hinner⟩
        · rw [hservices]
          rfl
        · obtain ⟨found, hfound, hbelow⟩ := ((h.filled address _ inner hinner).resolve_left id).1
          rw [hservices, Option.bind_some, Option.bind_some, hfound]
          exact ih (some link.2) inner found next hbelow

end Ez4.Project.LinkedServices

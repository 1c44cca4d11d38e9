import Ez4.Queue.Claims

/-! # What the claims table keeps apart

A record that holds a key it is yet to keep or free is its owner in the table,
or its lease has passed. As owners are used once, two handlers within their
leases don't run for one key, and a kept key is taken by none. -/
namespace Ez4.Queue.Claims
open Ez4.Library Ez4.Queue.Messages Ez4.Queue.ProcessRecord

/-! ## The conditional writes -/

variable {table : ClaimsTable} {key : ClaimKey} {owner : Uuid} {now : Int} {item : StoredClaim}

/-- What one write can do to the item of a key: nothing, take it once it
expired, or write over it for its own owner. -/
inductive WriteAt (table : ClaimsTable) (key : ClaimKey) (owner : Uuid) (now : Int)
    (request : ClaimRequest) (after : Option StoredClaim) : Prop
  | same (h : after = table key)
  | taken {lease : Nat} (hr : request = .take key lease)
      (expired : ∀ item, table key = some item → item.expiration ≤ now)
      (h : after = some ⟨.running, owner, now + lease⟩)
  | kept {item : StoredClaim} {claim : HeldClaim} {state : ClaimState} {ttl : Nat}
      (hr : request = .keep claim state ttl) (hk : claim.key = key) (hi : table key = some item)
      (ho : item.owner = claim.owner) (h : after = some ⟨state, item.owner, now + ttl⟩)
  | released {item : StoredClaim} {claim : HeldClaim} (hr : request = .release claim)
      (hk : claim.key = key) (hi : table key = some item) (ho : item.owner = claim.owner) (h : after = none)

theorem writeAt_put {request : ClaimRequest} {value : Option StoredClaim} {k : ClaimKey}
    (h : k = key → WriteAt table key owner now request value) :
    WriteAt table key owner now request (put table k value key) := by
  by_cases hk : k = key
  · subst hk
    rw [put_self]
    exact h rfl
  · rw [put_of_ne _ _ _ (Ne.symm hk)]
    exact .same rfl

theorem writeAt_takeClaim (k : ClaimKey) (lease : Nat) :
    WriteAt table key owner now (.take k lease) ((takeClaim table k lease owner now).1 key) := by
  unfold takeClaim
  dsimp only
  split
  · rename_i hnone
    refine writeAt_put fun hk => .taken (hk ▸ rfl) (fun item hi => ?_) rfl
    rw [← hk, hnone] at hi
    cases hi
  · rename_i item hitem
    split
    · rename_i hexpired
      refine writeAt_put fun hk => .taken (hk ▸ rfl) (fun other hi => ?_) rfl
      rw [← hk, hitem, Option.some.injEq] at hi
      exact hi ▸ hexpired
    · exact .same rfl

theorem writeAt_keepClaim (claim : HeldClaim) (state : ClaimState) (ttl : Nat) :
    WriteAt table key owner now (.keep claim state ttl)
      ((keepClaim table claim state ttl now).1 key) := by
  unfold keepClaim
  split
  · exact .same rfl
  · rename_i item hitem
    split
    · rename_i howner
      exact writeAt_put fun hk => .kept rfl hk (hk ▸ hitem) howner rfl
    · exact .same rfl

theorem writeAt_releaseClaim (claim : HeldClaim) :
    WriteAt table key owner now (.release claim) ((releaseClaim table claim).1 key) := by
  unfold releaseClaim
  split
  · exact .same rfl
  · rename_i item hitem
    split
    · rename_i howner
      exact writeAt_put fun hk => .released rfl hk (hk ▸ hitem) howner rfl
    · exact .same rfl

theorem writeAt_apply (request : ClaimRequest) (key : ClaimKey) :
    WriteAt table key owner now request ((request.apply table owner now).1 key) := by
  cases request with
  | take k lease => exact writeAt_takeClaim k lease
  | keep claim state ttl => exact writeAt_keepClaim claim state ttl
  | release claim => exact writeAt_releaseClaim claim

/-- A key is answered as taken for the owner the table then has. -/
theorem apply_claimed {request : ClaimRequest} {owner' : Uuid}
    (h : (request.apply table owner now).2 = .claimed owner') :
    ∃ key lease, request = .take key lease ∧ owner' = owner ∧
      (request.apply table owner now).1 key = some ⟨.running, owner, now + (lease : Nat)⟩ := by
  cases request with
  | take key lease =>
    refine ⟨key, lease, rfl, ?_⟩
    simp only [ClaimRequest.apply, takeClaim] at h ⊢
    split at h
    · cases h
      rename_i hnone
      exact ⟨rfl, by simp only [put_self]⟩
    · split at h
      · cases h
        rename_i hexpired
        exact ⟨rfl, by simp only [if_pos hexpired, put_self]⟩
      · cases h
  | keep claim state ttl =>
    simp only [ClaimRequest.apply, keepClaim] at h
    split at h
    · cases h
    · split at h <;> cases h
  | release claim =>
    simp only [ClaimRequest.apply, releaseClaim] at h
    split at h
    · cases h
    · split at h <;> cases h

/-! ## The requests of a record -/

variable {x : Execution} {r : RecordState}

theorem settles_of_keep {claim : HeldClaim} {state : ClaimState} {ttl : Nat}
    (h : requestOf x r = some (.keep claim state ttl)) :
    RecordState.settles r.awaiting = some claim := by
  unfold requestOf at h
  split at h <;> rename_i hawait <;> try cases h
  · obtain ⟨_, _, heq⟩ := Option.map_eq_some_iff.mp h
    cases heq
  · obtain ⟨_, _, heq⟩ := Option.map_eq_some_iff.mp h
    cases heq
  · obtain ⟨_, _, heq⟩ := Option.map_eq_some_iff.mp h
    cases heq
    rw [hawait]
    rfl
  · obtain ⟨_, _, heq⟩ := Option.map_eq_some_iff.mp h
    cases heq
    rw [hawait]
    rfl

theorem settles_of_release {claim : HeldClaim} (h : requestOf x r = some (.release claim)) :
    RecordState.settles r.awaiting = some claim ∨ ∃ threw, r.awaiting = .releaseSlot claim threw := by
  unfold requestOf at h
  split at h <;> rename_i hawait
  · obtain ⟨_, _, heq⟩ := Option.map_eq_some_iff.mp h
    cases heq
  · obtain ⟨_, _, heq⟩ := Option.map_eq_some_iff.mp h
    cases heq
  · obtain ⟨_, _, heq⟩ := Option.map_eq_some_iff.mp h
    cases heq
  · obtain ⟨_, _, heq⟩ := Option.map_eq_some_iff.mp h
    cases heq
  · cases h
    exact .inl (by rw [hawait]; rfl)
  · cases h
    exact .inl (by rw [hawait]; rfl)
  · cases h
    exact .inl (by rw [hawait]; rfl)
  · rename_i threw
    cases h
    exact .inr ⟨_, hawait⟩
  · cases h

/-! ## The invariant -/

/-- What holds of the system at any time. -/
structure Owned (s : System) : Prop where
  coherent : ∀ (i : Nat) (r : RunningRecord), s.records[i]? = some r → r.state.Coherent
  tableOwners : ∀ (key : ClaimKey) (item : StoredClaim), s.table key = some item →
    item.owner < s.nextOwner
  claimOwners : ∀ (i : Nat) (r : RunningRecord) (c : HeldClaim), s.records[i]? = some r →
    r.state.heldClaim = some c → c.owner < s.nextOwner
  slotOwners : ∀ (i : Nat) (r : RunningRecord) (c : HeldClaim), s.records[i]? = some r →
    r.state.heldSlot = some c → c.owner < s.nextOwner
  claimKeys : ∀ (i : Nat) (r : RunningRecord) (c : HeldClaim), s.records[i]? = some r →
    r.state.heldClaim = some c → c.key.slot = none
  slotKeys : ∀ (i : Nat) (r : RunningRecord) (c : HeldClaim), s.records[i]? = some r →
    r.state.heldSlot = some c → c.key.slot ≠ none
  /-- Two records don't hold claims of one owner. -/
  claimsApart : ∀ (i j : Nat) (r u : RunningRecord) (c d : HeldClaim), s.records[i]? = some r →
    s.records[j]? = some u → r.state.heldClaim = some c → u.state.heldClaim = some d →
    c.owner = d.owner → i = j
  slotsApart : ∀ (i j : Nat) (r u : RunningRecord) (c d : HeldClaim), s.records[i]? = some r →
    s.records[j]? = some u → r.state.heldClaim = some c → u.state.heldSlot = some d →
    c.owner ≠ d.owner
  /-- A key that's yet to be settled has its owner in the table, until its lease passed. -/
  intact : ∀ (i : Nat) (r : RunningRecord) (c : HeldClaim), s.records[i]? = some r →
    r.state.heldClaim = some c → r.state.claimOpen = true →
    s.table c.key = some ⟨.running, c.owner, r.leaseEnds⟩ ∨ r.leaseEnds ≤ s.now

/-- What a step of a record changes of what it holds. -/
inductive HeldMove (s t : System) (r r' : RunningRecord) : Prop
  | same (held : RecordState.SameHeld r.state r'.state)
      (lease : r.state.heldClaim.isSome = true → r'.leaseEnds = r.leaseEnds)
      (opened : r.state.heldClaim.isSome = true → r'.state.claimOpen = true →
        r.state.claimOpen = true)
  | claim {c : HeldClaim} (claim : r'.state.heldClaim = some c) (key : c.key.slot = none)
      (owner : c.owner = s.nextOwner)
      (next : s.nextOwner < t.nextOwner)
      (item : t.table c.key = some ⟨.running, c.owner, r'.leaseEnds⟩)
      (slot : r'.state.heldSlot = r.state.heldSlot)
  | slot {c : HeldClaim} (slot : r'.state.heldSlot = some c) (key : c.key.slot ≠ none)
      (owner : c.owner = s.nextOwner)
      (next : s.nextOwner < t.nextOwner) (claim : r'.state.heldClaim = r.state.heldClaim)
      (lease : r.state.heldClaim.isSome = true → r'.leaseEnds = r.leaseEnds)
      (opened : r.state.heldClaim.isSome = true → r'.state.claimOpen = true →
        r.state.claimOpen = true)

/-- What a step of a record changes of the table. -/
inductive TableMove (s t : System) (r r' : RunningRecord) : Prop
  | same (table : t.table = s.table)
  | write {request : ClaimRequest}
      (asked : requestOf r.execution r.state = some request)
      (settled : ∀ c, RecordState.settles r.state.awaiting = some c → r'.state.claimOpen = false)
      (writes : ∀ key, WriteAt s.table key s.nextOwner s.now request (t.table key))
      (next : s.nextOwner < t.nextOwner)

/-- One step of the record at a place. -/
structure RecordMove (s t : System) (i : Nat) (r r' : RunningRecord) : Prop where
  before : s.records[i]? = some r
  after : t.records = s.records.set i r'
  clock : t.clock = s.clock
  owners : s.nextOwner ≤ t.nextOwner
  coherent : r'.state.Coherent
  held : HeldMove s t r r'
  table : TableMove s t r r'

variable {s t : System} {i j : Nat} {u r' : RunningRecord} {c d : HeldClaim}

theorem RecordMove.now_eq {r : RunningRecord} (h : RecordMove s t i r r') : t.now = s.now := by
  rw [System.now, System.now, h.clock]

theorem RecordMove.record_at {r : RunningRecord} (h : RecordMove s t i r r')
    (hj : t.records[j]? = some u) : (j = i ∧ u = r') ∨ (j ≠ i ∧ s.records[j]? = some u) := by
  rw [h.after, List.getElem?_set] at hj
  split at hj
  · rename_i hij
    split at hj
    · cases hj
      exact .inl ⟨hij.symm, rfl⟩
    · cases hj
  · rename_i hij
    exact .inr ⟨fun h => hij h.symm, hj⟩

/-- A claim held after the step was held by the record at that place, or is new. -/
theorem RecordMove.claim_at {r : RunningRecord} (h : RecordMove s t i r r')
    (hj : t.records[j]? = some u) (hc : u.state.heldClaim = some c) :
    (∃ v, s.records[j]? = some v ∧ v.state.heldClaim = some c) ∨
      (j = i ∧ c.owner = s.nextOwner ∧ s.nextOwner < t.nextOwner ∧ c.key.slot = none ∧
        t.table c.key = some ⟨.running, c.owner, u.leaseEnds⟩) := by
  rcases h.record_at hj with ⟨rfl, rfl⟩ | ⟨-, hj⟩
  · rcases h.held with ⟨held, -, -⟩ | ⟨claim, key, owner, next, item, -⟩ |
      ⟨-, -, -, -, claim, -, -⟩
    · exact .inl ⟨r, h.before, held.claim ▸ hc⟩
    · rw [claim, Option.some.injEq] at hc
      subst hc
      exact .inr ⟨rfl, owner, next, key, item⟩
    · exact .inl ⟨r, h.before, claim ▸ hc⟩
  · exact .inl ⟨u, hj, hc⟩

theorem RecordMove.slot_at {r : RunningRecord} (h : RecordMove s t i r r')
    (hj : t.records[j]? = some u) (hc : u.state.heldSlot = some c) :
    (∃ v, s.records[j]? = some v ∧ v.state.heldSlot = some c) ∨
      (j = i ∧ c.owner = s.nextOwner ∧ s.nextOwner < t.nextOwner ∧ c.key.slot ≠ none ∧
        u.state.heldClaim = r.state.heldClaim) := by
  rcases h.record_at hj with ⟨rfl, rfl⟩ | ⟨-, hj⟩
  · rcases h.held with ⟨held, -, -⟩ | ⟨-, -, -, -, -, slot⟩ |
      ⟨slot, key, owner, next, claim, -, -⟩
    · exact .inl ⟨r, h.before, held.slot ▸ hc⟩
    · exact .inl ⟨r, h.before, slot ▸ hc⟩
    · rw [slot, Option.some.injEq] at hc
      subst hc
      exact .inr ⟨rfl, owner, next, key, claim⟩
  · exact .inl ⟨u, hj, hc⟩

/-- A write over an item is that of a record that holds a claim of its owner. -/
theorem holder_of_write {r : RunningRecord} (hs : Owned s) (hr : s.records[i]? = some r)
    {request : ClaimRequest} (hq : requestOf r.execution r.state = some request)
    (h : (∃ state ttl, request = .keep d state ttl) ∨ request = .release d) :
    (r.state.heldClaim = some d ∧ RecordState.settles r.state.awaiting = some d) ∨
      r.state.heldSlot = some d := by
  have hc := hs.coherent i r hr
  have hsettles : ∀ {c}, RecordState.settles r.state.awaiting = some c →
      r.state.heldClaim = some c ∧ RecordState.settles r.state.awaiting = some c :=
    fun h => ⟨RecordState.heldClaim_of_settles hc h, h⟩
  rcases h with ⟨state, ttl, rfl⟩ | rfl
  · exact .inl (hsettles (settles_of_keep hq))
  · rcases settles_of_release hq with h | ⟨threw, h⟩
    · exact .inl (hsettles h)
    · exact .inr (hc.at h).1

/-- What the table has for a claim that's yet to be settled stays, unless its lease passed. -/
theorem RecordMove.item_stays {r : RunningRecord} (h : RecordMove s t i r r') (hs : Owned s)
    {v : RunningRecord} (hj : s.records[j]? = some v) (hc : v.state.heldClaim = some c)
    (hopen : v.state.claimOpen = true) (hother : j = i → r'.state.claimOpen = true) :
    t.table c.key = some ⟨.running, c.owner, v.leaseEnds⟩ ∨ v.leaseEnds ≤ t.now := by
  rw [h.now_eq]
  rcases hs.intact j v c hj hc hopen with hitem | hpassed
  · rcases h.table with table | @⟨request, hq, settled, writes, -⟩
    · exact .inl (by rw [table, hitem])
    · have hwrite : ∀ {item : StoredClaim} {d : HeldClaim}, s.table c.key = some item →
          item.owner = d.owner → ((∃ state ttl, request = .keep d state ttl) ∨
            request = .release d) → False := by
        intro item d hi ho hd
        rw [hitem, Option.some.injEq] at hi
        subst hi
        rcases holder_of_write hs h.before hq hd with ⟨hclaim, hsettles⟩ | hslot
        · have hji := hs.claimsApart j i v r c d hj h.before hc hclaim ho
          have := hother hji
          rw [settled d hsettles] at this
          cases this
        · exact hs.slotsApart j i v r c d hj h.before hc hslot ho
      cases writes c.key with
      | same hsame => exact .inl (by rw [hsame, hitem])
      | taken _ expired _ => exact .inr (expired _ hitem)
      | kept hr _ hi ho _ => exact (hwrite hi ho (.inl ⟨_, _, hr⟩)).elim
      | released hr _ hi ho _ => exact (hwrite hi ho (.inr hr)).elim
  · exact .inr hpassed

/-- **A step of a record keeps the owners apart.** -/
theorem owned_move {r : RunningRecord} (hs : Owned s) (h : RecordMove s t i r r') : Owned t where
  coherent j u hj := by
    rcases h.record_at hj with ⟨-, rfl⟩ | ⟨-, hj⟩
    · exact h.coherent
    · exact hs.coherent j u hj
  tableOwners key item hitem := by
    have hold : ∀ item, s.table key = some item → item.owner < t.nextOwner := fun item hi =>
      Nat.lt_of_lt_of_le (hs.tableOwners key item hi) h.owners
    rcases h.table with table | @⟨request, hq, -, writes, next⟩
    · exact hold item (table ▸ hitem)
    · cases writes key with
      | same hsame => exact hold item (hsame ▸ hitem)
      | taken _ _ hafter =>
        rw [hafter, Option.some.injEq] at hitem
        subst hitem
        exact next
      | kept _ _ hi _ hafter =>
        have hlt := hold _ hi
        rw [hafter, Option.some.injEq] at hitem
        subst hitem
        exact hlt
      | released _ _ _ _ hafter =>
        rw [hafter] at hitem
        cases hitem
  claimOwners j u c hj hc := by
    rcases h.claim_at hj hc with ⟨v, hv, hvc⟩ | ⟨-, howner, next, -, -⟩
    · exact Nat.lt_of_lt_of_le (hs.claimOwners j v c hv hvc) h.owners
    · rw [howner]
      exact next
  slotOwners j u c hj hc := by
    rcases h.slot_at hj hc with ⟨v, hv, hvc⟩ | ⟨-, howner, next, -, -⟩
    · exact Nat.lt_of_lt_of_le (hs.slotOwners j v c hv hvc) h.owners
    · rw [howner]
      exact next
  claimKeys j u c hj hc := by
    rcases h.claim_at hj hc with ⟨v, hv, hvc⟩ | ⟨-, -, -, hkey, -⟩
    · exact hs.claimKeys j v c hv hvc
    · exact hkey
  slotKeys j u c hj hc := by
    rcases h.slot_at hj hc with ⟨v, hv, hvc⟩ | ⟨-, -, -, hkey, -⟩
    · exact hs.slotKeys j v c hv hvc
    · exact hkey
  claimsApart j k u w c d hj hk hc hd howner := by
    rcases h.claim_at hj hc with ⟨v, hv, hvc⟩ | ⟨hji, hnew, -, -, -⟩ <;>
      rcases h.claim_at hk hd with ⟨v', hv', hvd⟩ | ⟨hki, hnew', -, -, -⟩
    · exact hs.claimsApart j k v v' c d hv hv' hvc hvd howner
    · have := hs.claimOwners j v c hv hvc
      rw [howner, hnew'] at this
      exact absurd this (Nat.lt_irrefl _)
    · have := hs.claimOwners k v' d hv' hvd
      rw [← howner, hnew] at this
      exact absurd this (Nat.lt_irrefl _)
    · rw [hji, hki]
  slotsApart j k u w c d hj hk hc hd howner := by
    rcases h.claim_at hj hc with ⟨v, hv, hvc⟩ | ⟨hji, hnew, -, -, -⟩ <;>
      rcases h.slot_at hk hd with ⟨v', hv', hvd⟩ | ⟨hki, hnew', -, -, hclaim⟩
    · exact hs.slotsApart j k v v' c d hv hv' hvc hvd howner
    · have := hs.claimOwners j v c hv hvc
      rw [howner, hnew'] at this
      exact absurd this (Nat.lt_irrefl _)
    · have := hs.slotOwners k v' d hv' hvd
      rw [← howner, hnew] at this
      exact absurd this (Nat.lt_irrefl _)
    · -- a step takes a key or a slot, not both
      subst hji
      rcases h.record_at hj with ⟨-, rfl⟩ | ⟨hne, -⟩
      · subst hki
        rcases h.record_at hk with ⟨-, rfl⟩ | ⟨hne, -⟩
        · rw [hclaim] at hc
          have := hs.claimOwners _ r c h.before hc
          rw [hnew] at this
          exact absurd this (Nat.lt_irrefl _)
        · exact absurd rfl hne
      · exact absurd rfl hne
  intact j u c hj hc hopen := by
    rcases h.record_at hj with ⟨rfl, rfl⟩ | ⟨hne, hj⟩
    · rcases h.held with ⟨held, lease, opened⟩ | ⟨claim, -, -, -, item, -⟩ |
        ⟨-, -, -, -, claim, lease, opened⟩
      · have hrc : r.state.heldClaim = some c := held.claim ▸ hc
        have hsome : r.state.heldClaim.isSome = true := by rw [hrc]; rfl
        rw [lease hsome]
        exact h.item_stays hs h.before hrc (opened hsome hopen) fun _ => hopen
      · rw [claim, Option.some.injEq] at hc
        subst hc
        exact .inl item
      · have hrc : r.state.heldClaim = some c := claim ▸ hc
        have hsome : r.state.heldClaim.isSome = true := by rw [hrc]; rfl
        rw [lease hsome]
        exact h.item_stays hs h.before hrc (opened hsome hopen) fun _ => hopen
    · exact h.item_stays hs hj hc hopen fun hji => absurd hji hne

/-! ## Steps -/

theorem heldClaim_of_requestless {x : Execution} {a b : RecordState} {answer : Answer}
    (hq : requestOf x a = none) (h : RecordState.HeldAfter x a b answer) :
    RecordState.SameHeld a b := by
  cases h with
  | same held => exact held
  | claim hawait hoptions => simp [requestOf, hawait, hoptions] at hq
  | slot hawait hoptions => simp [requestOf, hawait, hoptions] at hq

theorem opened_of_answer {x : Execution} {a b : RecordState} {answer : Answer} {tick : Tick}
    (hc : a.Coherent) (h : a.answer x answer tick = some b) (hopen : b.claimOpen = true) :
    a.claimOpen = true := by
  by_contra hnot
  rw [RecordState.claimOpen_answer hc (by simpa using hnot) h] at hopen
  cases hopen

theorem recordMove_act {r : RunningRecord} (hs : Owned s) (hr : s.records[i]? = some r)
    {event : RecordEvent} (h : s.act i r event = some t) :
    ∃ r', RecordMove s t i r r' := by
  unfold System.act at h
  split at h
  · cases h
  · rename_i hnot
    obtain ⟨state, hstep, rfl⟩ := Option.map_eq_some_iff.mp h
    have hc := hs.coherent i r hr
    refine ⟨{ r with state }, hr, rfl, rfl, Nat.le_refl _, RecordState.step_coherent hc hstep,
      ?_, .same rfl⟩
    cases event with
    | answer answer tick =>
      have hq : requestOf r.execution r.state = none := by simpa [isAnswer] using hnot
      have hanswer : r.state.answer r.execution answer { tick with now := s.clock } = some state :=
        hstep
      exact .same (heldClaim_of_requestless hq (RecordState.heldAfter_answer hanswer))
        (fun _ => rfl) fun _ => opened_of_answer hc hanswer
    | call call now =>
      simp only [atTime, RecordState.step] at hstep
      split at hstep
      · cases hstep
        obtain ⟨hheld, hopen⟩ := (RecordState.makeCall_frame (x := r.execution) (s := r.state) call
          s.clock).claims
        exact .same hheld (fun _ => rfl) fun _ h => hopen ▸ h
      · cases hstep
    | callEnds index succeeds =>
      obtain ⟨hheld, hopen⟩ := (RecordState.callEnds_frame hstep).claims
      exact .same hheld (fun _ => rfl) fun _ h => hopen ▸ h

theorem leaseEndsAfter_of_held {r : RunningRecord} (hc : r.state.Coherent)
    (h : r.state.heldClaim.isSome = true) : s.leaseEndsAfter r = r.leaseEnds := by
  unfold System.leaseEndsAfter
  split
  · rename_i hawait _
    rw [(hc.at hawait).2.1] at h
    cases h
  · rfl

theorem recordMove_request {r : RunningRecord} (hs : Owned s) (hr : s.records[i]? = some r)
    {lost : Option Bool} {tick : Tick} (h : s.request i r lost tick = some t) :
    ∃ r', RecordMove s t i r r' := by
  unfold System.request at h
  obtain ⟨request, hq, h⟩ := Option.bind_eq_some_iff.mp h
  obtain ⟨state, hanswer, rfl⟩ := Option.map_eq_some_iff.mp h
  have hc := hs.coherent i r hr
  have hopened : state.claimOpen = true → r.state.claimOpen = true := opened_of_answer hc hanswer
  have hnext : s.nextOwner < s.nextOwner + 1 := Nat.lt_succ_self _
  refine ⟨{ r with state, leaseEnds := s.leaseEndsAfter r }, hr, rfl, rfl, Nat.le_of_lt hnext,
    RecordState.answer_coherent hc hanswer, ?_, ?_⟩
  · have hclaimed : ∀ {owner : Uuid}, (if lost.isSome = true then Answer.rejected false else
        (request.apply s.table s.nextOwner s.now).2) = .claimed owner →
        lost = none ∧ (request.apply s.table s.nextOwner s.now).2 = .claimed owner := by
      intro owner heq
      cases lost with
      | none => exact ⟨rfl, heq⟩
      | some applied => cases heq
    cases RecordState.heldAfter_answer hanswer with
    | same held => exact .same held (leaseEndsAfter_of_held hc) fun _ => hopened
    | @claim message options owner hawait hoptions heq claim slot =>
      obtain ⟨rfl, happly⟩ := hclaimed heq
      obtain ⟨key, lease, rfl, rfl, hitem⟩ := apply_claimed happly
      simp only [requestOf, hawait, hoptions, Option.map_some, Option.some.injEq,
        ClaimRequest.take.injEq] at hq
      obtain ⟨rfl, rfl⟩ := hq
      refine .claim claim rfl rfl hnext ?_ slot
      simp only [reduceCtorEq, if_false, hitem, System.leaseEndsAfter, hawait, hoptions]
    | slot hawait hoptions heq claim slot =>
      obtain ⟨rfl, happly⟩ := hclaimed heq
      obtain ⟨key, lease, rfl, rfl, -⟩ := apply_claimed happly
      exact .slot slot (by simp [getConcurrencySlotKey]) rfl hnext claim (leaseEndsAfter_of_held hc) fun _ => hopened
  · by_cases hlost : lost = some false
    · subst hlost
      exact .same rfl
    · refine .write hq (fun c hsettles => RecordState.claimOpen_settled hsettles hanswer)
        (fun key => ?_) hnext
      simp only [hlost, if_false]
      exact writeAt_apply request key

theorem owned_advance (hs : Owned s) (milliseconds : Nat) :
    Owned { s with clock := s.clock + milliseconds } where
  coherent := hs.coherent
  tableOwners := hs.tableOwners
  claimOwners := hs.claimOwners
  slotOwners := hs.slotOwners
  claimKeys := hs.claimKeys
  slotKeys := hs.slotKeys
  claimsApart := hs.claimsApart
  slotsApart := hs.slotsApart
  intact j u c hj hc hopen := by
    refine (hs.intact j u c hj hc hopen).imp id fun h => Int.le_trans h ?_
    exact Int.ediv_le_ediv (by decide) (show s.clock ≤ s.clock + (milliseconds : Int) by omega)

theorem owned_expire (hs : Owned s) {key : ClaimKey} {item : StoredClaim}
    (hitem : s.table key = some item) (hexpired : item.expiration ≤ s.now) :
    Owned { s with table := put s.table key none } where
  coherent := hs.coherent
  tableOwners k other hk := by
    by_cases hkey : k = key
    · subst hkey
      simp only [put_self, reduceCtorEq] at hk
    · exact hs.tableOwners k other (by simpa only [put_of_ne _ _ _ hkey] using hk)
  claimOwners := hs.claimOwners
  slotOwners := hs.slotOwners
  claimKeys := hs.claimKeys
  slotKeys := hs.slotKeys
  claimsApart := hs.claimsApart
  slotsApart := hs.slotsApart
  intact j u c hj hc hopen := by
    rcases hs.intact j u c hj hc hopen with h | h
    · by_cases hkey : c.key = key
      · rw [hkey, hitem, Option.some.injEq] at h
        subst h
        exact .inr hexpired
      · exact .inl (by simpa only [put_of_ne _ _ _ hkey] using h)
    · exact .inr h

/-- Records that hold what those of `s` do, or nothing. -/
def HoldNoMore (s : System) (records : List RunningRecord) : Prop :=
  ∀ (j : Nat) (u : RunningRecord), records[j]? = some u → u.state.Coherent ∧
    ((∃ v : RunningRecord, s.records[j]? = some v ∧ v.state = u.state ∧ v.leaseEnds = u.leaseEnds) ∨
      u.state.heldClaim = none ∧ u.state.heldSlot = none)

theorem holdNoMore_start (hs : Owned s) (execution : Execution) :
    HoldNoMore s
      (s.records ++ [{ execution := execution, state := RecordState.start execution s.clock }]) := by
  intro j u hj
  rcases lt_or_ge j s.records.length with hlt | hge
  · rw [List.getElem?_append_left hlt] at hj
    exact ⟨hs.coherent j u hj, .inl ⟨u, hj, rfl, rfl⟩⟩
  · rw [List.getElem?_append_right hge, List.getElem?_singleton] at hj
    split at hj
    · cases hj
      exact ⟨RecordState.start_coherent _ _, .inr (RecordState.start_holds_nothing _ _)⟩
    · cases hj

theorem holdNoMore_die (hs : Owned s) {r : RunningRecord} (hr : s.records[i]? = some r) :
    HoldNoMore s (s.records.set i { r with alive := false }) := by
  intro j u hj
  rw [List.getElem?_set] at hj
  split at hj
  · rename_i hij
    subst hij
    split at hj
    · cases hj
      exact ⟨hs.coherent i r hr, .inl ⟨r, hr, rfl, rfl⟩⟩
    · cases hj
  · exact ⟨hs.coherent j u hj, .inl ⟨u, hj, rfl, rfl⟩⟩

theorem HoldNoMore.claim {records : List RunningRecord} (h : HoldNoMore s records)
    (hj : records[j]? = some u) (hc : u.state.heldClaim = some c) :
    ∃ v : RunningRecord, s.records[j]? = some v ∧ v.state = u.state ∧ v.leaseEnds = u.leaseEnds := by
  rcases (h j u hj).2 with hv | ⟨hnone, -⟩
  · exact hv
  · rw [hnone] at hc
    cases hc

theorem HoldNoMore.slot {records : List RunningRecord} (h : HoldNoMore s records)
    (hj : records[j]? = some u) (hc : u.state.heldSlot = some c) :
    ∃ v : RunningRecord, s.records[j]? = some v ∧ v.state = u.state := by
  rcases (h j u hj).2 with ⟨v, hv, heq, -⟩ | ⟨-, hnone⟩
  · exact ⟨v, hv, heq⟩
  · rw [hnone] at hc
    cases hc

theorem owned_records (hs : Owned s) {records : List RunningRecord} (h : HoldNoMore s records) :
    Owned { s with records } := by
  refine ⟨fun j u hj => (h j u hj).1, hs.tableOwners, fun j u c hj hc => ?_,
    fun j u c hj hc => ?_, fun j u c hj hc => ?_, fun j u c hj hc => ?_,
    fun j k u w c d hj hk hc hd => ?_, fun j k u w c d hj hk hc hd => ?_,
    fun j u c hj hc hopen => ?_⟩
  · obtain ⟨v, hv, heq, -⟩ := h.claim hj hc
    exact hs.claimOwners j v c hv (heq ▸ hc)
  · obtain ⟨v, hv, heq⟩ := h.slot hj hc
    exact hs.slotOwners j v c hv (heq ▸ hc)
  · obtain ⟨v, hv, heq, -⟩ := h.claim hj hc
    exact hs.claimKeys j v c hv (heq ▸ hc)
  · obtain ⟨v, hv, heq⟩ := h.slot hj hc
    exact hs.slotKeys j v c hv (heq ▸ hc)
  · obtain ⟨v, hv, heq, -⟩ := h.claim hj hc
    obtain ⟨v', hv', heq', -⟩ := h.claim hk hd
    exact hs.claimsApart j k v v' c d hv hv' (heq ▸ hc) (heq' ▸ hd)
  · obtain ⟨v, hv, heq, -⟩ := h.claim hj hc
    obtain ⟨v', hv', heq'⟩ := h.slot hk hd
    exact hs.slotsApart j k v v' c d hv hv' (heq ▸ hc) (heq' ▸ hd)
  · obtain ⟨v, hv, heq, hlease⟩ := h.claim hj hc
    have hi := hs.intact j v c hv (heq ▸ hc) (heq ▸ hopen)
    rw [hlease] at hi
    exact hi

/-- The record an event is a step of. -/
def SystemEvent.record? : SystemEvent → Option Nat
  | .act index _ | .request index _ _ _ => some index
  | _ => none

theorem recordMove_step {event : SystemEvent} (hs : Owned s) (h : s.step event = some t)
    (hevent : event.record? = some i) :
    ∃ r r', RecordMove s t i r r' := by
  cases event with
  | act index e =>
    cases hevent
    simp only [System.step] at h
    split at h
    · rename_i r hr
      split at h
      · exact ⟨r, recordMove_act hs hr h⟩
      · cases h
    · cases h
  | request index lost firstSlot slotWait =>
    cases hevent
    simp only [System.step] at h
    split at h
    · rename_i r hr
      split at h
      · exact ⟨r, recordMove_request hs hr h⟩
      · cases h
    · cases h
  | advance | expire | start | die => cases hevent

theorem owned_step {event : SystemEvent} (hs : Owned s) (h : s.step event = some t) : Owned t := by
  cases hevent : event with
  | advance milliseconds =>
    subst hevent
    cases h
    exact owned_advance hs milliseconds
  | expire key =>
    subst hevent
    simp only [System.step] at h
    split at h
    · rename_i item hitem
      split at h
      · rename_i hexpired
        cases h
        exact owned_expire hs hitem hexpired
      · cases h
    · cases h
  | start execution =>
    subst hevent
    cases h
    exact owned_records hs (holdNoMore_start hs execution)
  | die index =>
    subst hevent
    obtain ⟨r, hr, rfl⟩ := Option.map_eq_some_iff.mp h
    exact owned_records hs (holdNoMore_die hs hr)
  | act index e =>
    obtain ⟨r, r', hmove⟩ := recordMove_step (i := index) hs h (by rw [hevent]; rfl)
    exact owned_move hs hmove
  | request index lost firstSlot slotWait =>
    obtain ⟨r, r', hmove⟩ := recordMove_step (i := index) hs h (by rw [hevent]; rfl)
    exact owned_move hs hmove

theorem owned_init (clock : Int) : Owned (system clock).init where
  coherent _ _ h := by cases h
  tableOwners _ _ h := by cases h
  claimOwners _ _ _ h := by cases h
  slotOwners _ _ _ h := by cases h
  claimKeys _ _ _ h := by cases h
  slotKeys _ _ _ h := by cases h
  claimsApart _ _ _ _ _ _ h := by cases h
  slotsApart _ _ _ _ _ _ h := by cases h
  intact _ _ _ h := by cases h

theorem owned_of_reachable {clock : Int} (h : (system clock).Reachable s) : Owned s :=
  h.invariant (owned_init clock) fun _ _ _ hs hstep => owned_step hs hstep

end Ez4.Queue.Claims

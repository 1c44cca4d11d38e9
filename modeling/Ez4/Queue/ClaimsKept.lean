import Ez4.Queue.ClaimsSafety

/-! # Kept keys

Once an execution kept its key as done or unknown, no step takes the key
before its ttl passed: a handler that runs for it then took it earlier, and is
past its lease. -/
namespace Ez4.Queue.Claims
open Ez4.Library Ez4.Queue.Messages Ez4.Queue.ProcessRecord

variable {s t : System} {i j : Nat} {u r' : RunningRecord} {c d : HeldClaim}

/-- A claim that was kept until a time: nobody takes its key before, and
nobody is yet to settle a claim of its owner. -/
structure Kept (kept : HeldClaim) (state : ClaimState) (expiration : Int) (origin s : System) :
    Prop where
  item : s.table kept.key = some ⟨state, kept.owner, expiration⟩
  settled : ∀ (j : Nat) (u : RunningRecord) (c : HeldClaim), s.records[j]? = some u →
    u.state.heldClaim = some c → c.owner = kept.owner → u.state.claimOpen = false
  slots : ∀ (j : Nat) (u : RunningRecord) (c : HeldClaim), s.records[j]? = some u →
    u.state.heldSlot = some c → c.owner ≠ kept.owner
  /-- Who holds a claim of the key did so when it was kept. -/
  before : ∀ (j : Nat) (u : RunningRecord) (c : HeldClaim), s.records[j]? = some u →
    u.state.heldClaim = some c → c.key = kept.key →
    ∃ v : RunningRecord, origin.records[j]? = some v ∧ v.state.heldClaim = some c

variable {kept : HeldClaim} {state : ClaimState} {expiration : Int} {origin : System}

theorem claimOpen_of_settles {r : RecordState} {claim : HeldClaim}
    (h : RecordState.settles r.awaiting = some claim) : r.claimOpen = true := by
  unfold RecordState.settles at h
  split at h
  · rename_i hawait
    simp only [RecordState.claimOpen, hawait]
  · rename_i hawait
    simp only [RecordState.claimOpen, hawait]
  · rename_i hawait
    simp only [RecordState.claimOpen, hawait]
  · rename_i hawait
    simp only [RecordState.claimOpen, hawait]
  · cases h

theorem kept_move {r : RunningRecord} (hs : Owned s) (hstate : state ≠ .running)
    (hk : Kept kept state expiration origin s) (h : RecordMove s t i r r')
    (hnow : s.now < expiration) : Kept kept state expiration origin t := by
  have howner : kept.owner < s.nextOwner := hs.tableOwners _ _ hk.item
  have hitem : t.table kept.key = some ⟨state, kept.owner, expiration⟩ := by
    rcases h.table with table | @⟨request, hq, -, writes, -⟩
    · rw [table, hk.item]
    · have hwrite : ∀ {item : StoredClaim} {d : HeldClaim}, s.table kept.key = some item →
          item.owner = d.owner → ((∃ state ttl, request = .keep d state ttl) ∨
            request = .release d) → False := by
        intro item d hi ho hd
        rw [hk.item, Option.some.injEq] at hi
        subst hi
        rcases holder_of_write hs h.before hq hd with ⟨hclaim, hsettles⟩ | hslot
        · have hsettled := hk.settled i r d h.before hclaim ho.symm
          rw [claimOpen_of_settles hsettles] at hsettled
          cases hsettled
        · exact hk.slots i r d h.before hslot ho.symm
      cases writes kept.key with
      | same hsame => rw [hsame, hk.item]
      | taken _ expired _ => exact absurd (expired _ hk.item) (Int.not_le.mpr hnow)
      | kept hr _ hi ho _ => exact (hwrite hi ho (.inl ⟨_, _, hr⟩)).elim
      | released hr _ hi ho _ => exact (hwrite hi ho (.inr hr)).elim
  refine ⟨hitem, fun j u c hj hc ho => ?_, fun j u c hj hc ho => ?_, fun j u c hj hc hkey => ?_⟩
  · rcases h.record_at hj with ⟨rfl, rfl⟩ | ⟨-, hj⟩
    · rcases h.held with ⟨held, -, opened⟩ | ⟨claim, -, owner, -, -, -⟩ |
        ⟨-, -, -, -, claim, -, opened⟩
      · have hrc : r.state.heldClaim = some c := held.claim ▸ hc
        have hsettled := hk.settled j r c h.before hrc ho
        exact Bool.eq_false_iff.mpr fun hopen => by
          rw [opened (by rw [hrc]; rfl) hopen] at hsettled
          cases hsettled
      · rw [claim, Option.some.injEq] at hc
        rw [hc, ho] at owner
        exact absurd owner (Nat.ne_of_lt howner)
      · have hrc : r.state.heldClaim = some c := claim ▸ hc
        have hsettled := hk.settled j r c h.before hrc ho
        exact Bool.eq_false_iff.mpr fun hopen => by
          rw [opened (by rw [hrc]; rfl) hopen] at hsettled
          cases hsettled
    · exact hk.settled j u c hj hc ho
  · rcases h.slot_at hj hc with ⟨v, hv, hvc⟩ | ⟨-, hnew, -, -, -⟩
    · exact hk.slots j v c hv hvc ho
    · exact absurd (ho ▸ hnew) (Nat.ne_of_lt howner)
  · rcases h.record_at hj with ⟨rfl, rfl⟩ | ⟨-, hj⟩
    · rcases h.held with ⟨held, -, -⟩ | ⟨claim, -, -, -, item, -⟩ | ⟨-, -, -, -, claim, -, -⟩
      · exact hk.before j r c h.before (held.claim ▸ hc) hkey
      · rw [claim, Option.some.injEq] at hc
        rw [hc, hkey, hitem, Option.some.injEq, StoredClaim.mk.injEq] at item
        exact absurd item.1 hstate
      · exact hk.before j r c h.before (claim ▸ hc) hkey
    · exact hk.before j u c hj hc hkey

theorem kept_records (hk : Kept kept state expiration origin s) {records : List RunningRecord}
    (h : HoldNoMore s records) : Kept kept state expiration origin { s with records } := by
  refine ⟨hk.item, fun j u c hj hc => ?_, fun j u c hj hc => ?_, fun j u c hj hc => ?_⟩
  · obtain ⟨v, hv, heq, -⟩ := h.claim hj hc
    exact heq ▸ hk.settled j v c hv (heq ▸ hc)
  · obtain ⟨v, hv, heq⟩ := h.slot hj hc
    exact hk.slots j v c hv (heq ▸ hc)
  · obtain ⟨v, hv, heq, -⟩ := h.claim hj hc
    exact hk.before j v c hv (heq ▸ hc)

theorem kept_step {event : SystemEvent} (hs : Owned s) (hstate : state ≠ .running)
    (hk : Kept kept state expiration origin s) (hnow : s.now < expiration)
    (h : s.step event = some t) : Kept kept state expiration origin t := by
  cases hevent : event with
  | advance milliseconds =>
    subst hevent
    cases h
    exact ⟨hk.item, hk.settled, hk.slots, hk.before⟩
  | expire key =>
    subst hevent
    simp only [System.step] at h
    split at h
    · rename_i item hitem
      split at h
      · rename_i hexpired
        cases h
        refine ⟨?_, hk.settled, hk.slots, hk.before⟩
        by_cases hkey : kept.key = key
        · rw [← hkey, hk.item, Option.some.injEq] at hitem
          subst hitem
          exact absurd hexpired (Int.not_le.mpr hnow)
        · simpa only [put_of_ne _ _ _ hkey] using hk.item
      · cases h
    · cases h
  | start execution =>
    subst hevent
    cases h
    exact kept_records hk (holdNoMore_start hs execution)
  | die index =>
    subst hevent
    obtain ⟨r, hr, rfl⟩ := Option.map_eq_some_iff.mp h
    exact kept_records hk (holdNoMore_die hs hr)
  | act index e =>
    obtain ⟨r, r', hmove⟩ := recordMove_step (i := index) hs h (by rw [hevent]; rfl)
    exact kept_move hs hstate hk hmove hnow
  | request index lost firstSlot slotWait =>
    obtain ⟨r, r', hmove⟩ := recordMove_step (i := index) hs h (by rw [hevent]; rfl)
    exact kept_move hs hstate hk hmove hnow

theorem now_le_of_step {event : SystemEvent} (hs : Owned s) (h : s.step event = some t) :
    s.now ≤ t.now := by
  cases hevent : event with
  | advance milliseconds =>
    subst hevent
    cases h
    exact Int.ediv_le_ediv (by decide) (show s.clock ≤ s.clock + (milliseconds : Int) by omega)
  | expire key =>
    subst hevent
    simp only [System.step] at h
    split at h
    · split at h
      · cases h
        exact Int.le_refl _
      · cases h
    · cases h
  | start execution =>
    subst hevent
    cases h
    exact Int.le_refl _
  | die index =>
    subst hevent
    obtain ⟨r, hr, rfl⟩ := Option.map_eq_some_iff.mp h
    exact Int.le_refl _
  | act index e =>
    obtain ⟨r, r', hmove⟩ := recordMove_step (i := index) hs h (by rw [hevent]; rfl)
    exact Int.le_of_eq hmove.now_eq.symm
  | request index lost firstSlot slotWait =>
    obtain ⟨r, r', hmove⟩ := recordMove_step (i := index) hs h (by rw [hevent]; rfl)
    exact Int.le_of_eq hmove.now_eq.symm

/-- **A kept key stays kept until its ttl passed.** -/
theorem kept_of_run {clock : Int} {events : List SystemEvent} (hs : Owned s)
    (hstate : state ≠ .running) (hk : Kept kept state expiration origin s)
    (h : (system clock).run events s = some t) (hnow : t.now < expiration) :
    Owned t ∧ Kept kept state expiration origin t := by
  have hall := Machine.run_invariant (M := system clock)
    (I := fun s => Owned s ∧ (s.now < expiration → Kept kept state expiration origin s))
    (fun s e t hi hstep => ⟨owned_step hi.1 hstep, fun hlt =>
      have hlt : s.now < expiration := Int.lt_of_le_of_lt (now_le_of_step hi.1 hstep) hlt
      kept_step hi.1 hstate (hi.2 hlt) hlt hstep⟩)
    ⟨hs, fun _ => hk⟩ h
  exact ⟨hall.1, hall.2 hnow⟩

/-! ## One execution for a key -/

theorem keep_not_running {x : Execution} {r : RecordState} {claim : HeldClaim} {ttl : Nat}
    (h : requestOf x r = some (.keep claim state ttl)) : state ≠ .running := by
  rintro rfl
  unfold requestOf at h
  split at h <;> simp at h

theorem kept_of_keep {r : RunningRecord} {claim : HeldClaim} {ttl : Nat} {lost : Option Bool}
    {firstSlot slotWait : Nat} (hs : Owned s) (hr : s.records[i]? = some r)
    (hq : requestOf r.execution r.state = some (.keep claim state ttl))
    (hkeep : (keepClaim s.table claim state ttl s.now).2 = .fulfilled) (hlost : lost ≠ some false)
    (h : s.step (.request i lost firstSlot slotWait) = some t) :
    Kept claim state (s.now + ttl) t t := by
  have hsettles := settles_of_keep hq
  have hclaim := RecordState.heldClaim_of_settles (hs.coherent i r hr) hsettles
  obtain ⟨_, _, hmove⟩ := recordMove_step (i := i) hs h rfl
  simp only [System.step, hr, System.request, hq, Option.bind_some] at h
  split at h
  · obtain ⟨after, hanswer, rfl⟩ := Option.map_eq_some_iff.mp h
    refine ⟨?_, fun j u c hj hc ho => ?_, fun j u c hj hc ho => ?_, fun j u c hj hc _ =>
      ⟨u, hj, hc⟩⟩
    · simp only [ClaimRequest.apply]
      unfold keepClaim at hkeep ⊢
      split at hkeep
      · cases hkeep
      · rename_i item hitem
        split at hkeep
        · rename_i howner
          simp only [howner, if_true, put_self]
        · cases hkeep
    · have hopen : after.claimOpen = false := RecordState.claimOpen_settled hsettles hanswer
      simp only [System.setRecord, List.getElem?_set] at hj
      split at hj
      · split at hj
        · cases hj
          exact hopen
        · cases hj
      · rename_i hij
        exact absurd (hs.claimsApart i j r u claim c hr hj hclaim hc ho.symm) hij
    · rcases hmove.slot_at hj hc with ⟨v, hv, hvc⟩ | ⟨-, hnew, -, -, -⟩
      · exact hs.slotsApart i j r v claim c hr hv hclaim hvc ho.symm
      · exact absurd (ho ▸ hnew) (Nat.ne_of_lt (hs.claimOwners i r claim hr hclaim))
  · cases h

/-- A handler runs before its key is settled. -/
theorem RunningRecord.handles.claim {r : RunningRecord} {key : ClaimKey} (h : r.handles key) :
    ∃ c : HeldClaim, r.state.heldClaim = some c ∧ c.key = key ∧ r.state.claimOpen = true := by
  obtain ⟨-, hawait, c, hc, hkey⟩ := h
  exact ⟨c, hc, hkey, by simp only [RecordState.claimOpen, hawait]⟩

theorem handlers_apart {r : RunningRecord} {key : ClaimKey} (hs : Owned s)
    (hi : s.records[i]? = some r) (hj : s.records[j]? = some u) (hr : r.handles key)
    (hu : u.handles key) (hrLease : s.now < r.leaseEnds) (huLease : s.now < u.leaseEnds) :
    i = j := by
  obtain ⟨c, hc, rfl, hopen⟩ := hr.claim
  obtain ⟨d, hd, hkey, hopen'⟩ := hu.claim
  have hitem := (hs.intact i r c hi hc hopen).resolve_right (Int.not_le.mpr hrLease)
  have hitem' := (hs.intact j u d hj hd hopen').resolve_right (Int.not_le.mpr huLease)
  rw [hkey, hitem, Option.some.injEq, StoredClaim.mk.injEq] at hitem'
  exact hs.claimsApart i j r u c d hi hj hc hd hitem'.2.1

theorem Kept.handles (hs : Owned s) (hstate : state ≠ .running)
    (hk : Kept kept state expiration origin s) (hj : s.records[j]? = some u)
    (hu : u.handles kept.key) :
    u.leaseEnds ≤ s.now ∧
      ∃ v : RunningRecord, origin.records[j]? = some v ∧ v.state.heldClaim = u.state.heldClaim := by
  obtain ⟨c, hc, hkey, hopen⟩ := hu.claim
  refine ⟨?_, ?_⟩
  · rcases hs.intact j u c hj hc hopen with hitem | hpassed
    · rw [hkey, hk.item, Option.some.injEq, StoredClaim.mk.injEq] at hitem
      exact absurd hitem.1 hstate
    · exact hpassed
  · obtain ⟨v, hv, hvc⟩ := hk.before j u c hj hc hkey
    exact ⟨v, hv, by rw [hvc, hc]⟩

/-- The claim of another execution is out of a record's reach. -/
theorem RecordMove.foreign_item_stays {r : RunningRecord} {item : StoredClaim}
    (h : RecordMove s t i r r') (hs : Owned s) (hc : r.state.heldClaim = some c)
    (hitem : s.table c.key = some item) (howner : item.owner ≠ c.owner) :
    t.table c.key = s.table c.key := by
  have hcoherent := hs.coherent i r h.before
  have hkey : c.key.slot = none := hs.claimKeys i r c h.before hc
  rcases h.table with table | @⟨request, hq, -, writes, -⟩
  · rw [table]
  · have hwrite : ∀ {other : StoredClaim} {d : HeldClaim}, d.key = c.key →
        s.table c.key = some other → other.owner = d.owner →
        ((∃ state ttl, request = .keep d state ttl) ∨ request = .release d) → False := by
      intro other d hdkey hi ho hd
      rw [hitem, Option.some.injEq] at hi
      subst hi
      rcases holder_of_write hs h.before hq hd with ⟨hclaim, -⟩ | hslot
      · rw [hc, Option.some.injEq] at hclaim
        exact howner (hclaim ▸ ho)
      · exact hs.slotKeys i r d h.before hslot (hdkey ▸ hkey)
    cases writes c.key with
    | same hsame => exact hsame
    | taken hr _ _ =>
      subst hr
      unfold requestOf at hq
      split at hq <;> rename_i hawait <;> simp at hq
      · -- `takeClaim` runs while no key is held
        rw [(hcoherent.at hawait).2.1] at hc
        cases hc
      · obtain ⟨slots, -, hslot, -⟩ := hq
        rw [← hslot] at hkey
        cases hkey
    | kept hr hk hi ho _ => exact (hwrite hk hi ho (.inl ⟨_, _, hr⟩)).elim
    | released hr hk hi ho _ => exact (hwrite hk hi ho (.inr hr)).elim

/-- Two executions of one key, the second once the lease of the first passed. -/
def overtakenExecution : Execution where
  options := { idempotency := some { handlerName := "handler", key := ["id"], lease := 30, ttl := 60 } }
  record := { messageId := "1", body := "x" }
  deleteEachRecord := true

/-- The first handler returns after the second execution took the key. -/
def overtakenEvents : List SystemEvent :=
  [.start overtakenExecution, .act 0 (.answer (.validated [("id", "7")]) ⟨0, 0, 0⟩),
    .request 0 none 0 0, .act 0 (.answer .fulfilled ⟨0, 0, 0⟩), .advance 30000,
    .start overtakenExecution, .act 1 (.answer (.validated [("id", "7")]) ⟨0, 0, 0⟩),
    .request 1 none 0 0, .act 1 (.answer .fulfilled ⟨0, 0, 0⟩),
    .act 0 (.answer .fulfilled ⟨0, 0, 0⟩)]

def overtaken : System :=
  ((system 0).run overtakenEvents (system 0).init).getD { clock := 0 }

def overtakenKey : ClaimKey := { handlerName := "handler", values := ["7"] }

end Ez4.Queue.Claims

import Ez4.Queue.RecordInvariant

/-! # The claims of a record

What a record holds changes only where `takeClaim` was answered, and once the
idempotency key was kept or freed no later await does either again. -/
namespace Ez4.Queue.ProcessRecord
open Ez4.Library Ez4.Queue.Messages

namespace RecordState

variable {x : Execution} {s t : RecordState}

/-! ## What is held -/

/-- `t` holds what `s` does. -/
structure SameHeld (s t : RecordState) : Prop where
  claim : t.heldClaim = s.heldClaim
  slot : t.heldSlot = s.heldSlot

theorem SameHeld.refl (s : RecordState) : SameHeld s s := ⟨rfl, rfl⟩

theorem sameHeld_finish (threw : Bool) : SameHeld s (s.finish threw) := by
  unfold finish
  split <;> exact ⟨rfl, rfl⟩

theorem sameHeld_consumeRecord : SameHeld s (s.consumeRecord x) := by
  unfold consumeRecord
  split
  · exact ⟨rfl, rfl⟩
  · exact sameHeld_finish false

theorem sameHeld_waitForSlot (tick : Tick) : SameHeld s (s.waitForSlot x tick) := by
  unfold waitForSlot
  split <;> exact ⟨rfl, rfl⟩

theorem sameHeld_takeSlot (slots : SlotsOptions) (message : Message) (firstSlot offset : Nat)
    (tick : Tick) : SameHeld s (s.takeSlot x slots message firstSlot offset tick) := by
  unfold takeSlot
  split
  · exact ⟨rfl, rfl⟩
  · exact sameHeld_waitForSlot tick

theorem sameHeld_enterSlots (message : Message) (tick : Tick) :
    SameHeld s (s.enterSlots x message tick) := by
  unfold enterSlots
  split
  · exact sameHeld_takeSlot _ message tick.firstSlot 0 tick
  · exact ⟨rfl, rfl⟩

theorem sameHeld_enterClaim (message : Message) (tick : Tick) :
    SameHeld s (s.enterClaim x message tick) := by
  unfold enterClaim
  split
  · exact ⟨rfl, rfl⟩
  · exact sameHeld_enterSlots message tick

theorem sameHeld_claimRefused (key : ClaimKey) (state : ClaimState) :
    SameHeld s (s.claimRefused x key state) := by
  unfold claimRefused
  split
  · exact ⟨rfl, rfl⟩
  · exact ⟨(sameHeld_consumeRecord (s := s.log _)).claim, (sameHeld_consumeRecord (s := s.log _)).slot⟩

theorem sameHeld_acknowledge : SameHeld s (s.acknowledge x) := by
  unfold acknowledge
  split <;> exact ⟨rfl, rfl⟩

theorem sameHeld_handlerReturned : SameHeld s (s.handlerReturned x) := by
  unfold handlerReturned
  dsimp only
  split
  · split <;> exact ⟨rfl, rfl⟩
  · exact ⟨sameHeld_acknowledge.claim, sameHeld_acknowledge.slot⟩

theorem sameHeld_failRecord (unknownOutcome : Bool) :
    SameHeld s (s.failRecord unknownOutcome) := by
  unfold failRecord
  split
  · exact ⟨rfl, rfl⟩
  · split <;> exact ⟨rfl, rfl⟩

theorem sameHeld_errorReported (unknownOutcome : Bool) :
    SameHeld s (s.errorReported x unknownOutcome) := by
  unfold errorReported
  dsimp only
  split
  · split
    · exact ⟨rfl, rfl⟩
    · exact ⟨sameHeld_consumeRecord.claim, sameHeld_consumeRecord.slot⟩
  · split
    · exact ⟨(sameHeld_failRecord _).claim, (sameHeld_failRecord _).slot⟩
    · exact ⟨(sameHeld_finish _).claim, (sameHeld_finish _).slot⟩

/-- What an answer changes of what is held. -/
inductive HeldAfter (x : Execution) (s t : RecordState) (answer : Answer) : Prop
  | same (held : SameHeld s t)
  | claim {message : Message} {options : ClaimsOptions} {owner : Uuid}
      (hawait : s.awaiting = .takeClaim message) (hoptions : x.options.idempotency = some options)
      (hanswer : answer = .claimed owner)
      (claim : t.heldClaim =
        some ⟨getIdempotencyKey options.handlerName message options.key, owner⟩)
      (slot : t.heldSlot = s.heldSlot)
  | slot {message : Message} {slots : SlotsOptions} {firstSlot offset : Nat} {owner : Uuid}
      (hawait : s.awaiting = .takeSlot message firstSlot offset)
      (hoptions : x.options.keyConcurrency = some slots) (hanswer : answer = .claimed owner)
      (claim : t.heldClaim = s.heldClaim)
      (slot : t.heldSlot = some ⟨getConcurrencySlotKey slots.handlerName message slots.key
        ((firstSlot + offset) % slots.max), owner⟩)

theorem heldAfter_claimAnswered {options : ClaimsOptions} {message : Message} {answer : Answer}
    {tick : Tick} (hawait : s.awaiting = .takeClaim message)
    (hoptions : x.options.idempotency = some options)
    (h : s.claimAnswered x options message answer tick = some t) : HeldAfter x s t answer := by
  unfold claimAnswered at h
  dsimp only at h
  split at h
  · cases h
    exact .claim hawait hoptions rfl (sameHeld_enterSlots message tick).claim
      (sameHeld_enterSlots message tick).slot
  · cases h
    exact .same (sameHeld_claimRefused _ _)
  · cases h
    exact .same ⟨rfl, rfl⟩
  · cases h

theorem heldAfter_slotAnswered {slots : SlotsOptions} {message : Message} {firstSlot offset : Nat}
    {answer : Answer} {tick : Tick} (hawait : s.awaiting = .takeSlot message firstSlot offset)
    (hoptions : x.options.keyConcurrency = some slots)
    (h : s.slotAnswered x slots message firstSlot offset answer tick = some t) :
    HeldAfter x s t answer := by
  unfold slotAnswered at h
  dsimp only at h
  split at h
  · cases h
    exact .slot hawait hoptions rfl rfl rfl
  · cases h
    exact .same (sameHeld_takeSlot slots message firstSlot (offset + 1) tick)
  · cases h
    exact .same ⟨rfl, rfl⟩
  · cases h

theorem heldAfter_answer {answer : Answer} {tick : Tick}
    (h : s.answer x answer tick = some t) : HeldAfter x s t answer := by
  unfold RecordState.answer at h
  split at h
  case h_5 message hawait =>
    obtain ⟨options, hoptions, h⟩ := Option.bind_eq_some_iff.mp h
    exact heldAfter_claimAnswered hawait hoptions h
  case h_6 message firstSlot offset hawait =>
    obtain ⟨slots, hoptions, h⟩ := Option.bind_eq_some_iff.mp h
    exact heldAfter_slotAnswered hawait hoptions h
  case h_3 message hawait =>
    cases h
    exact .same (sameHeld_enterClaim message tick)
  case h_7 copy hawait =>
    dsimp only at h
    split at h
    · cases h
      exact .same ⟨rfl, rfl⟩
    · cases h
      exact .same ⟨sameHeld_consumeRecord.claim, sameHeld_consumeRecord.slot⟩
  case h_11 hawait =>
    cases h
    exact .same sameHeld_handlerReturned
  case h_20 unknownOutcome hawait =>
    cases h
    exact .same (sameHeld_errorReported unknownOutcome)
  case h_34 => cases h
  all_goals cases h
  all_goals first
    | exact .same ⟨rfl, rfl⟩
    | exact .same ⟨sameHeld_consumeRecord.claim, sameHeld_consumeRecord.slot⟩
    | exact .same ⟨sameHeld_acknowledge.claim, sameHeld_acknowledge.slot⟩
    | exact .same ⟨(sameHeld_finish _).claim, (sameHeld_finish _).slot⟩

theorem start_holds_nothing (x : Execution) (now : Int) :
    (start x now).heldClaim = none ∧ (start x now).heldSlot = none := by
  unfold start
  dsimp only
  split
  · split <;> exact ⟨rfl, rfl⟩
  · exact ⟨rfl, rfl⟩

/-! ## Whether the key is still to be settled -/

/-- A held idempotency key was neither kept nor freed yet. -/
def claimOpen (s : RecordState) : Bool :=
  match s.awaiting with
  | .sendWaitCopy _ | .validate | .takeClaim _ => true
  | .takeSlot _ _ _ | .sendSlotCopy _ | .onReady | .handle => true
  | .settleClaim _ _ | .keepUnknown _ | .releaseThenConsume _ | .releaseThenRetry _ => true
  | .onError _ => !s.handled
  | .ackMessage | .onDone | .consumeRecord | .retryMessage | .releaseSlot _ _ | .ended _ => false

theorem claimOpen_finish (threw : Bool) : (s.finish threw).claimOpen = false := by
  unfold finish
  split <;> rfl

theorem claimOpen_consumeRecord : (s.consumeRecord x).claimOpen = false := by
  unfold consumeRecord
  split
  · rfl
  · exact claimOpen_finish false

theorem claimOpen_acknowledge : (s.acknowledge x).claimOpen = false := by
  unfold acknowledge
  split <;> rfl

/-- A key that was settled stays so. -/
theorem claimOpen_answer (hc : s.Coherent) {answer : Answer} {tick : Tick}
    (hopen : s.claimOpen = false) (h : s.answer x answer tick = some t) :
    t.claimOpen = false := by
  unfold RecordState.answer at h
  split at h <;> rename_i hawait
  all_goals simp only [claimOpen, hawait, Bool.true_eq_false] at hopen
  -- `ackMessage` and `onDone` come once the handler returned
  · cases h
    rfl
  · cases h
    rfl
  · cases h
    exact claimOpen_finish false
  · cases h
    have hh : s.handled = true := (hc.at hawait).2
    simp [claimOpen, caught, hh]
  · cases h
    have hh : s.handled = true := by simpa using hopen
    unfold errorReported
    simp only [hh, Bool.not_true, Bool.and_false, Bool.false_eq_true, if_false]
    exact claimOpen_finish false
  · cases h
    exact claimOpen_finish true
  · cases h
    exact claimOpen_finish false
  · cases h
    exact claimOpen_finish false
  · cases h
    exact claimOpen_finish false
  · cases h
    exact claimOpen_finish false
  · cases h
    rfl
  · cases h
    rfl
  · cases h

/-- The awaits whose request keeps or frees the idempotency key. -/
def settles : Await → Option HeldClaim
  | .settleClaim claim _ | .keepUnknown claim | .releaseThenConsume claim
  | .releaseThenRetry claim => some claim
  | _ => none

theorem claimOpen_settled {claim : HeldClaim} (hsettles : settles s.awaiting = some claim)
    {answer : Answer} {tick : Tick} (h : s.answer x answer tick = some t) :
    t.claimOpen = false := by
  unfold RecordState.answer at h
  split at h <;> rename_i hawait
  all_goals simp only [settles, hawait, reduceCtorEq] at hsettles
  -- `settleClaim`, `keepUnknown` and the releases
  · cases h
    exact claimOpen_acknowledge
  · cases h
    exact claimOpen_acknowledge
  · cases h
    exact claimOpen_acknowledge
  · cases h
    exact claimOpen_consumeRecord
  · cases h
    exact claimOpen_consumeRecord
  · cases h
    exact claimOpen_consumeRecord
  · cases h
    exact claimOpen_consumeRecord
  · cases h
    rfl
  · cases h
    rfl
  · cases h

theorem heldClaim_of_settles (hc : s.Coherent) {claim : HeldClaim}
    (h : settles s.awaiting = some claim) : s.heldClaim = some claim := by
  cases hawait : s.awaiting <;> rw [hawait] at h <;> simp only [settles, reduceCtorEq,
    Option.some.injEq] at h <;> subst h
  · exact (hc.at hawait).2.2
  · exact (hc.at hawait).2.1
  · exact (hc.at hawait).2.1
  · exact (hc.at hawait).2

/-- Calls change nothing about the claims. -/
theorem CallFrame.claims (h : CallFrame s t) : SameHeld s t ∧ t.claimOpen = s.claimOpen := by
  refine ⟨⟨h.heldClaim, h.heldSlot⟩, ?_⟩
  unfold claimOpen
  rw [h.awaiting, h.handled]

end RecordState

end Ez4.Queue.ProcessRecord

import Ez4.Queue.BatchRecords
import Ez4.Queue.RecordInvariant

/-! # The ways a record continues

A delivered record continues as a deferred copy or by being handed back. The
guards of `retry` and `defer` read flags that are set once a request ended, so
calls that overlap can do both, and twice. Calls that don't, can't. -/
namespace Ez4.Queue.ProcessRecord
open Ez4.Library Ez4.Queue.Messages

def Effect.isCopy : Effect → Bool
  | .copySent _ => true
  | _ => false

def PendingCall.isDefer : PendingCall → Bool
  | .defer _ => true
  | .retry => false

/-- The record's own code awaits a copy. -/
def Await.sends : Await → Bool
  | .sendWaitCopy _ | .sendSlotCopy _ => true
  | _ => false

namespace RecordState

variable {x : Execution} {s t : RecordState}

/-- The copies of the record that were sent. -/
def copies (s : RecordState) : Nat := s.effects.countP Effect.isCopy

/-- The calls of `defer` whose request is not answered. -/
def pendingDefers (s : RecordState) : Nat := s.pendingCalls.countP PendingCall.isDefer

/-- The copies that were sent by the handler's calls, or may yet be. -/
def callCopies (s : RecordState) : Nat := s.copies + s.pendingDefers

/-- The copies that were sent, or may yet be. -/
def allCopies (s : RecordState) : Nat := s.callCopies + if s.awaiting.sends then 1 else 0

/-- What a step has to keep to, so that the record continues in one way:
no call comes before the request of a `defer` was answered, and the record is
handed back by its own code only when no `defer` was let through. `settled`
tells that the batch already took the outcome, which no call changes then. -/
def Apart (settled : Bool) (s : RecordState) : RecordEvent → Prop
  | .call (.retry _) _ => settled = true ∨ s.pendingDefers = 0
  | .call (.defer _) _ => s.handedBack = true ∨ s.pendingDefers = 0
  | .answer answer _ =>
    match s.awaiting, answer with
    | .onError _, .fulfilled =>
      s.handled = true ∨ s.deferred = true ∨ s.heldClaim.isSome = true ∨ s.pendingDefers = 0
    | .releaseThenRetry _, _ => s.deferred = false ∧ s.pendingDefers = 0
    | _, _ => True
  | .callEnds _ _ => True

instance (settled : Bool) (s : RecordState) (e : RecordEvent) : Decidable (s.Apart settled e) := by
  unfold Apart
  split
  · infer_instance
  · infer_instance
  · split <;> infer_instance
  · infer_instance

/-- One copy at most, and none of a record that's handed back. -/
structure OneWay (s : RecordState) : Prop where
  atMostOne : s.allCopies ≤ 1
  exclusive : s.handedBack = true → s.allCopies = 0

/-! ## What the functions keep -/

theorem copies_log (effect : Effect) :
    (s.log effect).copies = s.copies + if effect.isCopy then 1 else 0 := by
  simp [copies, log, List.countP_append, List.countP_singleton]

theorem copies_eq_zero : s.copies = 0 ↔ ¬ s.Copied := by
  rw [copies, List.countP_eq_zero, Copied]
  constructor
  · rintro h ⟨copy, hm⟩
    exact h _ hm rfl
  · rintro h effect hm he
    cases effect with
    | copySent copy => exact h ⟨copy, hm⟩
    | _ => cases he

theorem callCopies_log (effect : Effect) :
    (s.log effect).callCopies = s.callCopies + if effect.isCopy then 1 else 0 := by
  rw [callCopies, copies_log, Nat.add_right_comm]
  rfl

/-- `t` has the copies of `s`, is handed back like it and awaits none of its own. -/
structure Quiet (s t : RecordState) : Prop where
  callCopies : t.callCopies = s.callCopies
  handedBack : t.handedBack = s.handedBack
  sends : t.awaiting.sends = false

theorem Quiet.of_eq {u : RecordState} (h : Quiet u t) (hc : u.callCopies = s.callCopies)
    (hb : u.handedBack = s.handedBack) : Quiet s t :=
  ⟨h.callCopies.trans hc, h.handedBack.trans hb, h.sends⟩

theorem Quiet.of_log {effect : Effect} (h : Quiet (s.log effect) t)
    (he : effect.isCopy = false) : Quiet s t :=
  h.of_eq (by rw [callCopies_log, he]; rfl) rfl

theorem quiet_goTo {awaiting : Await} (h : awaiting.sends = false) :
    Quiet s { s with awaiting } := ⟨rfl, rfl, h⟩

theorem quiet_finish (threw : Bool) : Quiet s (s.finish threw) := by
  unfold finish
  split <;> exact quiet_goTo rfl

theorem quiet_consumeRecord : Quiet s (s.consumeRecord x) := by
  unfold consumeRecord
  split
  · exact quiet_goTo rfl
  · exact quiet_finish false

theorem quiet_retryMessage : Quiet s s.retryMessage :=
  (quiet_goTo (s := s.log (.visibilityAsked none)) rfl).of_log rfl

theorem quiet_acknowledge : Quiet s (s.acknowledge x) := by
  unfold acknowledge
  split <;> exact quiet_goTo rfl

theorem quiet_handlerReturned : Quiet s (s.handlerReturned x) := by
  have hlog : (s.log .handlerFinished).callCopies = s.callCopies := callCopies_log _
  unfold handlerReturned
  dsimp only
  split
  · split
    · exact ⟨hlog, rfl, rfl⟩
    · exact ⟨(callCopies_log (s := s.log .handlerFinished) (.keepAsked _ .done)).trans hlog, rfl, rfl⟩
  · exact quiet_acknowledge.of_eq hlog rfl

theorem Quiet.oneWay (h : Quiet s t) (hs : s.callCopies ≤ 1)
    (hb : s.handedBack = true → s.callCopies = 0) : t.OneWay := by
  have hall : t.allCopies = s.callCopies := by simp [allCopies, h.sends, h.callCopies]
  exact ⟨hall ▸ hs, fun hh => by rw [hall, hb (h.handedBack ▸ hh)]⟩

/-- Nothing was sent for the record, and it isn't handed back. -/
theorem oneWay_of_none (hs : s.callCopies = 0) (hb : s.handedBack = true → s.awaiting.sends = false) :
    s.OneWay := by
  refine ⟨?_, fun hh => ?_⟩
  · rw [allCopies, hs]
    split <;> omega
  · rw [allCopies, hs, hb hh]
    rfl

theorem Fresh.callCopies (h : s.Fresh) (hs : s.Sound) : s.callCopies = 0 := by
  rw [RecordState.callCopies, copies_eq_zero.mpr h.copied, pendingDefers,
    hs.pendingCalls h.currentRequest]
  rfl

theorem waitForSlot_oneWay (hs : s.callCopies = 0) (hb : s.handedBack = false) (tick : Tick) :
    (s.waitForSlot x tick).OneWay := by
  unfold waitForSlot
  split
  · exact oneWay_of_none hs fun hh => by rw [show s.handedBack = true from hh] at hb; cases hb
  · exact oneWay_of_none hs fun _ => rfl

theorem takeSlot_oneWay (hs : s.callCopies = 0) (hb : s.handedBack = false) (slots : SlotsOptions)
    (message : Message) (firstSlot offset : Nat) (tick : Tick) :
    (s.takeSlot x slots message firstSlot offset tick).OneWay := by
  unfold takeSlot
  split
  · exact oneWay_of_none hs fun _ => rfl
  · exact waitForSlot_oneWay hs hb tick

theorem enterSlots_oneWay (hs : s.callCopies = 0) (hb : s.handedBack = false) (message : Message)
    (tick : Tick) : (s.enterSlots x message tick).OneWay := by
  unfold enterSlots
  split
  · exact takeSlot_oneWay hs hb _ message tick.firstSlot 0 tick
  · exact oneWay_of_none hs fun _ => rfl

theorem enterClaim_oneWay (hs : s.callCopies = 0) (hb : s.handedBack = false) (message : Message)
    (tick : Tick) : (s.enterClaim x message tick).OneWay := by
  unfold enterClaim
  split
  · exact oneWay_of_none hs fun _ => rfl
  · exact enterSlots_oneWay hs hb message tick

theorem claimRefused_oneWay (hs : s.callCopies = 0) (key : ClaimKey) (state : ClaimState) :
    (s.claimRefused x key state).OneWay := by
  have hzero : ∀ {n : Nat}, n = 0 → n ≤ 1 := fun h => by omega
  unfold claimRefused
  split
  · exact quiet_retryMessage.oneWay (hzero hs) fun _ => hs
  · refine (quiet_consumeRecord.of_log rfl).oneWay (hzero hs) fun _ => hs

theorem failRecord_oneWay (hcall : s.callCopies ≤ 1)
    (hex : s.handedBack = true → s.callCopies = 0)
    (h : s.heldClaim = none → s.callCopies = 0) (unknownOutcome : Bool) :
    (s.failRecord unknownOutcome).OneWay := by
  unfold failRecord
  split
  · rename_i hclaim
    have hzero : s.callCopies = 0 := h hclaim
    exact quiet_retryMessage.oneWay (s := { s with handedBack := true }) hcall fun _ => hzero
  · split
    · exact ((quiet_goTo rfl).of_log rfl).oneWay hcall hex
    · exact (quiet_goTo rfl).oneWay hcall hex

theorem errorReported_oneWay (hcall : s.callCopies ≤ 1)
    (hex : s.handedBack = true → s.callCopies = 0)
    (h : s.handled = false → s.deferred = false → s.heldClaim = none → s.callCopies = 0)
    (unknownOutcome : Bool) : (s.errorReported x unknownOutcome).OneWay := by
  unfold errorReported
  dsimp only
  split
  · split
    · exact (quiet_goTo (s := { s with holdsGroup := true }) rfl).oneWay hcall hex
    · exact (quiet_consumeRecord (s := { s with holdsGroup := true })).oneWay hcall hex
  · rename_i hnot
    split
    · rename_i hh
      have hh : s.handled = false := by simpa using hh
      have hd : s.deferred = false := by simpa [hh] using hnot
      exact failRecord_oneWay (s := { s with holdsGroup := true }) hcall hex (h hh hd)
        unknownOutcome
    · exact (quiet_finish (s := { s with holdsGroup := true }) false).oneWay hcall hex

/-! ## Steps -/

/-- A copy the record's own code awaits is sent, or isn't. -/
theorem sent_oneWay (hs : s.OneWay) (hsends : s.awaiting.sends = true) :
    s.callCopies = 0 ∧ s.handedBack = false := by
  have hone : s.callCopies + 1 ≤ 1 := by simpa [allCopies, hsends] using hs.atMostOne
  refine ⟨by omega, ?_⟩
  by_contra hb
  have hzero := hs.exclusive (by simpa using hb)
  simp [allCopies, hsends] at hzero

theorem calls_oneWay (hs : s.OneWay) :
    s.callCopies ≤ 1 ∧ (s.handedBack = true → s.callCopies = 0) := by
  refine ⟨Nat.le_trans (Nat.le_add_right _ _) hs.atMostOne, fun hb => ?_⟩
  have := hs.exclusive hb
  rw [allCopies] at this
  omega

/-- Without a `defer` that was let through there are no copies. -/
theorem callCopies_of_not_deferred (hc : s.Coherent) {awaiting : Await}
    (hawait : s.awaiting = awaiting) (hl : awaiting.leaves = false) (hd : s.deferred = false)
    (hp : s.pendingDefers = 0) : s.callCopies = 0 := by
  have hcopies : s.copies = 0 := copies_eq_zero.mpr fun h => by
    rw [hc.copied_at hawait hl h] at hd
    cases hd
  rw [callCopies, hcopies, hp]

theorem copySent_quiet {u : RecordState} {copy : Copy} (hzero : s.callCopies = 0)
    (hb : s.handedBack = false) (h : Quiet (s.log (.copySent copy)) u) : u.OneWay := by
  have hlog : (s.log (.copySent copy)).callCopies = 1 := by
    rw [callCopies_log, hzero]
    rfl
  refine h.oneWay (by omega) fun hh => ?_
  rw [show s.handedBack = true from hh] at hb
  cases hb

theorem claimAnswered_oneWay (hzero : s.callCopies = 0) (hb : s.handedBack = false)
    {options : ClaimsOptions} {message : Message} {answer : Answer} {tick : Tick}
    (h : s.claimAnswered x options message answer tick = some t) : t.OneWay := by
  unfold claimAnswered at h
  dsimp only at h
  split at h
  · rename_i owner
    cases h
    let claim : HeldClaim := ⟨getIdempotencyKey options.handlerName message options.key, owner⟩
    have hlog : (s.log (.claimTaken claim)).callCopies = 0 := (callCopies_log _).trans hzero
    exact enterSlots_oneWay (s := { s.log (.claimTaken claim) with heldClaim := some claim }) hlog hb
      message tick
  · cases h
    exact claimRefused_oneWay hzero _ _
  · cases h
    exact oneWay_of_none hzero fun _ => rfl
  · cases h

theorem slotAnswered_oneWay (hzero : s.callCopies = 0) (hb : s.handedBack = false)
    {slots : SlotsOptions} {message : Message} {firstSlot offset : Nat} {answer : Answer}
    {tick : Tick} (h : s.slotAnswered x slots message firstSlot offset answer tick = some t) :
    t.OneWay := by
  unfold slotAnswered at h
  dsimp only at h
  split at h
  · rename_i owner
    cases h
    have hlog : (s.log (.claimTaken ⟨getConcurrencySlotKey slots.handlerName message slots.key
        ((firstSlot + offset) % slots.max), owner⟩)).callCopies = 0 :=
      (callCopies_log _).trans hzero
    exact oneWay_of_none hlog fun _ => rfl
  · cases h
    exact takeSlot_oneWay hzero hb slots message firstSlot (offset + 1) tick
  · cases h
    exact oneWay_of_none hzero fun _ => rfl
  · cases h

theorem answer_oneWay (hc : s.Coherent) (hs : s.OneWay) {answer : Answer} {tick : Tick}
    (hapart : s.Apart false (.answer answer tick)) (h : s.answer x answer tick = some t) :
    t.OneWay := by
  obtain ⟨hcall, hex⟩ := calls_oneWay hs
  have hfresh : s.Fresh → s.callCopies = 0 := fun hf => hf.callCopies hc.sound
  unfold RecordState.answer at h
  split at h
  -- a copy that came back early
  · rename_i copy hawait
    cases h
    obtain ⟨hzero, hb⟩ := sent_oneWay hs (by rw [hawait]; rfl)
    exact copySent_quiet hzero hb quiet_consumeRecord
  · cases h
    exact (quiet_goTo rfl).oneWay hcall hex
  -- the validation
  · rename_i message hawait
    cases h
    have hf := (hc.at hawait).1
    exact enterClaim_oneWay (hfresh hf) hf.handedBack message tick
  · cases h
    exact (quiet_goTo rfl).oneWay hcall hex
  -- the claims
  · rename_i message hawait
    obtain ⟨options, -, h⟩ := Option.bind_eq_some_iff.mp h
    have hf := (hc.at hawait).1
    exact claimAnswered_oneWay (hfresh hf) hf.handedBack h
  · rename_i message firstSlot offset hawait
    obtain ⟨slots, -, h⟩ := Option.bind_eq_some_iff.mp h
    have hf := (hc.at hawait).1
    exact slotAnswered_oneWay (hfresh hf) hf.handedBack h
  -- a copy that waits for a slot
  · rename_i copy hawait
    obtain ⟨hzero, hb⟩ := sent_oneWay hs (by rw [hawait]; rfl)
    dsimp only at h
    split at h
    · cases h
      exact copySent_quiet hzero hb (quiet_goTo rfl)
    · cases h
      exact copySent_quiet hzero hb quiet_consumeRecord
  · cases h
    exact (quiet_goTo rfl).oneWay hcall hex
  -- the handler
  · cases h
    exact ((quiet_goTo (s := s.log .handlerStarted) rfl).of_log rfl).oneWay hcall hex
  · cases h
    exact (quiet_goTo rfl).oneWay hcall hex
  · cases h
    exact quiet_handlerReturned.oneWay hcall hex
  · cases h
    exact (quiet_goTo rfl).oneWay hcall hex
  -- after the handler
  · cases h
    exact (quiet_acknowledge.of_log rfl).oneWay hcall hex
  · cases h
    exact (quiet_acknowledge.of_log rfl).oneWay hcall hex
  · cases h
    exact quiet_acknowledge.oneWay hcall hex
  · cases h
    exact ((quiet_goTo (s := s.log .deleted) rfl).of_log rfl).oneWay hcall hex
  · cases h
    exact (quiet_goTo rfl).oneWay hcall hex
  · cases h
    exact (quiet_finish false).oneWay hcall hex
  · cases h
    exact (quiet_goTo rfl).oneWay hcall hex
  -- the `catch` block
  · rename_i unknownOutcome hawait
    cases h
    refine errorReported_oneWay hcall hex (fun hh hd hclaim => ?_) unknownOutcome
    simp only [Apart, hawait, hh, hd, hclaim] at hapart
    exact callCopies_of_not_deferred hc hawait rfl hd (by simpa using hapart)
  · cases h
    exact (quiet_finish true).oneWay hcall hex
  · cases h
    exact (quiet_consumeRecord.of_log rfl).oneWay hcall hex
  · cases h
    exact quiet_consumeRecord.oneWay hcall hex
  · cases h
    exact (quiet_consumeRecord.of_log rfl).oneWay hcall hex
  · cases h
    exact quiet_consumeRecord.oneWay hcall hex
  · rename_i claim hawait
    cases h
    simp only [Apart, hawait] at hapart
    have hzero := callCopies_of_not_deferred hc hawait rfl hapart.1 hapart.2
    have hlog : (s.log (.claimReleased claim)).callCopies = 0 := (callCopies_log _).trans hzero
    exact quiet_retryMessage.oneWay
      (s := { s.log (.claimReleased claim) with handedBack := true }) (by
        show (s.log (.claimReleased claim)).callCopies ≤ 1
        omega) fun _ => hlog
  · rename_i claim unknownOutcome hawait
    cases h
    simp only [Apart, hawait] at hapart
    have hzero := callCopies_of_not_deferred hc hawait rfl hapart.1 hapart.2
    exact quiet_retryMessage.oneWay (s := { s with handedBack := true }) hcall fun _ => hzero
  · cases h
    exact ((quiet_finish false).of_log rfl).oneWay hcall hex
  · cases h
    exact (quiet_finish false).oneWay hcall hex
  · cases h
    exact (quiet_finish false).oneWay hcall hex
  · cases h
    exact (quiet_finish false).oneWay hcall hex
  -- the `finally` block
  · rename_i claim threw hawait
    cases h
    exact ((quiet_goTo (s := s.log (.claimReleased claim)) rfl).of_log rfl).oneWay hcall hex
  · cases h
    exact (quiet_goTo rfl).oneWay hcall hex
  · cases h

theorem pendingDefers_eraseIdx {index : Nat} {call : PendingCall}
    (h : s.pendingCalls[index]? = some call) :
    (s.pendingCalls.eraseIdx index).countP PendingCall.isDefer + (if call.isDefer then 1 else 0) =
      s.pendingDefers := by
  obtain ⟨hlt, rfl⟩ := List.getElem?_eq_some_iff.mp h
  have hperm := (List.getElem_cons_eraseIdx_perm hlt).countP_eq PendingCall.isDefer
  rw [List.countP_cons] at hperm
  exact hperm

/-- Between the copies in flight and the copies sent, an answered call loses none
and gains none. -/
theorem callEnds_callCopies {index : Nat} {succeeds : Bool} (h : s.callEnds index succeeds = some t) :
    t.callCopies ≤ s.callCopies ∧ t.handedBack = s.handedBack ∧ t.awaiting = s.awaiting := by
  unfold callEnds at h
  split at h
  · rename_i hcall
    cases h
    have hp := pendingDefers_eraseIdx hcall
    refine ⟨?_, rfl, rfl⟩
    have hlog : (s.log (.callAnswered .fulfilled)).copies = s.copies := copies_log _
    simp only [PendingCall.isDefer, Bool.false_eq_true, if_false, Nat.add_zero] at hp
    show (s.log (.callAnswered .fulfilled)).copies + _ ≤ s.copies + s.pendingDefers
    rw [hlog, pendingDefers, hp]
  · rename_i copy hcall
    have hp := pendingDefers_eraseIdx hcall
    simp only [PendingCall.isDefer, if_true] at hp
    dsimp only at h
    split at h
    · cases h
      refine ⟨?_, rfl, rfl⟩
      have hlog : ((s.log (.copySent copy)).log (.callAnswered .fulfilled)).copies = s.copies + 1 :=
        (copies_log _).trans (copies_log _)
      show ((s.log (.copySent copy)).log (.callAnswered .fulfilled)).copies +
        (s.pendingCalls.eraseIdx index).countP PendingCall.isDefer ≤ s.copies + s.pendingDefers
      omega
    · cases h
      refine ⟨?_, rfl, rfl⟩
      have hlog : (s.log (.callAnswered .requestFailed)).copies = s.copies := copies_log _
      show (s.log (.callAnswered .requestFailed)).copies +
        (s.pendingCalls.eraseIdx index).countP PendingCall.isDefer ≤ s.copies + s.pendingDefers
      omega
  · cases h

/-- A `defer` is let through when no copy was sent and none is in flight. -/
theorem makeCall_defer (hc : s.Coherent) (hrequest : s.currentRequest.isSome = true)
    (delay : Rat) (now : Int) (hapart : s.handedBack = true ∨ s.pendingDefers = 0) :
    ((s.makeCall x (.defer delay) now).callCopies = s.callCopies ∨
        s.callCopies = 0 ∧ s.handedBack = false ∧
          (s.makeCall x (.defer delay) now).callCopies = 1) ∧
      (s.makeCall x (.defer delay) now).handedBack = s.handedBack := by
  simp only [makeCall]
  split
  · exact ⟨.inl (callCopies_log _), rfl⟩
  split
  · exact ⟨.inl (callCopies_log _), rfl⟩
  rename_i hnot
  simp only [Bool.or_eq_true, not_or, Bool.not_eq_true] at hnot
  split
  · rename_i copy _
    refine ⟨.inr ?_, rfl⟩
    have hcopies : s.copies = 0 := copies_eq_zero.mpr fun hcopied => by
      rw [hc.sound.requested hrequest hcopied] at hnot
      cases hnot.2
    have hp : s.pendingDefers = 0 := hapart.resolve_left (by simp [hnot.1])
    refine ⟨by rw [callCopies, hcopies, hp], hnot.1, ?_⟩
    show s.copies + (s.pendingCalls ++ [PendingCall.defer copy]).countP PendingCall.isDefer = 1
    rw [List.countP_append, hcopies]
    rw [pendingDefers] at hp
    rw [hp]
    rfl
  · exact ⟨.inl (callCopies_log _), rfl⟩

theorem makeCall_retry (x : Execution) (s : RecordState) (delay : Option Rat) (now : Int) :
    (s.makeCall x (.retry delay) now).callCopies = s.callCopies ∧
      ((s.makeCall x (.retry delay) now).handedBack = true → s.handedBack = true ∨
        s.deferred = false) := by
  simp only [makeCall]
  split
  · exact ⟨callCopies_log _, .inl⟩
  · rename_i hd
    refine ⟨?_, fun _ => .inr (by simpa using hd)⟩
    show (s.log (.visibilityAsked delay)).copies + (s.pendingCalls ++ [PendingCall.retry]).countP
      PendingCall.isDefer = s.copies + s.pendingDefers
    rw [show (s.log (.visibilityAsked delay)).copies = s.copies from copies_log _,
      List.countP_append]
    rfl

theorem sends_of_request (hc : s.Coherent) (hrequest : s.currentRequest.isSome = true) :
    s.awaiting.sends = false := by
  have hnot : ¬ s.Fresh := fun hf => by
    rw [hf.currentRequest] at hrequest
    cases hrequest
  cases hawait : s.awaiting with
  | sendWaitCopy copy => exact absurd (hc.at hawait).1 hnot
  | sendSlotCopy copy => exact absurd (hc.at hawait).1 hnot
  | _ => rfl

theorem currentRequest_of_callEnds (hc : s.Coherent) {index : Nat} {succeeds : Bool}
    (h : s.callEnds index succeeds = some t) : s.currentRequest.isSome = true := by
  cases hr : s.currentRequest with
  | some => rfl
  | none => simp [callEnds, hc.sound.pendingCalls hr] at h

/-- A step that keeps apart keeps a record to one way. -/
theorem step_oneWay (hc : s.Coherent) (hs : s.OneWay) {e : RecordEvent}
    (hapart : s.Apart false e) (h : step x s e = some t) : t.OneWay := by
  obtain ⟨hcall, hex⟩ := calls_oneWay hs
  cases e with
  | answer answer tick => exact answer_oneWay hc hs hapart h
  | call call now =>
    simp only [step] at h
    split at h
    · rename_i hrequest
      cases h
      have hawait : (s.makeCall x call now).awaiting.sends = false := by
        rw [(makeCall_frame call now).awaiting]
        exact sends_of_request hc hrequest
      cases call with
      | retry delay =>
        obtain ⟨hcopies, hback⟩ := makeCall_retry x s delay now
        refine ⟨by rw [allCopies, hawait, hcopies]; simpa using hcall, fun hb => ?_⟩
        have hp : s.pendingDefers = 0 := by simpa [Apart] using hapart
        rw [allCopies, hawait, hcopies]
        rcases hback hb with hb | hd
        · simpa using hex hb
        · have hcopied : s.copies = 0 := copies_eq_zero.mpr fun hcopied => by
            rw [hc.sound.requested hrequest hcopied] at hd
            cases hd
          simp [callCopies, hcopied, hp]
      | defer delay =>
        obtain ⟨hcopies, hback⟩ := makeCall_defer (x := x) hc hrequest delay now hapart
        rcases hcopies with hcopies | ⟨-, hb', hcopies⟩
        · refine ⟨by rw [allCopies, hawait, hcopies]; simpa using hcall, fun hb => ?_⟩
          rw [allCopies, hawait, hcopies]
          simpa using hex (hback ▸ hb)
        · refine ⟨by rw [allCopies, hawait, hcopies]; simp, fun hb => ?_⟩
          rw [hback, hb'] at hb
          cases hb
    · cases h
  | callEnds index succeeds =>
    have h' : s.callEnds index succeeds = some t := h
    obtain ⟨hle, hback, hawait⟩ := callEnds_callCopies h'
    have hrequest := currentRequest_of_callEnds hc h'
    have hsends : t.awaiting.sends = false := hawait ▸ sends_of_request hc hrequest
    refine ⟨?_, fun hb => ?_⟩
    · rw [allCopies, hsends]
      simpa using Nat.le_trans hle hcall
    · rw [allCopies, hsends]
      have := hex (hback ▸ hb)
      simp only [Bool.false_eq_true, if_false, Nat.add_zero]
      omega

/-! ## Once the outcome is taken -/

/-- A record whose outcome the batch took. -/
structure OneWayEnded (s : RecordState) (outcome : Option RecordOutcome) : Prop where
  coherent : s.Coherent
  ended : ∃ threw, s.awaiting = .ended threw
  atMostOne : s.callCopies ≤ 1
  exclusive : ∀ o, outcome = some o → o.handedBack = true →
    s.handedBack = true ∧ s.callCopies = 0

theorem oneWayEnded_of_outcome (hc : s.Coherent) (hs : s.OneWay) {outcome : Option RecordOutcome}
    (h : s.outcome? = some outcome) : s.OneWayEnded outcome := by
  obtain ⟨threw, hawait, -, hout⟩ := outcome?_eq_some h
  obtain ⟨hcall, hex⟩ := calls_oneWay hs
  refine ⟨hc, ⟨threw, hawait⟩, hcall, fun o ho hb => ?_⟩
  rw [hout o ho] at hb
  exact ⟨hb, hex hb⟩

theorem step_oneWayEnded {outcome : Option RecordOutcome} (hs : s.OneWayEnded outcome)
    {e : RecordEvent} (hapart : s.Apart true e) (h : step x s e = some t) :
    t.OneWayEnded outcome := by
  obtain ⟨threw, hended⟩ := hs.ended
  have hframe := step_of_ended hended h
  have hc := step_coherent hs.coherent h
  have hawait : ∃ threw, t.awaiting = .ended threw := ⟨threw, hframe.awaiting.trans hended⟩
  cases e with
  | answer answer tick => cases answer <;> simp [step, RecordState.answer, hended] at h
  | call call now =>
    simp only [step] at h
    split at h
    · rename_i hrequest
      cases h
      cases call with
      | retry delay =>
        obtain ⟨hcopies, -⟩ := makeCall_retry x s delay now
        refine ⟨hc, hawait, hcopies ▸ hs.atMostOne, fun o ho hb => ?_⟩
        obtain ⟨hback, hzero⟩ := hs.exclusive o ho hb
        exact ⟨hframe.handedBack hback, hcopies.trans hzero⟩
      | defer delay =>
        obtain ⟨hcopies, -⟩ := makeCall_defer (x := x) hs.coherent hrequest delay now hapart
        rcases hcopies with hcopies | ⟨-, hnot, hcopies⟩
        · refine ⟨hc, hawait, hcopies ▸ hs.atMostOne, fun o ho hb => ?_⟩
          obtain ⟨hback, hzero⟩ := hs.exclusive o ho hb
          exact ⟨hframe.handedBack hback, hcopies.trans hzero⟩
        · refine ⟨hc, hawait, Nat.le_of_eq hcopies, fun o ho hb => ?_⟩
          rw [(hs.exclusive o ho hb).1] at hnot
          cases hnot
    · cases h
  | callEnds index succeeds =>
    obtain ⟨hle, -, -⟩ := callEnds_callCopies (show s.callEnds index succeeds = some t from h)
    refine ⟨hc, hawait, Nat.le_trans hle hs.atMostOne, fun o ho hb => ?_⟩
    obtain ⟨hback, hzero⟩ := hs.exclusive o ho hb
    exact ⟨hframe.handedBack hback, by omega⟩

theorem start_oneWay (x : Execution) (now : Int) : (start x now).OneWay := by
  unfold start
  dsimp only
  split
  · split <;> exact oneWay_of_none rfl nofun
  · exact oneWay_of_none rfl nofun

end RecordState

end Ez4.Queue.ProcessRecord

/-! ## Batches -/

namespace Ez4.Queue.Batch
open Ez4.Library Ez4.Queue.Messages Ez4.Queue.ProcessRecord Ez4.Utils.Tasks BatchState

/-- The step of a batch keeps apart what happens in its record. -/
def StepApart (s : BatchState SqsRecord RecordState) : BatchEvent RecordEvent → Prop
  | .inner i event =>
    match s.tasks[i]? with
    | some ⟨_, .running (.processing _ state)⟩ => state.Apart false event
    | some ⟨_, .settled (.processed state _)⟩ => state.Apart true event
    | _ => True
  | _ => True

instance (s : BatchState SqsRecord RecordState) (e : BatchEvent RecordEvent) :
    Decidable (StepApart s e) := by
  unfold StepApart
  split
  · split <;> infer_instance
  · infer_instance

variable {options : Options} {acknowledge : String} {records : List SqsRecord}
  {s t : BatchState SqsRecord RecordState}

/-- What a batch whose steps keep apart has of its records. -/
structure OneWayBatch (P : Process SqsRecord RecordState RecordEvent)
    (s : BatchState SqsRecord RecordState) : Prop where
  records : TasksOk (fun _ state => state.Coherent ∧ state.OneWay)
    (fun _ state outcome => state.OneWayEnded outcome) s
  explained : Explained P s

theorem oneWayBatch_step {deleteEachRecord : Bool} {workers : Nat} {e : BatchEvent RecordEvent}
    (hs : OneWayBatch (recordProcess options deleteEachRecord) s) (hok : StepApart s e)
    (h : step (recordProcess options deleteEachRecord) workers s e = some t) :
    OneWayBatch (recordProcess options deleteEachRecord) t := by
  refine ⟨?_, explained_moved hs.explained (moved_step h)⟩
  refine tasksOk_step (fun _ settled state event => state.Apart settled event)
    (fun _ _ => ⟨RecordState.start_coherent _ _, RecordState.start_oneWay _ _⟩)
    (fun _ _ _ _ hapart hst hstep => ⟨RecordState.step_coherent hst.1 hstep,
      RecordState.step_oneWay hst.1 hst.2 hapart hstep⟩)
    (fun _ _ _ hst hout => RecordState.oneWayEnded_of_outcome hst.1 hst.2 hout)
    (fun _ _ _ _ _ hapart hst hstep => RecordState.step_oneWayEnded hst hapart hstep)
    hs.records ?_ h
  rintro i event record status rfl task
  constructor
  · rintro startTime state rfl
    simpa only [StepApart, task] using hok
  · rintro state outcome rfl
    simpa only [StepApart, task] using hok

/-- **A delivered record continues in at most one way**, in every batch whose
handlers make no call while a `defer` of theirs is in flight, and whose records
are handed back by their own code only when no `defer` of theirs was let
through. -/
theorem processAllRecords_oneWay (options : Options) (acknowledge : String)
    (parallelism : Parallelism) (records : List SqsRecord)
    (events : List (BatchEvent RecordEvent)) (s : BatchState SqsRecord RecordState)
    (hok : (processAllRecords options acknowledge parallelism records).Meets StepApart events
      (processAllRecords options acknowledge parallelism records).init)
    (h : (processAllRecords options acknowledge parallelism records).run events
      (processAllRecords options acknowledge parallelism records).init = some s) :
    (∀ task ∈ s.tasks, ∀ state, stateOf task.status = some state →
      state.copies ≤ 1 ∧ (0 < state.copies → (stageOf task.status).handsBack = false)) ∧
      ∀ id ∈ s.batchItemFailures
        (recordProcess options (deletesEachRecord acknowledge records)),
        ∃ task ∈ s.tasks, task.item.messageId = id ∧
          (stageOf task.status).handsBack = true := by
  let P := recordProcess options (deletesEachRecord acknowledge records)
  have hinit : OneWayBatch P (processAllRecords options acknowledge parallelism records).init :=
    ⟨tasksOk_init P parallelism records, fun id hid => by cases hid⟩
  have hstep : ∀ (u : BatchState SqsRecord RecordState) (e : BatchEvent RecordEvent)
      (v : BatchState SqsRecord RecordState), OneWayBatch P u → StepApart u e →
      (processAllRecords options acknowledge parallelism records).step u e = some v →
      OneWayBatch P v := fun u e v hu hok hv => oneWayBatch_step hu hok hv
  have hbatch := Machine.run_invariant_of_meets hstep hinit hok h
  constructor
  · rintro ⟨record, status⟩ hm state hstate
    have hstatus := hbatch.records _ hm
    rcases status with _ | (_ | ⟨startTime, st⟩) | (_ | _ | _ | ⟨st, outcome⟩) <;>
      simp only [stateOf, Option.some.injEq, reduceCtorEq] at hstate
    · subst hstate
      have hst : st.Coherent ∧ st.OneWay := hstatus
      exact ⟨Nat.le_trans (Nat.le_add_right _ _) (RecordState.calls_oneWay hst.2).1, fun _ => rfl⟩
    · subst hstate
      have hst : st.OneWayEnded outcome := hstatus
      refine ⟨Nat.le_trans (Nat.le_add_right _ _) hst.atMostOne, fun hpos => ?_⟩
      cases outcome with
      | none => rfl
      | some o =>
        by_contra hb
        have hzero := (hst.exclusive o rfl (by simpa [stageOf, Stage.handsBack] using hb)).2
        rw [RecordState.callCopies] at hzero
        omega
  · intro id hid
    simp only [batchItemFailures, List.mem_map, List.mem_filter] at hid
    obtain ⟨record, ⟨-, hin⟩, rfl⟩ := hid
    exact hbatch.explained _ (by simpa using hin)

/-- A lone record of a queue without groups. -/
def loneRecords : List SqsRecord := [{ messageId := "1", body := "x" }]

/-- Up to where the handler of the lone record runs. -/
def untilHandler : List (BatchEvent RecordEvent) :=
  [.take, .resume 0 5000 0, .inner 0 (.answer (.validated []) ⟨0, 0, 0⟩),
    .inner 0 (.answer .fulfilled ⟨0, 0, 0⟩)]

/-- The handler defers its message, awaits that, and returns. -/
def awaitedDefer : List (BatchEvent RecordEvent) :=
  untilHandler ++ [.inner 0 (.call (.defer 5) 0), .inner 0 (.callEnds 0 true),
    .inner 0 (.answer .fulfilled ⟨0, 0, 0⟩), .inner 0 (.answer .fulfilled ⟨0, 0, 0⟩), .settle 0 9]

/-- The handler defers its message twice at once. -/
def overlappingDefers : List (BatchEvent RecordEvent) :=
  untilHandler ++ [.inner 0 (.call (.defer 5) 0), .inner 0 (.call (.defer 5) 0),
    .inner 0 (.callEnds 0 true), .inner 0 (.callEnds 0 true)]

/-- The batch of the lone record after some events. -/
def loneBatchAfter (events : List (BatchEvent RecordEvent)) : BatchState SqsRecord RecordState :=
  ((processAllRecords {} "record" (.finite 1) loneRecords).run events
    (processAllRecords {} "record" (.finite 1) loneRecords).init).getD { tasks := [] }

theorem awaitedDefer_oneWay : (loneBatchAfter awaitedDefer).Returned ∧
    (∀ task ∈ (loneBatchAfter awaitedDefer).tasks, ∀ state, stateOf task.status = some state →
      state.copies ≤ 1 ∧ (0 < state.copies → (stageOf task.status).handsBack = false)) :=
  ⟨⟨by decide, by decide⟩,
    (processAllRecords_oneWay {} "record" (.finite 1) loneRecords awaitedDefer
      (loneBatchAfter awaitedDefer) (by decide) (by decide)).1⟩

theorem overlappingDefers_not_oneWay : ¬ ∀ (options : Options) (acknowledge : String)
    (parallelism : Parallelism) (records : List SqsRecord)
    (events : List (BatchEvent RecordEvent)) (s : BatchState SqsRecord RecordState),
    (processAllRecords options acknowledge parallelism records).run events
      (processAllRecords options acknowledge parallelism records).init = some s →
    ∀ task ∈ s.tasks, ∀ state, stateOf task.status = some state →
      state.copies ≤ 1 ∧ (0 < state.copies → (stageOf task.status).handsBack = false) := by
  intro h
  have hrun := h {} "record" (.finite 1) loneRecords overlappingDefers
    (loneBatchAfter overlappingDefers) (by decide)
  have htwo : ∃ task ∈ (loneBatchAfter overlappingDefers).tasks,
      (stateOf task.status).map RecordState.copies = some 2 := by decide
  obtain ⟨task, hm, hstate⟩ := htwo
  obtain ⟨state, hstate, hcopies⟩ := Option.map_eq_some_iff.mp hstate
  have := (hrun task hm state hstate).1
  omega

end Ez4.Queue.Batch

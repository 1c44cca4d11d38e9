import Ez4.Local.Lambda

/-! # A local message does what the deployed record does

A record of the queue runtime awaits each of its requests, a local message
only its validation, its handler and its hooks. With no request failing, the
record's requests end in the state the message is in at once: `Matches` is a
simulation, in which the message waits for the answers to the claims and goes
ahead of every other request. -/
namespace Ez4.Local.Agreement
open Ez4.Queue.Messages hiding deferredCopy
open Ez4.Library Ez4.Queue.ProcessRecord Ez4.Local.Queue Ez4.Local.Lambda

/-! ## The same message -/

/-- A record and a message with the same content; a deferred copy is due at the
same time. A group id has a character at least. -/
structure SameMessage (record : SqsRecord) (message : ReceivedMessage) : Prop where
  messageId : record.messageId = toString message.messageId
  body : record.body = message.body
  groupId : record.messageGroupId = message.groupId
  group : record.messageGroupId ≠ some ""
  receiveCount : record.receiveCount = message.receiveCount
  defers : record.defers = message.attributes.defers
  deferUntil : message.attributes.deferUntil =
    record.deferUntil.map fun seconds => ((seconds * 1000 : Int) : Rat)

structure SameExecution (x : Execution) (y : LocalExecution) : Prop where
  options : y.options = x.options
  message : SameMessage x.record y.message
  deleteEachRecord : y.deleteEachRecord = x.deleteEachRecord

theorem SameMessage.group_eq {record : SqsRecord} {message : ReceivedMessage}
    (h : SameMessage record message) : record.group = message.groupId := by
  rw [SqsRecord.group, ← h.groupId]
  cases hgroup : record.messageGroupId with
  | none => rfl
  | some g =>
    have hg : g ≠ "" := fun hg => h.group (hgroup.trans (congrArg some hg))
    simp [hg]

/-! ## What both do -/

/-- What is done for a message, of which a copy is told by its body, its delay
and how often it was deferred. -/
inductive Observed
  | copySent (body : String) (delay : Rat) (defers : Nat)
  | deleted
  | visibilityAsked (userDelay : Option Rat)
  | claimTaken (claim : HeldClaim)
  | claimKept (claim : HeldClaim) (state : ClaimState)
  | claimReleased (claim : HeldClaim)
  | handlerStarted
  | handlerFinished
  | callAnswered (answer : CallAnswer)
deriving DecidableEq, Repr

def observeRecord : Effect → Option Observed
  | .copySent copy => some (.copySent copy.body copy.delaySeconds copy.defers)
  | .deleted => some .deleted
  | .visibilityAsked userDelay => some (.visibilityAsked userDelay)
  | .claimTaken claim => some (.claimTaken claim)
  | .keyFound _ _ | .keepAsked _ _ => none
  | .claimKept claim state => some (.claimKept claim state)
  | .claimReleased claim => some (.claimReleased claim)
  | .handlerStarted => some .handlerStarted
  | .handlerFinished => some .handlerFinished
  | .callAnswered answer => some (.callAnswered answer)

def observeMessage : LocalEffect → Observed
  | .copySent copy => .copySent copy.body (copy.delay.getD 0) (copy.attributes.defers.getD 0)
  | .deleted => .deleted
  | .visibilityAsked userDelay => .visibilityAsked userDelay
  | .claimTaken claim => .claimTaken claim
  | .claimKept claim state => .claimKept claim state
  | .claimReleased claim => .claimReleased claim
  | .handlerStarted => .handlerStarted
  | .handlerFinished => .handlerFinished
  | .callAnswered answer => .callAnswered answer

/-- The copies of both, or the error of both. -/
inductive SameCopy : Except CallAnswer Copy → Except CallAnswer OutgoingMessage → Prop
  | error (answer : CallAnswer) : SameCopy (.error answer) (.error answer)
  | ok {copy : Copy} {sent : OutgoingMessage}
      (h : observeRecord (.copySent copy) = some (observeMessage (.copySent sent))) :
      SameCopy (.ok copy) (.ok sent)

theorem sameCopy {record : SqsRecord} {message : ReceivedMessage} {delay delay' : Rat}
    (h : SameMessage record message) (hdelay : delay.ceil = delay'.ceil) (counted : Bool)
    (now now' : Int) : SameCopy (Ez4.Queue.Messages.deferredCopy record delay counted now)
      (deferredCopy message delay' counted now') := by
  unfold Ez4.Queue.Messages.deferredCopy deferredCopy
  dsimp only
  rw [h.defers]
  generalize (if counted = true then message.attributes.defers.getD 0 + 1
    else message.attributes.defers.getD 0) = deferCount
  split
  · exact .error _
  · refine .ok ?_
    simp [observeRecord, observeMessage, h.body, hdelay]

/-! ## Matching states -/

/-- The message has the record's data, and no call is unanswered. -/
structure Same (a : RecordState) (l : LocalState) : Prop where
  calls : a.pendingCalls = []
  handedBack : l.handedBack = a.handedBack
  holdsGroup : l.holdsGroup = a.holdsGroup
  currentRequest : l.currentRequest = a.currentRequest
  heldClaim : l.heldClaim = a.heldClaim
  heldSlot : l.heldSlot = a.heldSlot
  deferred : l.deferred = a.deferred
  handled : l.handled = a.handled
  effects : l.effects.map observeMessage = a.effects.filterMap observeRecord

/-- The awaits a message has too. -/
def visibleAwait : Await → Option LocalAwait
  | .validate => some .validate
  | .onReady => some .onReady
  | .handle => some .handle
  | .onDone => some .onDone
  | .onError unknownOutcome => some (.onError unknownOutcome)
  | .ended threw => some (.ended threw)
  | _ => none

/-- The handler or a hook runs, and may make calls. -/
def listens : Await → Bool
  | .onReady | .handle | .onDone | .onError _ => true
  | _ => false

/-- The requests whose answer says nothing. -/
def isSilent : Await → Bool
  | .sendWaitCopy _ | .sendSlotCopy _ | .settleClaim _ _ | .ackMessage | .keepUnknown _ => true
  | .releaseThenConsume _ | .releaseThenRetry _ | .consumeRecord | .retryMessage => true
  | .releaseSlot _ _ => true
  | _ => false

/-- The record has what the message will have once it took its key. -/
def SameClaimed (x : Execution) (message : Message) (a : RecordState) (l : LocalState) : Prop :=
  match x.options.idempotency with
  | none => Same a l
  | some options => ∃ owner : Uuid,
      let held : HeldClaim := ⟨getIdempotencyKey options.handlerName message options.key, owner⟩
      Same a { l.log (.claimTaken held) with heldClaim := some held }

inductive Matches (x : Execution) : RecordState → LocalState → Prop
  | visible {a : RecordState} {l : LocalState} (await : visibleAwait a.awaiting = some l.awaiting)
      (same : Same a l) : Matches x a l
  /-- The answer to the record's request leads to the state of the message. -/
  | silent {a t : RecordState} {l : LocalState} (await : isSilent a.awaiting = true)
      (calls : a.pendingCalls = []) (next : ∀ tick, a.answer x .fulfilled tick = some t)
      (rest : Matches x t l) : Matches x a l
  | calling {a t : RecordState} {l : LocalState} {call : PendingCall}
      (hears : listens a.awaiting = true) (await : visibleAwait a.awaiting = some l.awaiting)
      (calls : a.pendingCalls = [call]) (next : a.callEnds 0 true = some t) (same : Same t l) :
      Matches x a l
  | claiming {a : RecordState} {l : LocalState} {message : Message}
      (await : a.awaiting = .takeClaim message) (waits : l.awaiting = .validate)
      (options : x.options.idempotency.isSome = true) (same : Same a l) : Matches x a l
  | takingSlot {a : RecordState} {l : LocalState} {message : Message} {firstSlot offset : Nat}
      {slots : SlotsOptions} (await : a.awaiting = .takeSlot message firstSlot offset)
      (waits : l.awaiting = .validate) (options : x.options.keyConcurrency = some slots)
      (offset_lt : offset < slots.max) (same : SameClaimed x message a l) : Matches x a l

/-! ## Data that stays the same -/

variable {x : Execution} {y : LocalExecution} {a : RecordState} {l : LocalState}

theorem Same.log (h : Same a l) {effect : Effect} {done : LocalEffect}
    (he : observeRecord effect = some (observeMessage done)) :
    Same (a.log effect) (l.log done) := by
  refine ⟨h.1, h.2, h.3, h.4, h.5, h.6, h.7, h.8, ?_⟩
  simp [RecordState.log, LocalState.log, h.effects, he]

theorem Same.skip (h : Same a l) {effect : Effect} (he : observeRecord effect = none) :
    Same (a.log effect) l := by
  refine ⟨h.1, h.2, h.3, h.4, h.5, h.6, h.7, h.8, ?_⟩
  simp [RecordState.log, h.effects, he]

/-- The data without what's awaited. -/
theorem Same.await (h : Same a l) (awaiting : Await) (waits : LocalAwait) :
    Same { a with awaiting } { l with awaiting := waits } :=
  ⟨h.1, h.2, h.3, h.4, h.5, h.6, h.7, h.8, h.9⟩

theorem Same.awaitRecord (h : Same a l) (awaiting : Await) : Same { a with awaiting } l :=
  ⟨h.1, h.2, h.3, h.4, h.5, h.6, h.7, h.8, h.9⟩

theorem Same.handBack (h : Same a l) :
    Same { a with handedBack := true } { l with handedBack := true } :=
  ⟨h.1, rfl, h.3, h.4, h.5, h.6, h.7, h.8, h.9⟩

theorem Same.holdGroup (h : Same a l) :
    Same { a with holdsGroup := true } { l with holdsGroup := true } :=
  ⟨h.1, h.2, rfl, h.4, h.5, h.6, h.7, h.8, h.9⟩

theorem Same.withoutCalls (h : Same a l) : Same { a with pendingCalls := [] } l :=
  ⟨rfl, h.2, h.3, h.4, h.5, h.6, h.7, h.8, h.9⟩

theorem Same.putOff (h : Same a l) :
    Same { a with deferred := true } { l with deferred := true } :=
  ⟨h.1, h.2, h.3, h.4, h.5, h.6, rfl, h.8, h.9⟩

theorem Same.takeClaim (h : Same a l) (claim : HeldClaim) :
    Same { a.log (.claimTaken claim) with heldClaim := some claim }
      { l.log (.claimTaken claim) with heldClaim := some claim } := by
  have hlogged : Same (a.log (.claimTaken claim)) (l.log (.claimTaken claim)) := h.log rfl
  exact ⟨hlogged.1, hlogged.2, hlogged.3, hlogged.4, rfl, hlogged.6, hlogged.7, hlogged.8,
    hlogged.9⟩

theorem Same.takeSlot (h : Same a l) (slot : HeldClaim) :
    Same { a.log (.claimTaken slot) with heldSlot := some slot }
      { l.log (.claimTaken slot) with heldSlot := some slot } := by
  have hlogged : Same (a.log (.claimTaken slot)) (l.log (.claimTaken slot)) := h.log rfl
  exact ⟨hlogged.1, hlogged.2, hlogged.3, hlogged.4, hlogged.5, rfl, hlogged.7, hlogged.8,
    hlogged.9⟩

theorem Same.answered (h : Same a l) (answer : CallAnswer) :
    Same (a.log (.callAnswered answer)) (l.log (.callAnswered answer)) := h.log rfl

/-! ## The functions of the record -/

theorem matches_caught (h : Same a l) (unknownOutcome : Bool) :
    Matches x (a.caught unknownOutcome) (l.caught unknownOutcome) :=
  .visible rfl (h.await _ _)

theorem matches_finish (h : Same a l) (threw : Bool) :
    Matches x (a.finish threw) (l.finish threw) := by
  cases hslot : a.heldSlot with
  | none =>
    have hlocal : l.heldSlot = none := h.heldSlot.trans hslot
    have ha : a.finish threw = { a with awaiting := .ended threw } := by
      unfold RecordState.finish; rw [hslot]
    have hl : l.finish threw = { l with awaiting := .ended threw } := by
      unfold LocalState.finish; rw [hlocal]
    rw [ha, hl]
    exact .visible rfl (h.await _ _)
  | some slot =>
    have hlocal : l.heldSlot = some slot := h.heldSlot.trans hslot
    have ha : a.finish threw = { a with awaiting := .releaseSlot slot threw } := by
      unfold RecordState.finish; rw [hslot]
    have hl : l.finish threw = { l.release slot with awaiting := .ended threw } := by
      unfold LocalState.finish; rw [hlocal]
    have hreleased : Same ({ a with awaiting := .releaseSlot slot threw }.log (.claimReleased slot))
        (l.release slot) := (h.awaitRecord _).log rfl
    rw [ha, hl]
    exact .silent rfl h.calls (fun _ => rfl) (.visible rfl (hreleased.await _ _))

theorem matches_consume (hx : SameExecution x y) (h : Same a l) :
    Matches x (a.consumeRecord x) (l.consumeMessage y) := by
  unfold RecordState.consumeRecord LocalState.consumeMessage
  rw [hx.deleteEachRecord]
  split
  · refine .silent rfl h.calls (fun _ => rfl) (matches_finish ?_ false)
    exact (h.awaitRecord .consumeRecord).log rfl
  · exact matches_finish h false

theorem matches_retryMessage (h : Same a l) : Matches x a.retryMessage l.retryMessage := by
  refine .silent rfl h.calls (fun _ => rfl) (matches_finish ?_ false)
  have hasked : Same (a.log (.visibilityAsked none)) (l.log (.visibilityAsked none)) := h.log rfl
  exact hasked.awaitRecord .retryMessage

theorem matches_releaseThenConsume (hx : SameExecution x y) (h : Same a l) (claim : HeldClaim) :
    Matches x { a with awaiting := .releaseThenConsume claim }
      ((l.release claim).consumeMessage y) := by
  refine .silent rfl h.calls (fun _ => rfl) (matches_consume hx ?_)
  exact (h.awaitRecord _).log rfl

theorem matches_startHandler (hx : SameExecution x y) (h : Same a l) (message : Message) :
    Matches x (a.startHandler x message) (l.startHandler y message) := by
  refine .visible rfl ⟨h.1, h.2, h.3, ?_, h.5, h.6, h.7, h.8, h.9⟩
  rw [LocalState.startHandler, RecordState.startHandler, hx.message.receiveCount]

theorem matches_waitForSlot (hx : SameExecution x y) (h : Same a l) (tick : Tick) :
    Matches x (a.waitForSlot x tick) (l.waitForSlot y tick) := by
  unfold RecordState.waitForSlot LocalState.waitForSlot
  have hcopy := sameCopy hx.message (rfl : (getSlotWaitDelay tick.slotWait).ceil = _) false tick.now
    tick.now
  generalize Ez4.Queue.Messages.deferredCopy x.record (getSlotWaitDelay tick.slotWait) false
    tick.now = made at hcopy ⊢
  generalize deferredCopy y.message (getSlotWaitDelay tick.slotWait) false tick.now = copied
    at hcopy ⊢
  cases hcopy with
  | error answer => exact matches_caught h false
  | @ok copy sent hsent =>
    have hlogged : Same ({ a with awaiting := .sendSlotCopy copy }.log (.copySent copy))
        (l.log (.copySent sent)) := (h.awaitRecord _).log hsent
    have hclaim : (l.log (.copySent sent)).heldClaim = a.heldClaim := hlogged.heldClaim
    dsimp only
    cases hheld : a.heldClaim with
    | none =>
      rw [hclaim, hheld]
      refine .silent rfl h.calls (fun _ => ?_) (matches_consume hx hlogged)
      simp only [RecordState.answer, RecordState.log, hheld]
    | some claim =>
      rw [hclaim, hheld]
      refine .silent rfl h.calls (fun _ => ?_) (matches_releaseThenConsume hx hlogged claim)
      simp only [RecordState.answer, RecordState.log, hheld]

theorem matches_acknowledge (hx : SameExecution x y) (h : Same a l) :
    Matches x (a.acknowledge x) (l.acknowledge y) := by
  unfold RecordState.acknowledge LocalState.acknowledge
  have hcond : (y.deleteEachRecord && !l.handedBack) = (x.deleteEachRecord && !a.handedBack) := by
    rw [hx.deleteEachRecord, h.handedBack]
  by_cases hacks : (x.deleteEachRecord && !a.handedBack) = true
  · rw [if_pos hacks, if_pos (hcond.trans hacks)]
    have hdeleted : Same ({ a with awaiting := .ackMessage }.log .deleted) (l.log .deleted) :=
      (h.awaitRecord _).log rfl
    exact .silent rfl h.calls (fun _ => rfl) (.visible rfl (hdeleted.await .onDone .onDone))
  · rw [if_neg hacks, if_neg (hcond.trans_ne hacks)]
    exact .visible rfl (h.await _ _)

theorem matches_handlerReturned (hx : SameExecution x y) (h : Same a l) :
    Matches x (a.handlerReturned x) (l.handlerReturned y) := by
  have hlogged : Same (a.log .handlerFinished) (l.log .handlerFinished) := h.log rfl
  have hdone : Same { a.log .handlerFinished with handled := true }
      { l.log .handlerFinished with handled := true } :=
    ⟨hlogged.1, hlogged.2, hlogged.3, hlogged.4, hlogged.5, hlogged.6, hlogged.7, rfl, hlogged.9⟩
  unfold RecordState.handlerReturned LocalState.handlerReturned
  generalize { a.log .handlerFinished with handled := true } = b at hdone ⊢
  generalize { l.log .handlerFinished with handled := true } = m at hdone ⊢
  dsimp only
  have hcond : (m.handedBack || m.deferred) = (b.handedBack || b.deferred) := by
    rw [hdone.handedBack, hdone.deferred]
  split
  next claim hheld =>
    rw [hdone.heldClaim.trans hheld]
    by_cases hback : (b.handedBack || b.deferred) = true
    · simp only [if_pos hback, if_pos (hcond.trans hback)]
      have hreleased : Same ({ b with awaiting := .settleClaim claim false }.log
          (.claimReleased claim)) (m.release claim) := (hdone.awaitRecord _).log rfl
      exact .silent rfl hdone.calls (fun _ => rfl) (matches_acknowledge hx hreleased)
    · simp only [if_neg hback, if_neg (hcond.trans_ne hback)]
      have hasked : Same (b.log (.keepAsked claim .done)) m := hdone.skip rfl
      have hkept : Same ({ b.log (.keepAsked claim .done) with
          awaiting := .settleClaim claim true }.log (.claimKept claim .done))
          (m.log (.claimKept claim .done)) := (hasked.awaitRecord _).log rfl
      exact .silent rfl hdone.calls (fun _ => rfl) (matches_acknowledge hx hkept)
  next hheld =>
    rw [hdone.heldClaim.trans hheld]
    exact matches_acknowledge hx hdone

theorem matches_failRecord (hx : SameExecution x y) (h : Same a l) (unknownOutcome : Bool) :
    Matches x (a.failRecord unknownOutcome) (l.failRecord y unknownOutcome) := by
  unfold RecordState.failRecord
  split
  next hheld =>
    have hl : l.failRecord y unknownOutcome = { l with handedBack := true }.retryMessage := by
      unfold LocalState.failRecord
      rw [h.heldClaim.trans hheld]
    rw [hl]
    exact matches_retryMessage h.handBack
  next claim hheld =>
    unfold LocalState.failRecord
    rw [h.heldClaim.trans hheld]
    cases unknownOutcome with
    | true =>
      have hasked : Same (a.log (.keepAsked claim .unknown)) l := h.skip rfl
      have hkept : Same ({ a.log (.keepAsked claim .unknown) with
          awaiting := .keepUnknown claim }.log (.claimKept claim .unknown))
          (l.log (.claimKept claim .unknown)) := (hasked.awaitRecord _).log rfl
      exact .silent rfl h.calls (fun _ => rfl) (matches_consume hx hkept)
    | false =>
      have hreleased : Same ({ a with awaiting := .releaseThenRetry claim }.log
          (.claimReleased claim)) (l.release claim) := (h.awaitRecord _).log rfl
      exact .silent rfl h.calls (fun _ => rfl) (matches_retryMessage hreleased.handBack)

theorem matches_errorReported (hx : SameExecution x y) (h : Same a l) (unknownOutcome : Bool) :
    Matches x (a.errorReported x unknownOutcome) (l.errorReported y unknownOutcome) := by
  have hheld := h.holdGroup
  unfold RecordState.errorReported LocalState.errorReported
  generalize { a with holdsGroup := true } = b at hheld ⊢
  generalize { l with holdsGroup := true } = m at hheld ⊢
  dsimp only
  rw [hheld.deferred, hheld.handled]
  split
  · split
    next claim hclaim =>
      rw [hheld.heldClaim.trans hclaim]
      exact matches_releaseThenConsume hx hheld claim
    next hclaim =>
      rw [hheld.heldClaim.trans hclaim]
      exact matches_consume hx hheld
  · split
    · exact matches_failRecord hx hheld unknownOutcome
    · exact matches_finish hheld false

/-! ## The claims -/

theorem takeSlot_busy (slots : SlotsOptions) (message : Message) (n firstSlot : Nat) :
    LocalState.takeSlot slots message (List.replicate n .busy) firstSlot = none := by
  rw [LocalState.takeSlot, List.findSome?_eq_none_iff]
  intro i _
  by_cases hi : i < n <;> simp [hi]

/-- The slots before the one that's taken are busy. -/
theorem takeSlot_taken {slots : SlotsOptions} (message : Message) (firstSlot : Nat) {offset : Nat}
    (h : offset < slots.max) (owner : Uuid) :
    LocalState.takeSlot slots message (List.replicate offset .busy ++ [.taken owner]) firstSlot =
      some ⟨getConcurrencySlotKey slots.handlerName message slots.key
        ((firstSlot + offset) % slots.max), owner⟩ := by
  rw [LocalState.takeSlot, List.findSome?_eq_some_iff]
  refine ⟨List.range offset, offset, (List.range' (offset + 1) (slots.max - offset - 1)), ?_, ?_, ?_⟩
  · have happend : List.range' 0 offset ++ List.range' (0 + offset) (slots.max - offset - 1 + 1) =
        List.range' 0 (offset + (slots.max - offset - 1 + 1)) := List.range'_append_1
    have hmax : offset + (slots.max - offset - 1 + 1) = slots.max := by omega
    rw [Nat.zero_add, hmax] at happend
    rw [List.range_eq_range', List.range_eq_range', ← List.range'_succ, happend]
  · simp
  · intro i hi
    have hlt := List.mem_range.mp hi
    simp [List.getElem?_append, hlt]

/-- What `queue.claims.take` returned for the key the record took. -/
def claimOf (a : RecordState) : ClaimResult :=
  match a.heldClaim with
  | some claim => .taken claim.owner
  | none => .busy

/-- With its key's claim, the message has the record's data. -/
theorem enterClaim_of_claimed (hx : SameExecution x y) {message : Message}
    (h : SameClaimed x message a l) : ∃ m : LocalState, Same a m ∧ ∀ results tick,
      l.enterClaim y message (claimOf a) results tick = m.enterSlots y message results tick := by
  unfold SameClaimed at h
  cases hoptions : x.options.idempotency with
  | none =>
    rw [hoptions] at h
    refine ⟨l, h, fun _ _ => ?_⟩
    simp only [LocalState.enterClaim, hx.options, hoptions]
  | some options =>
    rw [hoptions] at h
    obtain ⟨owner, h⟩ := h
    have hclaim : claimOf a = .taken owner := by
      unfold claimOf
      rw [← h.heldClaim]
    refine ⟨_, h, fun _ _ => ?_⟩
    simp only [LocalState.enterClaim, hx.options, hoptions, hclaim]

/-- The slots that can be tried. -/
def slotCount (options : Options) : Nat := (options.keyConcurrency.map SlotsOptions.max).getD 0

/-- Without a slot to try, the slots are passed at once. -/
theorem matches_enterSlots (hx : SameExecution x y) (h : Same a l) (message : Message)
    (tick : Tick) (hslots : slotCount x.options = 0) :
    Matches x (a.enterSlots x message tick) (l.enterSlots y message [] tick) := by
  unfold RecordState.enterSlots LocalState.enterSlots
  rw [hx.options]
  unfold slotCount at hslots
  split
  next slots hsome =>
    rw [hsome] at hslots ⊢
    have hzero : ¬ 0 < slots.max := Nat.not_lt.mpr hslots.le
    have hbusy := takeSlot_busy slots message 0 tick.firstSlot
    rw [List.replicate_zero] at hbusy
    rw [RecordState.takeSlot, if_neg hzero]
    dsimp only
    rw [hbusy]
    exact matches_waitForSlot hx h tick
  next hnone =>
    rw [hnone]
    exact matches_startHandler hx h message

/-- With a slot to try, the record asks for the first one. -/
theorem enterSlots_asks (message : Message) (tick : Tick) (hslots : slotCount x.options ≠ 0) :
    ∃ slots, x.options.keyConcurrency = some slots ∧ 0 < slots.max ∧
      a.enterSlots x message tick = { a with awaiting := .takeSlot message tick.firstSlot 0 } := by
  unfold slotCount at hslots
  cases hsome : x.options.keyConcurrency with
  | none => rw [hsome] at hslots; exact absurd rfl hslots
  | some slots =>
    rw [hsome] at hslots
    have hpos : 0 < slots.max := Nat.pos_of_ne_zero hslots
    refine ⟨slots, rfl, hpos, ?_⟩
    rw [RecordState.enterSlots, hsome]
    exact if_pos hpos

/-! ## Calls and the start -/

theorem callEnds_retry (h : a.pendingCalls = [.retry]) : a.callEnds 0 true =
    some { a.log (.callAnswered .fulfilled) with pendingCalls := [] } := by
  simp [RecordState.callEnds, h]

theorem callEnds_defer {copy : Copy} (h : a.pendingCalls = [.defer copy]) : a.callEnds 0 true =
    some { ({ a with pendingCalls := [] }.log (.copySent copy)).log (.callAnswered .fulfilled) with
      deferred := true } := by
  simp [RecordState.callEnds, h]

theorem matches_retry (h : Same a l) (hears : listens a.awaiting = true)
    (await : visibleAwait a.awaiting = some l.awaiting) (delay : Option Rat) (now : Int) :
    Matches x (a.makeCall x (.retry delay) now) (l.makeCall y (.retry delay) now) := by
  unfold RecordState.makeCall LocalState.makeCall
  dsimp only
  by_cases hdeferred : a.deferred = true
  · rw [if_pos hdeferred, if_pos (h.deferred.trans hdeferred)]
    exact .visible await (h.answered _)
  · rw [if_neg hdeferred, if_neg (h.deferred.trans_ne hdeferred), h.calls]
    have hasked : Same ({ a with
        pendingCalls := [], handedBack := true, holdsGroup := true }.log (.visibilityAsked delay))
        ({ l with handedBack := true, holdsGroup := true }.log (.visibilityAsked delay)) :=
      h.withoutCalls.handBack.holdGroup.log rfl
    exact .calling hears await rfl (callEnds_retry rfl) (hasked.answered .fulfilled)

theorem matches_defer (hx : SameExecution x y) (h : Same a l) (hears : listens a.awaiting = true)
    (await : visibleAwait a.awaiting = some l.awaiting) (delay : Rat) (now : Int) :
    Matches x (a.makeCall x (.defer delay) now) (l.makeCall y (.defer delay) now) := by
  unfold RecordState.makeCall LocalState.makeCall
  dsimp only
  have hback : (l.handedBack || l.deferred) = (a.handedBack || a.deferred) := by
    rw [h.handedBack, h.deferred]
  rw [hx.message.group_eq]
  by_cases hgroup : y.message.groupId.isSome = true
  · rw [if_pos hgroup, if_pos hgroup]
    exact .visible await (h.answered _)
  rw [if_neg hgroup, if_neg hgroup]
  by_cases hhanded : (a.handedBack || a.deferred) = true
  · rw [if_pos hhanded, if_pos (hback.trans hhanded)]
    exact .visible await (h.answered _)
  rw [if_neg hhanded, if_neg (hback.trans_ne hhanded)]
  have hcopy := sameCopy hx.message (rfl : delay.ceil = delay.ceil) true now now
  generalize Ez4.Queue.Messages.deferredCopy x.record delay true now = made at hcopy ⊢
  generalize deferredCopy y.message delay true now = copied at hcopy ⊢
  cases hcopy with
  | error answer => exact .visible await (h.answered _)
  | @ok copy sent hsent =>
    dsimp only
    rw [h.calls]
    have hput : Same ({ a with pendingCalls := [], deferred := true }.log (.copySent copy))
        ({ l with deferred := true }.log (.copySent sent)) := h.withoutCalls.putOff.log hsent
    exact .calling hears await rfl (callEnds_defer rfl) (hput.answered .fulfilled)

theorem matches_makeCall (hx : SameExecution x y) (h : Same a l)
    (hears : listens a.awaiting = true) (await : visibleAwait a.awaiting = some l.awaiting)
    (call : Call) (now : Int) : Matches x (a.makeCall x call now) (l.makeCall y call now) := by
  cases call with
  | retry delay => exact matches_retry h hears await delay now
  | «defer» delay => exact matches_defer hx h hears await delay now

/-- The milliseconds up to a time in seconds, as whole seconds. -/
theorem ceil_waitLeft (deferUntil now : Int) :
    ((((deferUntil * 1000 : Int) : Rat) - now) / 1000).ceil = deferUntil - now / 1000 := by
  have hquotient : -((((deferUntil * 1000 : Int) : Rat) - now) / 1000) =
      ((now - deferUntil * 1000 : Int) : Rat) / (1000 : Nat) := by
    push_cast
    ring
  have hfloor : (((now - deferUntil * 1000 : Int) : Rat) / (1000 : Nat)).floor =
      (now - deferUntil * 1000) / (1000 : Nat) := Rat.floor_intCast_div_natCast _ _
  rw [Rat.ceil_eq_neg_floor_neg, hquotient, hfloor]
  omega

/-- How long a copy waits still is the same for both, by the same clock. -/
theorem waitLeft_cases (h : SameMessage x.record y.message) {now : Int} (hnow : 0 ≤ now) :
    (getDeferWaitLeft x.record now > 0 ↔ y.message.attributes.deferUntil.getD 0 - now > 0) ∧
      (getDeferWaitLeft x.record now > 0 → ((getDeferWaitLeft x.record now : Int) : Rat).ceil =
        ((y.message.attributes.deferUntil.getD 0 - now) / 1000).ceil) := by
  rw [h.deferUntil, getDeferWaitLeft]
  cases x.record.deferUntil with
  | none =>
    simp [hnow]
  | some deferUntil =>
    simp only [Option.map_some, Option.getD_some, getEpochSeconds]
    refine ⟨?_, fun _ => ?_⟩
    · have hcast : ((deferUntil * 1000 : Int) : Rat) - now > 0 ↔ deferUntil * 1000 - now > 0 := by
        exact_mod_cast Iff.rfl
      rw [hcast]
      omega
    · rw [ceil_waitLeft, Rat.ceil_intCast]

theorem matches_start (hx : SameExecution x y) {now : Int} (hnow : 0 ≤ now) :
    Matches x (RecordState.start x now) (LocalState.start y now) := by
  obtain ⟨hwaits, hceil⟩ := waitLeft_cases hx.message hnow
  have hnew : ∀ awaiting waits, Same { awaiting } { awaiting := waits } := fun _ _ =>
    ⟨rfl, rfl, rfl, rfl, rfl, rfl, rfl, rfl, rfl⟩
  unfold RecordState.start LocalState.start
  dsimp only
  by_cases hwait : getDeferWaitLeft x.record now > 0
  · rw [if_pos hwait, if_pos (hwaits.mp hwait)]
    have hcopy := sameCopy hx.message (hceil hwait) true now now
    generalize Ez4.Queue.Messages.deferredCopy x.record _ true now = made at hcopy ⊢
    generalize deferredCopy y.message _ true now = copied at hcopy ⊢
    cases hcopy with
    | error answer => exact .visible rfl (hnew _ _)
    | @ok copy sent hsent =>
      have hsame : Same ({ awaiting := .sendWaitCopy copy : RecordState }.log (.copySent copy))
          ({ awaiting := .validate : LocalState }.log (.copySent sent)) := (hnew _ _).log hsent
      exact .silent rfl rfl (fun _ => rfl) (matches_consume hx hsame)
  · rw [if_neg hwait, if_neg (mt hwaits.mpr hwait)]
    exact .visible rfl (hnew _ _)

end Ez4.Local.Agreement

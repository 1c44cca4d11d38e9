import Ez4.Queue.ProcessRecord

/-! # What holds while a record is processed

Each function of `processRecord` has one lemma that says when it leads to a
coherent state, and a step leads from coherent states to coherent ones. A
record that is consumed has a reason to be: its handler finished, a copy took
its place, its key was found done, or it was asked to be kept as unknown. -/
namespace Ez4.Queue.ProcessRecord
open Ez4.Library Ez4.Queue.Messages

/-- After these awaits the record is not handed back any more. -/
def Await.leaves : Await → Bool
  | .releaseThenConsume _ | .consumeRecord | .retryMessage | .releaseSlot _ _ | .ended _ => true
  | _ => false

namespace RecordState

variable {x : Execution} {s t : RecordState}

/-! ## The invariant -/

/-- A deferred copy of the record was sent. -/
def Copied (s : RecordState) : Prop := ∃ copy, .copySent copy ∈ s.effects

/-- The record may leave the queue. -/
def Justified (s : RecordState) : Prop :=
  .handlerFinished ∈ s.effects ∨ s.Copied ∨
    (∃ key state, state ≠ .running ∧ .keyFound key state ∈ s.effects) ∨
    ∃ claim, .keepAsked claim .unknown ∈ s.effects

/-- The handler has no request yet. -/
structure Fresh (s : RecordState) : Prop where
  currentRequest : s.currentRequest = none
  handedBack : s.handedBack = false
  copied : ¬ s.Copied

/-- What does not depend on what is awaited. -/
structure Sound (s : RecordState) : Prop where
  finished : s.handled = true → .handlerFinished ∈ s.effects
  deleted : .deleted ∈ s.effects → s.Justified
  deferred : s.deferred = true → s.Copied
  pendingCalls : s.currentRequest = none → s.pendingCalls = []
  calls : s.currentRequest = none → s.deferred = false ∧ s.handled = false
  requested : s.currentRequest.isSome = true → s.Copied → s.deferred = true

/-- The record ends handed back or for a reason to be consumed. -/
def Settled (s : RecordState) (threw : Bool) : Prop :=
  threw = false → s.handedBack = true ∨ s.Justified

/-- What holds at each await. -/
def AwaitOk (s : RecordState) : Await → Prop
  | .sendWaitCopy _ | .validate | .takeClaim _ =>
    s.Fresh ∧ s.heldClaim = none ∧ s.heldSlot = none
  | .takeSlot _ _ _ | .sendSlotCopy _ => s.Fresh ∧ s.heldSlot = none
  | .onReady | .handle => s.currentRequest.isSome = true ∧ s.handled = false
  | .settleClaim claim _ =>
    s.currentRequest.isSome = true ∧ s.handled = true ∧ s.heldClaim = some claim
  | .ackMessage | .onDone => s.currentRequest.isSome = true ∧ s.handled = true
  | .onError _ => True
  | .keepUnknown claim => s.handled = false ∧ s.heldClaim = some claim ∧ s.Justified
  | .releaseThenConsume claim => s.handled = false ∧ s.heldClaim = some claim ∧ s.Justified
  | .releaseThenRetry claim => s.handled = false ∧ s.heldClaim = some claim
  | .consumeRecord => s.Justified
  | .retryMessage => s.handedBack = true
  | .releaseSlot claim threw => s.heldSlot = some claim ∧ s.Settled threw
  | .ended threw => s.Settled threw

structure Coherent (s : RecordState) : Prop where
  sound : s.Sound
  awaitOk : s.AwaitOk s.awaiting
  copied : s.awaiting.leaves = false → s.Copied → s.deferred = true

theorem Coherent.at (hc : s.Coherent) {awaiting : Await} (h : s.awaiting = awaiting) :
    s.AwaitOk awaiting := h ▸ hc.awaitOk

theorem Coherent.copied_at (hc : s.Coherent) {awaiting : Await} (h : s.awaiting = awaiting)
    (hl : awaiting.leaves = false) : s.Copied → s.deferred = true :=
  hc.copied (h ▸ hl)

/-! ## Effects -/

theorem Copied.mono (h : s.Copied) (hsub : s.effects ⊆ t.effects) : t.Copied :=
  h.imp fun _ hm => hsub hm

theorem Justified.mono (h : s.Justified) (hsub : s.effects ⊆ t.effects) : t.Justified := by
  rcases h with h | h | ⟨key, state, hne, h⟩ | ⟨claim, h⟩
  · exact .inl (hsub h)
  · exact .inr (.inl (h.mono hsub))
  · exact .inr (.inr (.inl ⟨key, state, hne, hsub h⟩))
  · exact .inr (.inr (.inr ⟨claim, hsub h⟩))

theorem subset_log (effect : Effect) : s.effects ⊆ (s.log effect).effects :=
  List.subset_append_left _ _

theorem mem_log (effect : Effect) : effect ∈ (s.log effect).effects :=
  List.mem_append_right _ (List.mem_singleton_self _)

theorem mem_effects_log {e effect : Effect} :
    e ∈ (s.log effect).effects ↔ e ∈ s.effects ∨ e = effect := by
  simp [log]

theorem copied_log {effect : Effect} :
    (s.log effect).Copied ↔ s.Copied ∨ ∃ copy, effect = .copySent copy := by
  simp only [Copied, mem_effects_log, exists_or]
  exact or_congr_right (exists_congr fun _ => eq_comm)

theorem not_copied_log {effect : Effect} (h : ¬ s.Copied) (he : ∀ copy, effect ≠ .copySent copy) :
    ¬ (s.log effect).Copied := by
  rw [copied_log]
  rintro (h' | ⟨copy, h'⟩)
  · exact h h'
  · exact he copy h'

/-- Any effect but a deletion without a reason leaves a sound state sound. -/
theorem Sound.log (hs : s.Sound) (effect : Effect) (h : effect = .deleted → s.Justified)
    (hcopy : ∀ copy, effect = .copySent copy → s.currentRequest = none) : (s.log effect).Sound where
  finished hh := subset_log _ (hs.finished hh)
  deleted hd := by
    rcases mem_effects_log.mp hd with hd | hd
    · exact (hs.deleted hd).mono (subset_log _)
    · exact (h hd.symm).mono (subset_log _)
  deferred hd := (hs.deferred hd).mono (subset_log _)
  pendingCalls := hs.pendingCalls
  calls := hs.calls
  requested hr hc := by
    rcases copied_log.mp hc with hc | ⟨copy, hc⟩
    · exact hs.requested hr hc
    · rw [show (s.log effect).currentRequest = none from hcopy copy hc] at hr
      cases hr

theorem Sound.goTo (hs : s.Sound) (awaiting : Await) : Sound { s with awaiting } :=
  ⟨hs.finished, hs.deleted, hs.deferred, hs.pendingCalls, hs.calls, hs.requested⟩

theorem Sound.hold (hs : s.Sound) (handedBack holdsGroup : Bool) :
    Sound { s with handedBack, holdsGroup } :=
  ⟨hs.finished, hs.deleted, hs.deferred, hs.pendingCalls, hs.calls, hs.requested⟩

/-! ## The functions -/

theorem finish_coherent (hs : s.Sound) {threw : Bool} (h : s.Settled threw) :
    (s.finish threw).Coherent := by
  unfold finish
  split
  · rename_i slot hslot
    exact ⟨hs.goTo _, ⟨hslot, h⟩, nofun⟩
  · exact ⟨hs.goTo _, h, nofun⟩

theorem consumeRecord_coherent (hs : s.Sound) (h : s.Justified) :
    (s.consumeRecord x).Coherent := by
  unfold consumeRecord
  split
  · exact ⟨hs.goTo _, h, nofun⟩
  · exact finish_coherent hs fun _ => .inr h

theorem retryMessage_coherent (hs : s.Sound) (h : s.handedBack = true) :
    s.retryMessage.Coherent :=
  ⟨(hs.log (.visibilityAsked none) nofun nofun).goTo _, h, nofun⟩

theorem caught_coherent (hs : s.Sound) (h : s.Copied → s.deferred = true)
    (unknownOutcome : Bool) : (s.caught unknownOutcome).Coherent :=
  ⟨hs.goTo _, trivial, fun _ => h⟩

theorem Fresh.caught (hs : s.Sound) (h : s.Fresh) (unknownOutcome : Bool) :
    (s.caught unknownOutcome).Coherent :=
  caught_coherent hs (fun hc => absurd hc h.copied) unknownOutcome

theorem startHandler_coherent (hs : s.Sound) (h : s.Fresh) (message : Message) :
    (s.startHandler x message).Coherent where
  sound := ⟨hs.finished, hs.deleted, hs.deferred, nofun, nofun, fun _ hc => absurd hc h.copied⟩
  awaitOk := ⟨rfl, (hs.calls h.currentRequest).2⟩
  copied _ hc := absurd hc h.copied

theorem waitForSlot_coherent (hs : s.Sound) (h : s.Fresh) (hslot : s.heldSlot = none)
    (tick : Tick) : (s.waitForSlot x tick).Coherent := by
  unfold waitForSlot
  split
  · exact ⟨hs.goTo _, ⟨⟨h.currentRequest, h.handedBack, h.copied⟩, hslot⟩,
      fun _ hc => absurd hc h.copied⟩
  · exact h.caught hs false

theorem takeSlot_coherent (hs : s.Sound) (h : s.Fresh) (hslot : s.heldSlot = none)
    (slots : SlotsOptions) (message : Message) (firstSlot offset : Nat) (tick : Tick) :
    (s.takeSlot x slots message firstSlot offset tick).Coherent := by
  unfold takeSlot
  split
  · exact ⟨hs.goTo _, ⟨⟨h.currentRequest, h.handedBack, h.copied⟩, hslot⟩,
      fun _ hc => absurd hc h.copied⟩
  · exact waitForSlot_coherent hs h hslot tick

theorem enterSlots_coherent (hs : s.Sound) (h : s.Fresh) (hslot : s.heldSlot = none)
    (message : Message) (tick : Tick) : (s.enterSlots x message tick).Coherent := by
  unfold enterSlots
  split
  · exact takeSlot_coherent hs h hslot _ message tick.firstSlot 0 tick
  · exact startHandler_coherent hs h message

theorem enterClaim_coherent (hs : s.Sound) (h : s.Fresh) (hclaim : s.heldClaim = none)
    (hslot : s.heldSlot = none) (message : Message) (tick : Tick) :
    (s.enterClaim x message tick).Coherent := by
  unfold enterClaim
  split
  · exact ⟨hs.goTo _, ⟨⟨h.currentRequest, h.handedBack, h.copied⟩, hclaim, hslot⟩,
      fun _ hc => absurd hc h.copied⟩
  · exact enterSlots_coherent hs h hslot message tick

theorem claimRefused_coherent (hs : s.Sound) (key : ClaimKey) (state : ClaimState) :
    (s.claimRefused x key state).Coherent := by
  unfold claimRefused
  split
  · exact retryMessage_coherent (hs.hold true true) rfl
  · rename_i hne
    refine consumeRecord_coherent (hs.log _ nofun nofun) (.inr (.inr (.inl ⟨key, state, ?_, mem_log _⟩)))
    rintro rfl
    exact hne rfl

theorem acknowledge_coherent (hs : s.Sound) (hrequest : s.currentRequest.isSome = true)
    (hh : s.handled = true) (h : s.Copied → s.deferred = true) :
    (s.acknowledge x).Coherent := by
  unfold acknowledge
  split
  · exact ⟨hs.goTo _, ⟨hrequest, hh⟩, fun _ => h⟩
  · exact ⟨hs.goTo _, ⟨hrequest, hh⟩, fun _ => h⟩

theorem handlerReturned_coherent (hs : s.Sound) (hrequest : s.currentRequest.isSome = true)
    (h : s.Copied → s.deferred = true) : (s.handlerReturned x).Coherent := by
  have hl := hs.log .handlerFinished nofun nofun
  have hnone : s.currentRequest ≠ none := fun hnone => by
    rw [hnone] at hrequest
    cases hrequest
  have hs' : Sound { s.log .handlerFinished with handled := true } :=
    ⟨fun _ => mem_log _, hl.deleted, hl.deferred, hs.pendingCalls,
      fun hr => absurd hr hnone, hl.requested⟩
  have h' : (s.log .handlerFinished).Copied → s.deferred = true := fun hc => by
    rcases copied_log.mp hc with hc | ⟨_, hc⟩
    · exact h hc
    · cases hc
  unfold handlerReturned
  dsimp only
  split
  · rename_i claim hclaim
    split
    · exact ⟨hs'.goTo _, ⟨hrequest, rfl, hclaim⟩, fun _ => h'⟩
    · refine ⟨(hs'.log (.keepAsked claim .done) nofun nofun).goTo _, ⟨hrequest, rfl, hclaim⟩, fun _ hc => ?_⟩
      rcases copied_log.mp hc with hc | ⟨_, hc⟩
      · exact h' hc
      · cases hc
  · exact acknowledge_coherent hs' hrequest rfl h'

theorem failRecord_coherent (hs : s.Sound) (hh : s.handled = false)
    (h : s.Copied → s.deferred = true) (unknownOutcome : Bool) :
    (s.failRecord unknownOutcome).Coherent := by
  unfold failRecord
  split
  · exact retryMessage_coherent (hs.hold true s.holdsGroup) rfl
  · rename_i claim hclaim
    split
    · refine ⟨(hs.log (.keepAsked claim .unknown) nofun nofun).goTo _,
        ⟨hh, hclaim, .inr (.inr (.inr ⟨claim, mem_log _⟩))⟩, fun _ hc => ?_⟩
      rcases copied_log.mp hc with hc | ⟨_, hc⟩
      · exact h hc
      · cases hc
    · exact ⟨hs.goTo _, ⟨hh, hclaim⟩, fun _ => h⟩

theorem errorReported_coherent (hs : s.Sound) (h : s.Copied → s.deferred = true)
    (unknownOutcome : Bool) : (s.errorReported x unknownOutcome).Coherent := by
  have hs' : Sound { s with holdsGroup := true } := hs.hold s.handedBack true
  unfold errorReported
  dsimp only
  split
  · rename_i hd
    simp only [Bool.and_eq_true, Bool.not_eq_true'] at hd
    have hj : s.Justified := .inr (.inl (hs.deferred hd.1))
    split
    · rename_i claim hclaim
      exact ⟨hs'.goTo _, ⟨hd.2, hclaim, hj⟩, nofun⟩
    · exact consumeRecord_coherent hs' hj
  · split
    · rename_i hh
      exact failRecord_coherent hs' (by simpa using hh) h unknownOutcome
    · rename_i hh
      exact finish_coherent hs' fun _ => .inr (.inl (hs.finished (by simpa using hh)))

/-! ## Steps -/

theorem Fresh.log (h : s.Fresh) (effect : Effect) (he : ∀ copy, effect ≠ .copySent copy) :
    (s.log effect).Fresh :=
  ⟨h.currentRequest, h.handedBack, not_copied_log h.copied he⟩

theorem Sound.hold_claims (hs : s.Sound) (heldClaim heldSlot : Option HeldClaim) :
    Sound { s with heldClaim, heldSlot } :=
  ⟨hs.finished, hs.deleted, hs.deferred, hs.pendingCalls, hs.calls, hs.requested⟩

theorem Fresh.hold_claims (h : s.Fresh) (heldClaim heldSlot : Option HeldClaim) :
    Fresh { s with heldClaim, heldSlot } :=
  ⟨h.currentRequest, h.handedBack, h.copied⟩

theorem claimAnswered_coherent (hs : s.Sound) (h : s.Fresh) (hslot : s.heldSlot = none)
    {options : ClaimsOptions} {message : Message} {answer : Answer} {tick : Tick}
    (ht : s.claimAnswered x options message answer tick = some t) : t.Coherent := by
  unfold claimAnswered at ht
  dsimp only at ht
  split at ht
  · rename_i owner
    cases ht
    let claim : HeldClaim := ⟨getIdempotencyKey options.handlerName message options.key, owner⟩
    exact enterSlots_coherent ((hs.log (.claimTaken claim) nofun nofun).hold_claims (some claim) s.heldSlot)
      ((h.log (.claimTaken claim) nofun).hold_claims (some claim) s.heldSlot) hslot message tick
  · cases ht
    exact claimRefused_coherent hs _ _
  · cases ht
    exact h.caught hs _
  · cases ht

theorem slotAnswered_coherent (hs : s.Sound) (h : s.Fresh) (hslot : s.heldSlot = none)
    {slots : SlotsOptions} {message : Message} {firstSlot offset : Nat} {answer : Answer}
    {tick : Tick}
    (ht : s.slotAnswered x slots message firstSlot offset answer tick = some t) : t.Coherent := by
  unfold slotAnswered at ht
  dsimp only at ht
  split at ht
  · rename_i owner
    cases ht
    let claim : HeldClaim := ⟨getConcurrencySlotKey slots.handlerName message slots.key
      ((firstSlot + offset) % slots.max), owner⟩
    exact startHandler_coherent
      ((hs.log (.claimTaken claim) nofun nofun).hold_claims s.heldClaim (some claim))
      ((h.log (.claimTaken claim) nofun).hold_claims s.heldClaim (some claim)) message
  · cases ht
    exact takeSlot_coherent hs h hslot slots message firstSlot (offset + 1) tick
  · cases ht
    exact h.caught hs _
  · cases ht

/-- A copy sent in the record's own code takes its place. -/
theorem copySent_justified (s : RecordState) (copy : Copy) : (s.log (.copySent copy)).Justified :=
  .inr (.inl ⟨copy, mem_log _⟩)

theorem copied_of_log {effect : Effect} (h : s.Copied → s.deferred = true)
    (he : ∀ copy, effect ≠ .copySent copy) : (s.log effect).Copied → s.deferred = true := by
  intro hc
  rcases copied_log.mp hc with hc | ⟨copy, hc⟩
  · exact h hc
  · exact absurd hc (he copy)

theorem answer_coherent (hc : s.Coherent) {answer : Answer} {tick : Tick}
    (h : s.answer x answer tick = some t) : t.Coherent := by
  have hs := hc.sound
  unfold RecordState.answer at h
  split at h
  -- a copy that came back early
  · rename_i copy hawait
    cases h
    exact consumeRecord_coherent (hs.log _ nofun fun _ _ => (hc.at hawait).1.currentRequest)
      (copySent_justified s copy)
  · rename_i unknownOutcome hawait
    cases h
    exact (hc.at hawait).1.caught hs unknownOutcome
  -- the validation
  · rename_i message hawait
    cases h
    obtain ⟨hf, hclaim, hslot⟩ := hc.at hawait
    exact enterClaim_coherent hs hf hclaim hslot message tick
  · rename_i unknownOutcome hawait
    cases h
    exact (hc.at hawait).1.caught hs unknownOutcome
  -- the claims
  · rename_i message hawait
    obtain ⟨options, -, h⟩ := Option.bind_eq_some_iff.mp h
    obtain ⟨hf, -, hslot⟩ := hc.at hawait
    exact claimAnswered_coherent hs hf hslot h
  · rename_i message firstSlot offset hawait
    obtain ⟨slots, -, h⟩ := Option.bind_eq_some_iff.mp h
    obtain ⟨hf, hslot⟩ := hc.at hawait
    exact slotAnswered_coherent hs hf hslot h
  -- a copy that waits for a slot
  · rename_i copy hawait
    have hs' := hs.log (.copySent copy) nofun fun _ _ => (hc.at hawait).1.currentRequest
    dsimp only at h
    split at h
    · rename_i claim hclaim
      cases h
      obtain ⟨hf, -⟩ := hc.at hawait
      exact ⟨hs'.goTo _, ⟨(hs.calls hf.currentRequest).2, hclaim, copySent_justified s copy⟩, nofun⟩
    · cases h
      exact consumeRecord_coherent hs' (copySent_justified s copy)
  · rename_i unknownOutcome hawait
    cases h
    exact (hc.at hawait).1.caught hs unknownOutcome
  -- the handler
  · rename_i hawait
    cases h
    exact ⟨(hs.log .handlerStarted nofun nofun).goTo _, hc.at hawait,
      fun _ => copied_of_log (hc.copied_at hawait rfl) nofun⟩
  · rename_i unknownOutcome hawait
    cases h
    exact caught_coherent hs (hc.copied_at hawait rfl) unknownOutcome
  · rename_i hawait
    cases h
    exact handlerReturned_coherent hs (hc.at hawait).1 (hc.copied_at hawait rfl)
  · rename_i unknownOutcome hawait
    cases h
    exact caught_coherent hs (hc.copied_at hawait rfl) unknownOutcome
  -- after the handler
  · rename_i claim hawait
    cases h
    obtain ⟨hrequest, hh, -⟩ := hc.at hawait
    exact acknowledge_coherent (hs.log _ nofun nofun) hrequest hh
      (copied_of_log (hc.copied_at hawait rfl) nofun)
  · rename_i claim hawait
    cases h
    obtain ⟨hrequest, hh, -⟩ := hc.at hawait
    exact acknowledge_coherent (hs.log _ nofun nofun) hrequest hh
      (copied_of_log (hc.copied_at hawait rfl) nofun)
  · rename_i claim keeps unknownOutcome hawait
    cases h
    obtain ⟨hrequest, hh, -⟩ := hc.at hawait
    exact acknowledge_coherent hs hrequest hh (hc.copied_at hawait rfl)
  · rename_i hawait
    cases h
    obtain ⟨hrequest, hh⟩ := hc.at hawait
    exact ⟨(hs.log .deleted (fun _ => .inl (hs.finished hh)) nofun).goTo _, ⟨hrequest, hh⟩,
      fun _ => copied_of_log (hc.copied_at hawait rfl) nofun⟩
  · rename_i unknownOutcome hawait
    cases h
    exact ⟨hs.goTo _, hc.at hawait, fun _ => hc.copied_at hawait rfl⟩
  · rename_i hawait
    cases h
    exact finish_coherent hs fun _ => .inr (.inl (hs.finished (hc.at hawait).2))
  · rename_i unknownOutcome hawait
    cases h
    exact caught_coherent hs (hc.copied_at hawait rfl) unknownOutcome
  -- the `catch` block
  · rename_i unknownOutcome hawait
    cases h
    exact errorReported_coherent hs (hc.copied_at hawait rfl) unknownOutcome
  · rename_i hawait
    cases h
    exact finish_coherent hs nofun
  · rename_i claim hawait
    cases h
    exact consumeRecord_coherent (hs.log _ nofun nofun) ((hc.at hawait).2.2.mono (subset_log _))
  · rename_i claim unknownOutcome hawait
    cases h
    exact consumeRecord_coherent hs (hc.at hawait).2.2
  · rename_i claim hawait
    cases h
    exact consumeRecord_coherent (hs.log _ nofun nofun) ((hc.at hawait).2.2.mono (subset_log _))
  · rename_i claim unknownOutcome hawait
    cases h
    exact consumeRecord_coherent hs (hc.at hawait).2.2
  · rename_i claim hawait
    cases h
    exact retryMessage_coherent ((hs.log (.claimReleased claim) nofun nofun).hold true s.holdsGroup) rfl
  · rename_i claim unknownOutcome hawait
    cases h
    exact retryMessage_coherent (hs.hold true s.holdsGroup) rfl
  · rename_i hawait
    cases h
    have hj : s.Justified := hc.at hawait
    exact finish_coherent (hs.log .deleted (fun _ => hj) nofun) fun _ => .inr (hj.mono (subset_log _))
  · rename_i unknownOutcome hawait
    cases h
    exact finish_coherent hs fun _ => .inr (hc.at hawait)
  · rename_i hawait
    cases h
    exact finish_coherent hs fun _ => .inl (hc.at hawait)
  · rename_i unknownOutcome hawait
    cases h
    exact finish_coherent hs fun _ => .inl (hc.at hawait)
  -- the `finally` block
  · rename_i claim threw hawait
    cases h
    exact ⟨(hs.log (.claimReleased claim) nofun nofun).goTo _,
      fun ht => ((hc.at hawait).2 ht).imp id (Justified.mono · (subset_log _)), nofun⟩
  · rename_i claim threw unknownOutcome hawait
    cases h
    exact ⟨hs.goTo _, (hc.at hawait).2, nofun⟩
  · cases h

/-- What a call changes of a state, besides the calls themselves. -/
structure CallFrame (s t : RecordState) : Prop where
  awaiting : t.awaiting = s.awaiting
  handled : t.handled = s.handled
  currentRequest : t.currentRequest = s.currentRequest
  heldClaim : t.heldClaim = s.heldClaim
  heldSlot : t.heldSlot = s.heldSlot
  handedBack : s.handedBack = true → t.handedBack = true
  effects : s.effects ⊆ t.effects

theorem CallFrame.awaitOk (h : CallFrame s t) (hrequest : s.currentRequest.isSome = true)
    {awaiting : Await} (ha : s.AwaitOk awaiting) : t.AwaitOk awaiting := by
  have hnot : ¬ s.Fresh := fun hf => by rw [hf.currentRequest] at hrequest; cases hrequest
  have hj : s.Justified → t.Justified := fun hj => hj.mono h.effects
  have hset : ∀ threw, s.Settled threw → t.Settled threw :=
    fun threw hs ht => (hs ht).imp h.handedBack hj
  cases awaiting with
  | sendWaitCopy | validate | takeClaim => exact absurd ha.1 hnot
  | takeSlot | sendSlotCopy => exact absurd ha.1 hnot
  | onReady | handle => exact ⟨h.currentRequest ▸ ha.1, h.handled ▸ ha.2⟩
  | settleClaim => exact ⟨h.currentRequest ▸ ha.1, h.handled ▸ ha.2.1, h.heldClaim ▸ ha.2.2⟩
  | ackMessage | onDone => exact ⟨h.currentRequest ▸ ha.1, h.handled ▸ ha.2⟩
  | onError => trivial
  | keepUnknown => exact ⟨h.handled ▸ ha.1, h.heldClaim ▸ ha.2.1, hj ha.2.2⟩
  | releaseThenConsume => exact ⟨h.handled ▸ ha.1, h.heldClaim ▸ ha.2.1, hj ha.2.2⟩
  | releaseThenRetry => exact ⟨h.handled ▸ ha.1, h.heldClaim ▸ ha.2⟩
  | consumeRecord => exact hj ha
  | retryMessage => exact h.handedBack ha
  | releaseSlot claim threw => exact ⟨h.heldSlot ▸ ha.1, hset threw ha.2⟩
  | ended threw => exact hset threw ha

theorem callFrame_log (effect : Effect) : CallFrame s (s.log effect) :=
  ⟨rfl, rfl, rfl, rfl, rfl, id, subset_log _⟩

theorem makeCall_frame (call : Call) (now : Int) : CallFrame s (s.makeCall x call now) := by
  unfold makeCall
  split
  · split
    · exact callFrame_log _
    · exact ⟨rfl, rfl, rfl, rfl, rfl, fun _ => rfl, subset_log _⟩
  · split
    · exact callFrame_log _
    split
    · exact callFrame_log _
    split
    · exact ⟨rfl, rfl, rfl, rfl, rfl, id, fun _ h => h⟩
    · exact callFrame_log _

theorem callEnds_frame {index : Nat} {succeeds : Bool} (h : s.callEnds index succeeds = some t) :
    CallFrame s t := by
  unfold callEnds at h
  split at h
  · cases h
    exact ⟨rfl, rfl, rfl, rfl, rfl, id, subset_log _⟩
  · dsimp only at h
    split at h
    · cases h
      exact ⟨rfl, rfl, rfl, rfl, rfl, id, fun _ h => subset_log _ (subset_log _ h)⟩
    · cases h
      exact ⟨rfl, rfl, rfl, rfl, rfl, id, subset_log _⟩
  · cases h

/-- A call adds no effect but its answer and, when it succeeds, its copy. -/
theorem makeCall_coherent (hc : s.Coherent) (hrequest : s.currentRequest.isSome = true)
    (call : Call) (now : Int) : (s.makeCall x call now).Coherent := by
  have hs := hc.sound
  have hframe := makeCall_frame (s := s) (x := x) call now
  have hawait : (s.makeCall x call now).AwaitOk (s.makeCall x call now).awaiting := by
    rw [hframe.awaiting]
    exact hframe.awaitOk hrequest hc.awaitOk
  have hnone : ∀ {p : Prop}, s.currentRequest = none → p := fun h => by
    rw [h] at hrequest
    cases hrequest
  have hquiet : ∀ effect : Effect, (∀ copy, effect ≠ .copySent copy) →
      s.awaiting.leaves = false → (s.log effect).Copied → s.deferred = true :=
    fun _ he hl => copied_of_log (hc.copied hl) he
  refine ⟨?_, hawait, ?_⟩
  · unfold makeCall
    split
    · rename_i delay
      split
      · exact hs.log _ nofun nofun
      · have hl := hs.log (.visibilityAsked delay) nofun nofun
        exact ⟨hl.finished, hl.deleted, hl.deferred, hnone, hl.calls, hl.requested⟩
    · split
      · exact hs.log _ nofun nofun
      split
      · exact hs.log _ nofun nofun
      split
      · exact ⟨hs.finished, hs.deleted, hs.deferred, hnone, hs.calls, hs.requested⟩
      · exact hs.log _ nofun nofun
  · rw [hframe.awaiting]
    intro hl
    unfold makeCall
    split
    · rename_i delay
      split
      · exact hquiet _ nofun hl
      · exact hquiet (.visibilityAsked delay) nofun hl
    · split
      · exact hquiet _ nofun hl
      split
      · exact hquiet _ nofun hl
      split
      · exact hc.copied hl
      · exact hquiet _ nofun hl

theorem callEnds_coherent (hc : s.Coherent) {index : Nat} {succeeds : Bool}
    (h : s.callEnds index succeeds = some t) : t.Coherent := by
  have hs := hc.sound
  have hframe := callEnds_frame h
  have hpending : s.pendingCalls ≠ [] := by
    rintro hnil
    simp [callEnds, hnil] at h
  have hrequest : s.currentRequest.isSome = true := by
    cases hr : s.currentRequest with
    | none => exact absurd (hs.pendingCalls hr) hpending
    | some => rfl
  have hnone : ∀ {p : Prop}, s.currentRequest = none → p := fun h => by
    rw [h] at hrequest
    cases hrequest
  have hawait : t.AwaitOk t.awaiting := by
    rw [hframe.awaiting]
    exact hframe.awaitOk hrequest hc.awaitOk
  unfold callEnds at h
  split at h
  · cases h
    have hl := hs.log (.callAnswered .fulfilled) nofun nofun
    exact ⟨⟨hl.finished, hl.deleted, hl.deferred, hnone, hnone, hl.requested⟩, hawait,
      fun hleaves => copied_of_log (hc.copied hleaves) nofun⟩
  · rename_i copy hcopy
    dsimp only at h
    split at h
    · cases h
      have hsub : s.effects ⊆ ((s.log (.copySent copy)).log (.callAnswered .fulfilled)).effects :=
        fun _ hm => subset_log _ (subset_log _ hm)
      have hj : ((s.log (.copySent copy)).log (.callAnswered .fulfilled)).Justified :=
        (copySent_justified s copy).mono (subset_log _)
      exact ⟨⟨fun hh => hsub (hs.finished hh), fun _ => hj,
        fun _ => ⟨copy, subset_log _ (mem_log _)⟩, hnone, hnone, fun _ _ => rfl⟩, hawait,
        fun _ _ => rfl⟩
    · cases h
      have hl := hs.log (.callAnswered .requestFailed) nofun nofun
      exact ⟨⟨hl.finished, hl.deleted, hl.deferred, hnone, hnone, hl.requested⟩, hawait,
        fun hleaves => copied_of_log (hc.copied hleaves) nofun⟩
  · cases h

theorem step_coherent (hc : s.Coherent) {e : RecordEvent} (h : step x s e = some t) :
    t.Coherent := by
  cases e with
  | answer answer tick => exact answer_coherent hc h
  | call call now =>
    simp only [step] at h
    split at h
    · rename_i hrequest
      cases h
      exact makeCall_coherent hc hrequest call now
    · cases h
  | callEnds index succeeds => exact callEnds_coherent hc h

/-- Once a record's own code ended only the calls of its handler go on. -/
theorem step_of_ended {threw : Bool} (hawait : s.awaiting = .ended threw) {e : RecordEvent}
    (h : step x s e = some t) : CallFrame s t := by
  cases e with
  | answer answer tick => cases answer <;> simp [step, RecordState.answer, hawait] at h
  | call call now =>
    simp only [step] at h
    split at h
    · cases h
      exact makeCall_frame call now
    · cases h
  | callEnds index succeeds => exact callEnds_frame h

theorem outcome?_eq_some {outcome : Option RecordOutcome} (h : s.outcome? = some outcome) :
    ∃ threw, s.awaiting = .ended threw ∧ (threw = false ↔ outcome.isSome = true) ∧
      ∀ o, outcome = some o → o = ⟨s.handedBack, s.holdsGroup⟩ := by
  unfold outcome? at h
  split at h
  · rename_i hawait
    cases h
    exact ⟨true, hawait, by simp, nofun⟩
  · rename_i hawait
    cases h
    exact ⟨false, hawait, by simp, fun o ho => by cases ho; rfl⟩
  · cases h

theorem start_coherent (x : Execution) (now : Int) : (start x now).Coherent := by
  have hs : ∀ awaiting : Await, Sound { awaiting } := fun _ => ⟨nofun, nofun, nofun, fun _ => rfl,
    fun _ => ⟨rfl, rfl⟩, nofun⟩
  have hnot : ∀ awaiting : Await, ¬ Copied { awaiting } := fun _ hc => hc.elim fun _ => nofun
  unfold start
  dsimp only
  split
  · split
    · exact ⟨hs _, ⟨⟨rfl, rfl, hnot _⟩, rfl, rfl⟩, fun _ hc => absurd hc (hnot _)⟩
    · exact ⟨hs _, trivial, fun _ hc => absurd hc (hnot _)⟩
  · exact ⟨hs _, ⟨⟨rfl, rfl, hnot _⟩, rfl, rfl⟩, fun _ hc => absurd hc (hnot _)⟩

end RecordState

end Ez4.Queue.ProcessRecord

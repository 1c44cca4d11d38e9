import Ez4.Local.Agreement

/-! # What a local message is answered

The schedule of a local message, read off the one of the deployed record: the
handler and the hooks end when the record's do, and the validation with the
last answer to the record's claims. -/
namespace Ez4.Local.Agreement
open Ez4.Queue.Messages hiding deferredCopy
open Ez4.Library Ez4.Queue.ProcessRecord Ez4.Local.Queue Ez4.Local.Lambda

/-- No request of the record fails, and its calls are awaited one after another. -/
def faultless (a : RecordState) : RecordEvent → Bool
  | .answer (.rejected _) _ =>
    a.pendingCalls = [] && (a.awaiting = .validate || listens a.awaiting)
  | .answer _ _ => a.pendingCalls = []
  | .call _ _ => a.pendingCalls = [] && listens a.awaiting
  | .callEnds _ succeeds => succeeds

/-- What the message is answered when the record is. -/
def localAnswer (options : Options) (a : RecordState) (tick : Tick) :
    Await → Answer → Option LocalAnswer
  | .validate, .validated message =>
    if options.idempotency.isSome || slotCount options ≠ 0 then none
    else some (.validated message (claimOf a) [] tick)
  | .validate, .rejected unknownOutcome => some (.rejected unknownOutcome)
  | .takeClaim message, .claimed owner =>
    if slotCount options ≠ 0 then none else some (.validated message (.taken owner) [] tick)
  | .takeClaim message, .refused .running => some (.validated message .busy [] tick)
  | .takeClaim message, .refused _ => some (.validated message .done [] tick)
  | .takeSlot message firstSlot offset, .claimed owner =>
    some (.validated message (claimOf a) (List.replicate offset .busy ++ [.taken owner])
      { tick with firstSlot })
  | .takeSlot message firstSlot offset, .refused _ =>
    if offset + 1 < slotCount options then none
    else some (.validated message (claimOf a) (List.replicate (offset + 1) .busy)
      { tick with firstSlot })
  | await, .fulfilled => if listens await then some .fulfilled else none
  | await, .rejected unknownOutcome =>
    if listens await then some (.rejected unknownOutcome) else none
  | _, _ => none

def localEvent (options : Options) (a : RecordState) : RecordEvent → Option LocalEvent
  | .answer answer tick => (localAnswer options a tick a.awaiting answer).map .answer
  | .call call now => some (.call call now)
  | .callEnds _ _ => none

variable {x : Execution} {y : LocalExecution} {a t : RecordState} {l : LocalState}

/-- The message follows a step of its record. -/
def Followed (x : Execution) (y : LocalExecution) (t : RecordState) (l : LocalState) :
    Option LocalEvent → Prop
  | none => Matches x t l
  | some event => ∃ m, l.step y event = some m ∧ Matches x t m

theorem step_validated (h : l.awaiting = .validate) (message : Message) (claim : ClaimResult)
    (results : List ClaimResult) (tick : Tick) :
    l.step y (.answer (.validated message claim results tick)) =
      some (l.enterClaim y message claim results tick) := by
  simp only [LocalState.step, LocalState.answer, h]

theorem step_rejected (h : l.awaiting = .validate ∨ l.awaiting = .onReady ∨ l.awaiting = .handle ∨
    l.awaiting = .onDone) (unknownOutcome : Bool) :
    l.step y (.answer (.rejected unknownOutcome)) = some (l.caught unknownOutcome) := by
  rcases h with h | h | h | h <;> simp only [LocalState.step, LocalState.answer, h]

/-! ## Validation and claims -/

theorem SameClaimed.awaitRecord {message : Message} (h : SameClaimed x message a l)
    (awaiting : Await) : SameClaimed x message { a with awaiting } l := by
  unfold SameClaimed at h ⊢
  split at h
  · exact h.awaitRecord awaiting
  · obtain ⟨owner, h⟩ := h
    exact ⟨owner, h.awaitRecord awaiting⟩

theorem SameClaimed.calls {message : Message} (h : SameClaimed x message a l) :
    a.pendingCalls = [] := by
  unfold SameClaimed at h
  split at h
  · exact h.calls
  · obtain ⟨owner, h⟩ := h
    exact h.calls

/-- Past the record's key, the message is answered at once when there's no slot to try. -/
theorem followed_enterSlots (hx : SameExecution x y) {message : Message}
    (h : SameClaimed x message a l) (hlocal : l.awaiting = .validate) (tick : Tick) :
    Followed x y (a.enterSlots x message tick) l
      ((if slotCount x.options ≠ 0 then none
        else some (LocalAnswer.validated message (claimOf a) [] tick)).map .answer) := by
  by_cases hslots : slotCount x.options = 0
  · rw [if_neg (not_not.mpr hslots)]
    obtain ⟨m, hm, henter⟩ := enterClaim_of_claimed hx h
    refine ⟨_, step_validated hlocal _ _ _ _, ?_⟩
    rw [henter]
    exact matches_enterSlots hx hm message tick hslots
  · rw [if_pos hslots]
    obtain ⟨slots, hsome, hpos, hasks⟩ := enterSlots_asks (a := a) message tick hslots
    rw [hasks]
    exact .takingSlot rfl hlocal hsome hpos (h.awaitRecord _)

theorem followed_validate (hx : SameExecution x y) (h : Same a l) (hwait : a.awaiting = .validate)
    (hlocal : l.awaiting = .validate) {answer : Answer} {tick : Tick}
    (ht : a.answer x answer tick = some t) :
    Followed x y t l (localEvent x.options a (.answer answer tick)) := by
  simp only [RecordState.answer, hwait] at ht
  simp only [localEvent, hwait]
  cases answer with
  | rejected unknownOutcome =>
    cases ht
    exact ⟨_, step_rejected (.inl hlocal) unknownOutcome, matches_caught h unknownOutcome⟩
  | validated message =>
    cases ht
    unfold RecordState.enterClaim localAnswer
    cases hoptions : x.options.idempotency with
    | some options => exact .claiming rfl hlocal (hoptions ▸ rfl) (h.awaitRecord _)
    | none =>
      have hclaimed : SameClaimed x message a l := by
        unfold SameClaimed
        rw [hoptions]
        exact h
      simpa using followed_enterSlots hx hclaimed hlocal tick
  | fulfilled => cases ht
  | claimed owner => cases ht
  | refused state => cases ht

/-- What the message does about the claim of its key. -/
theorem enterClaim_of_options (hx : SameExecution x y) {options : ClaimsOptions}
    (hoptions : x.options.idempotency = some options) (message : Message) (claim : ClaimResult)
    (results : List ClaimResult) (tick : Tick) :
    l.enterClaim y message claim results tick = match claim with
      | .done => l.consumeMessage y
      | .busy => { l with handedBack := true, holdsGroup := true }.retryMessage
      | .taken owner =>
        let held : HeldClaim := ⟨getIdempotencyKey options.handlerName message options.key, owner⟩
        { l.log (.claimTaken held) with heldClaim := some held }.enterSlots y message results
          tick := by
  cases claim <;> simp only [LocalState.enterClaim, hx.options, hoptions]

theorem followed_takeClaim (hx : SameExecution x y) (h : Same a l) {message : Message}
    (hwait : a.awaiting = .takeClaim message) (hlocal : l.awaiting = .validate)
    {options : ClaimsOptions} (hoptions : x.options.idempotency = some options) {answer : Answer}
    {tick : Tick} (hok : faultless a (.answer answer tick) = true)
    (ht : a.answer x answer tick = some t) :
    Followed x y t l (localEvent x.options a (.answer answer tick)) := by
  simp only [RecordState.answer, hwait, hoptions, Option.bind_some] at ht
  simp only [localEvent, hwait]
  cases answer with
  | claimed owner =>
    cases ht
    refine followed_enterSlots hx ?_ hlocal tick
    unfold SameClaimed
    rw [hoptions]
    exact ⟨owner, h.takeClaim _⟩
  | refused state =>
    cases ht
    unfold RecordState.claimRefused
    cases state with
    | running =>
      refine ⟨_, step_validated hlocal _ _ _ _, ?_⟩
      rw [enterClaim_of_options hx hoptions]
      exact matches_retryMessage h.handBack.holdGroup
    | done | unknown =>
      refine ⟨_, step_validated hlocal _ _ _ _, ?_⟩
      rw [enterClaim_of_options hx hoptions]
      exact matches_consume hx (h.skip rfl)
  | rejected unknownOutcome => simp [faultless, hwait, listens] at hok
  | fulfilled => cases ht
  | validated message => cases ht

theorem followed_takeSlot (hx : SameExecution x y) {message : Message} {firstSlot offset : Nat}
    {slots : SlotsOptions} (h : SameClaimed x message a l)
    (hwait : a.awaiting = .takeSlot message firstSlot offset) (hlocal : l.awaiting = .validate)
    (hoptions : x.options.keyConcurrency = some slots) (hlt : offset < slots.max) {answer : Answer}
    {tick : Tick} (hok : faultless a (.answer answer tick) = true)
    (ht : a.answer x answer tick = some t) :
    Followed x y t l (localEvent x.options a (.answer answer tick)) := by
  have hcount : slotCount x.options = slots.max := by rw [slotCount, hoptions]; rfl
  obtain ⟨m, hm, henter⟩ := enterClaim_of_claimed hx h
  simp only [RecordState.answer, hwait, hoptions, Option.bind_some] at ht
  simp only [localEvent, hwait]
  cases answer with
  | claimed owner =>
    cases ht
    refine ⟨_, step_validated hlocal _ _ _ _, ?_⟩
    rw [henter, LocalState.enterSlots, hx.options, hoptions]
    dsimp only
    rw [takeSlot_taken message firstSlot hlt owner]
    exact matches_startHandler hx (hm.takeSlot _) message
  | refused state =>
    cases ht
    have hanswer : localAnswer x.options a tick (.takeSlot message firstSlot offset)
        (.refused state) = if offset + 1 < slots.max then none
          else some (.validated message (claimOf a) (List.replicate (offset + 1) .busy)
            { tick with firstSlot }) := by
      rw [← hcount]; rfl
    rw [hanswer]
    by_cases hnext : offset + 1 < slots.max
    · rw [if_pos hnext, RecordState.takeSlot, if_pos hnext]
      exact .takingSlot rfl hlocal hoptions hnext (h.awaitRecord _)
    · rw [if_neg hnext, RecordState.takeSlot, if_neg hnext]
      refine ⟨_, step_validated hlocal _ _ _ _, ?_⟩
      rw [henter, LocalState.enterSlots, hx.options, hoptions]
      dsimp only
      rw [takeSlot_busy]
      exact matches_waitForSlot hx hm tick
  | rejected unknownOutcome => simp [faultless, hwait, listens] at hok
  | fulfilled => cases ht
  | validated message => cases ht

/-! ## The handler and the hooks -/

theorem followed_listening (hx : SameExecution x y) (h : Same a l)
    (hears : listens a.awaiting = true) (await : visibleAwait a.awaiting = some l.awaiting)
    {answer : Answer} {tick : Tick} (ht : a.answer x answer tick = some t) :
    Followed x y t l (localEvent x.options a (.answer answer tick)) := by
  cases hwait : a.awaiting with
  | onReady =>
    rw [hwait] at await
    have hlocal : l.awaiting = .onReady := (Option.some.inj await).symm
    simp only [RecordState.answer, hwait] at ht
    simp only [localEvent, hwait]
    cases answer with
    | fulfilled =>
      cases ht
      have hstarted : Same (a.log .handlerStarted) (l.log .handlerStarted) := h.log rfl
      refine ⟨_, ?_, .visible rfl (hstarted.await .handle .handle)⟩
      simp only [LocalState.step, LocalState.answer, hlocal]
    | rejected unknownOutcome =>
      cases ht
      exact ⟨_, step_rejected (.inr (.inl hlocal)) _, matches_caught h _⟩
    | _ => cases ht
  | handle =>
    rw [hwait] at await
    have hlocal : l.awaiting = .handle := (Option.some.inj await).symm
    simp only [RecordState.answer, hwait] at ht
    simp only [localEvent, hwait]
    cases answer with
    | fulfilled =>
      cases ht
      refine ⟨_, ?_, matches_handlerReturned hx h⟩
      simp only [LocalState.step, LocalState.answer, hlocal]
    | rejected unknownOutcome =>
      cases ht
      exact ⟨_, step_rejected (.inr (.inr (.inl hlocal))) _, matches_caught h _⟩
    | _ => cases ht
  | onDone =>
    rw [hwait] at await
    have hlocal : l.awaiting = .onDone := (Option.some.inj await).symm
    simp only [RecordState.answer, hwait] at ht
    simp only [localEvent, hwait]
    cases answer with
    | fulfilled =>
      cases ht
      refine ⟨_, ?_, matches_finish h false⟩
      simp only [LocalState.step, LocalState.answer, hlocal]
    | rejected unknownOutcome =>
      cases ht
      exact ⟨_, step_rejected (.inr (.inr (.inr hlocal))) _, matches_caught h _⟩
    | _ => cases ht
  | onError unknownOutcome =>
    rw [hwait] at await
    have hlocal : l.awaiting = .onError unknownOutcome := (Option.some.inj await).symm
    simp only [RecordState.answer, hwait] at ht
    simp only [localEvent, hwait]
    cases answer with
    | fulfilled =>
      cases ht
      refine ⟨_, ?_, matches_errorReported hx h unknownOutcome⟩
      simp only [LocalState.step, LocalState.answer, hlocal]
    | rejected _ =>
      cases ht
      refine ⟨_, ?_, matches_finish h true⟩
      simp only [LocalState.step, LocalState.answer, hlocal]
    | _ => cases ht
  | _ => rw [hwait] at hears; cases hears

theorem followed_call (hx : SameExecution x y) (h : Same a l)
    (hears : listens a.awaiting = true) (await : visibleAwait a.awaiting = some l.awaiting)
    {call : Call} {now : Int} (ht : a.step x (.call call now) = some t) :
    Followed x y t l (some (.call call now)) := by
  simp only [RecordState.step, Option.ite_none_right_eq_some] at ht
  obtain ⟨hrequest, ht⟩ := ht
  cases ht
  refine ⟨_, ?_, matches_makeCall hx h hears await call now⟩
  rw [LocalState.step, h.currentRequest, if_pos hrequest]

/-! ## One step -/

/-- A request that says nothing when it's answered is none of the handler's. -/
theorem localAnswer_silent {options : Options} {tick : Tick} (h : isSilent a.awaiting = true) :
    localAnswer options a tick a.awaiting .fulfilled = none := by
  cases hwait : a.awaiting <;> first | rfl | (rw [hwait] at h; cases h)

theorem not_listens_of_silent (h : isSilent a.awaiting = true) : listens a.awaiting = false := by
  cases hwait : a.awaiting <;> first | rfl | (rw [hwait] at h; cases h)

theorem callEnds_none (h : a.pendingCalls = []) (index : Nat) (succeeds : Bool) :
    a.callEnds index succeeds = none := by
  simp [RecordState.callEnds, h]

/-- A call that's answered changes nothing of what the record awaits. -/
theorem awaiting_callEnds {index : Nat} {succeeds : Bool} (h : a.callEnds index succeeds = some t) :
    t.awaiting = a.awaiting := by
  unfold RecordState.callEnds at h
  split at h
  · cases h; rfl
  · dsimp only at h
    split at h <;> (cases h; rfl)
  · cases h

theorem calls_of_faultless {answer : Answer} {tick : Tick}
    (h : faultless a (.answer answer tick) = true) : a.pendingCalls = [] := by
  cases answer <;> simp_all [faultless]

theorem listens_of_call {call : Call} {now : Int} (h : faultless a (.call call now) = true) :
    a.pendingCalls = [] ∧ listens a.awaiting = true := by
  simpa [faultless] using h

/-- The requests of a record that says nothing are answered with success only. -/
theorem fulfilled_of_silent (hsilent : isSilent a.awaiting = true) {answer : Answer} {tick : Tick}
    (hok : faultless a (.answer answer tick) = true) (ht : a.answer x answer tick = some t) :
    answer = .fulfilled := by
  cases answer with
  | fulfilled => rfl
  | rejected unknownOutcome =>
    simp only [faultless, not_listens_of_silent hsilent] at hok
    cases hwait : a.awaiting <;> simp_all [isSilent]
  | validated message | claimed owner | refused state =>
    simp only [RecordState.answer] at ht
    cases hwait : a.awaiting <;> simp_all [isSilent]

/-- **A local message follows its record**, step by step. -/
theorem followed_step (hx : SameExecution x y) (h : Matches x a l) {e : RecordEvent}
    (hok : faultless a e = true) (ht : a.step x e = some t) :
    Followed x y t l (localEvent x.options a e) := by
  cases h with
  | visible await same =>
    cases e with
    | answer answer tick =>
      by_cases hears : listens a.awaiting = true
      · exact followed_listening hx same hears await ht
      · cases hwait : a.awaiting with
        | validate =>
          rw [hwait] at await
          exact followed_validate hx same hwait (Option.some.inj await).symm ht
        | ended threw =>
          simp only [RecordState.step, RecordState.answer, hwait] at ht
          cases answer <;> cases ht
        | _ => rw [hwait] at await hears; first | cases await | exact absurd rfl hears
    | call call now =>
      rw [faultless, Bool.and_eq_true] at hok
      exact followed_call hx same hok.2 await ht
    | callEnds index succeeds =>
      rw [RecordState.step, callEnds_none same.calls] at ht
      cases ht
  | silent await calls next rest =>
    cases e with
    | answer answer tick =>
      have hanswer := fulfilled_of_silent await hok ht
      subst hanswer
      rw [RecordState.step, next tick] at ht
      cases ht
      rw [localEvent, localAnswer_silent await]
      exact rest
    | call call now =>
      have hears := (listens_of_call hok).2
      rw [not_listens_of_silent await] at hears
      cases hears
    | callEnds index succeeds =>
      rw [RecordState.step, callEnds_none calls] at ht
      cases ht
  | @calling _ next _ call hears await calls hnext same =>
    cases e with
    | answer answer tick =>
      have hnone := calls_of_faultless hok
      rw [calls] at hnone
      cases hnone
    | call other now =>
      have hnone := (listens_of_call hok).1
      rw [calls] at hnone
      cases hnone
    | callEnds index succeeds =>
      have hsucceeds : succeeds = true := hok
      subst hsucceeds
      cases index with
      | zero =>
        rw [RecordState.step, hnext] at ht
        cases ht
        refine .visible ?_ same
        rw [awaiting_callEnds hnext]
        exact await
      | succ index => simp [RecordState.step, RecordState.callEnds, calls] at ht
  | claiming await waits options same =>
    obtain ⟨claims, hclaims⟩ := Option.isSome_iff_exists.mp options
    cases e with
    | answer answer tick => exact followed_takeClaim hx same await waits hclaims hok ht
    | call call now =>
      have hears := (listens_of_call hok).2
      rw [await] at hears
      cases hears
    | callEnds index succeeds =>
      rw [RecordState.step, callEnds_none same.calls] at ht
      cases ht
  | takingSlot await waits options offset_lt same =>
    cases e with
    | answer answer tick => exact followed_takeSlot hx same await waits options offset_lt hok ht
    | call call now =>
      have hears := (listens_of_call hok).2
      rw [await] at hears
      cases hears
    | callEnds index succeeds =>
      rw [RecordState.step, callEnds_none (SameClaimed.calls same)] at ht
      cases ht

/-! ## Handlers that start, and ends -/

/-- `onReady` ended, so the handler is called. -/
def startsHandler (a : RecordState) : RecordEvent → Bool
  | .answer .fulfilled _ => a.awaiting = .onReady
  | _ => false

def startsLocalHandler (l : LocalState) : LocalEvent → Bool
  | .answer .fulfilled => l.awaiting = .onReady
  | _ => false

theorem visible_of_listens (h : Matches x a l) (hears : listens a.awaiting = true) :
    visibleAwait a.awaiting = some l.awaiting := by
  cases h with
  | visible await _ => exact await
  | silent await _ _ _ => rw [not_listens_of_silent await] at hears; cases hears
  | calling _ await _ _ _ => exact await
  | claiming await _ _ _ => rw [await] at hears; cases hears
  | takingSlot await _ _ _ _ => rw [await] at hears; cases hears

theorem localAnswer_fulfilled {options : Options} {tick : Tick} {await : Await} :
    localAnswer options a tick await .fulfilled = if listens await then some .fulfilled else none := by
  cases await <;> rfl

theorem localAnswer_ne_fulfilled {options : Options} {tick : Tick} {await : Await}
    {answer : Answer} (h : answer ≠ .fulfilled) :
    localAnswer options a tick await answer ≠ some .fulfilled := by
  unfold localAnswer
  split <;> first | exact absurd rfl h | (split <;> simp) | simp

theorem startsHandler_eq_false {answer : Answer} {tick : Tick} (h : answer ≠ .fulfilled) :
    startsHandler a (.answer answer tick) = false := by
  cases answer <;> first | rfl | exact absurd rfl h

theorem startsLocalHandler_eq_false {answer : LocalAnswer} (h : answer ≠ .fulfilled) :
    startsLocalHandler l (.answer answer) = false := by
  cases answer <;> first | rfl | exact absurd rfl h

/-- A handler starts with the one of its record. -/
theorem startsHandler_follows (h : Matches x a l) (e : RecordEvent) :
    match localEvent x.options a e with
    | none => startsHandler a e = false
    | some event => startsLocalHandler l event = startsHandler a e := by
  cases e with
  | call call now => rfl
  | callEnds index succeeds => rfl
  | answer answer tick =>
    by_cases hanswer : answer = .fulfilled
    · subst hanswer
      rw [localEvent, localAnswer_fulfilled]
      by_cases hears : listens a.awaiting = true
      · have await := visible_of_listens h hears
        have hready : l.awaiting = .onReady ↔ a.awaiting = .onReady := by
          cases hwait : a.awaiting <;> simp [hwait, visibleAwait] at await <;> simp [← await]
        rw [if_pos hears]
        exact decide_eq_decide.mpr hready
      · have hready : a.awaiting ≠ .onReady := fun hready => hears (by rw [hready]; rfl)
        rw [if_neg hears]
        exact decide_eq_false hready
    · have hfalse : startsHandler a (.answer answer tick) = false := startsHandler_eq_false hanswer
      cases hlocal : localAnswer x.options a tick a.awaiting answer with
      | none =>
        rw [localEvent, hlocal]
        exact hfalse
      | some other =>
        have hother : other ≠ .fulfilled := fun hother =>
          localAnswer_ne_fulfilled hanswer (hlocal.trans (congrArg some hother))
        rw [localEvent, hlocal]
        exact (startsLocalHandler_eq_false hother).trans hfalse.symm

theorem ended_of_outcome {outcome : Option RecordOutcome} (ho : a.outcome? = some outcome) :
    ∃ threw, a.awaiting = .ended threw := by
  unfold RecordState.outcome? at ho
  split at ho
  · exact ⟨_, ‹_›⟩
  · exact ⟨_, ‹_›⟩
  · cases ho

theorem outcome_callEnds {index : Nat} {succeeds : Bool}
    (h : a.callEnds index succeeds = some t) : t.outcome? = a.outcome? := by
  unfold RecordState.callEnds at h
  split at h
  · cases h; rfl
  · dsimp only at h
    split at h <;> (cases h; rfl)
  · cases h

/-- Nothing that happens still changes how a record ended. -/
theorem outcome_of_step {outcome : Option RecordOutcome} (ho : a.outcome? = some outcome)
    {e : RecordEvent} (hok : faultless a e = true) (ht : a.step x e = some t) :
    t.outcome? = some outcome := by
  obtain ⟨threw, hended⟩ := ended_of_outcome ho
  cases e with
  | answer answer tick =>
    simp only [RecordState.step, RecordState.answer, hended] at ht
    cases answer <;> cases ht
  | call call now =>
    have hears := (listens_of_call hok).2
    rw [hended] at hears
    cases hears
  | callEnds index succeeds => rw [outcome_callEnds ht, ho]

theorem outcome_of_matches (h : Matches x a l) {outcome : Option RecordOutcome}
    (ho : a.outcome? = some outcome) : l.outcome? = some outcome ∧ Same a l := by
  obtain ⟨threw, hended⟩ := ended_of_outcome ho
  cases h with
  | visible await same =>
    rw [hended] at await
    have hlocal : l.awaiting = .ended threw := (Option.some.inj await).symm
    refine ⟨?_, same⟩
    rw [← ho, LocalState.outcome?, RecordState.outcome?, hended, hlocal, same.handedBack,
      same.holdsGroup]
    cases threw <;> rfl
  | silent await _ _ _ => rw [hended] at await; cases await
  | calling hears _ _ _ _ => rw [hended] at hears; cases hears
  | claiming await _ _ _ => rw [hended] at await; cases await
  | takingSlot await _ _ _ _ => rw [hended] at await; cases await

end Ez4.Local.Agreement

import Ez4.Local.PollerLimits

/-! # The runs of the poller

The poller keeps to its limits in every run. It leaves a message visible only
where another consumer takes the place of a wake-up that is due. -/
namespace Ez4.Local.Queue
open Ez4.Library Ez4.Queue.Messages NotifyingQueue

variable {parameters : Parameters} {options : QueuePollerParameters} {p after : QueuePoller}
  {event : PollerEvent}

/-! ## What can happen -/

inductive Happens (parameters : Parameters) (options : QueuePollerParameters) (p : QueuePoller) :
    PollerEvent → QueuePoller → Prop
  | start : Happens parameters options p .start p.start
  | pollTurn : p.isPolling = true →
    Happens parameters options p .pollTurn (p.pollTurn parameters options)
  | callListeners : Happens parameters options p .callListeners p.callListeners
  | windowTimer (due : Rat) : p.windowTimer = some due →
    Happens parameters options p .windowTimer p.dispatchPending
  | settleBatch (batch : Nat) : Happens parameters options p (.settleBatch batch)
    (p.settleBatch batch)
  | stop : Happens parameters options p .stop p.stop
  | advance (milliseconds : Nat) : Happens parameters options p (.advance milliseconds)
    (p.advance milliseconds)
  | receiveMessages (max : Nat) : 1 ≤ max → Happens parameters options p (.receiveMessages max)
    { p with queue := (p.queue.receiveMessages parameters max).1 }
  /-- An operation on the queue that receives nothing. -/
  | onQueue (event : PollerEvent) (queue : NotifyingQueue) : IsNoticed parameters p.queue queue →
    Happens parameters options p event { p with queue }

theorem happens_of_happen (hscheduled : p.queue.IsScheduled parameters)
    (h : p.happen parameters event = some after) : Happens parameters options p event after := by
  cases event with
  | start =>
    obtain ⟨-, h⟩ := Option.ite_none_left_eq_some.mp h
    exact Option.some.inj h ▸ .start
  | pollTurn | advance => cases h
  | callListeners =>
    obtain ⟨-, h⟩ := Option.ite_none_right_eq_some.mp h
    exact Option.some.inj h ▸ .callListeners
  | windowTimer =>
    obtain ⟨hdue, h⟩ := Option.ite_none_right_eq_some.mp h
    cases htimer : p.windowTimer with
    | none =>
      rw [htimer] at hdue
      cases hdue
    | some due => exact Option.some.inj h ▸ .windowTimer due htimer
  | wakeUp =>
    obtain ⟨-, h⟩ := Option.ite_none_right_eq_some.mp h
    exact Option.some.inj h ▸ .onQueue _ _ (isNoticed_wakeUp _)
  | settleBatch batch =>
    obtain ⟨-, h⟩ := Option.ite_none_right_eq_some.mp h
    exact Option.some.inj h ▸ .settleBatch batch
  | stop =>
    obtain ⟨-, h⟩ := Option.ite_none_right_eq_some.mp h
    exact Option.some.inj h ▸ .stop
  | sendMessage message =>
    exact Option.some.inj h ▸ .onQueue _ _ (isNoticed_sendMessage hscheduled message)
  | receiveMessages max =>
    obtain ⟨hmax, h⟩ := Option.ite_none_left_eq_some.mp h
    exact Option.some.inj h ▸ .receiveMessages max (Nat.one_le_iff_ne_zero.mpr hmax)
  | deleteMessage receiptHandle =>
    exact Option.some.inj h ▸ .onQueue _ _ (isNoticed_deleteMessage hscheduled receiptHandle)
  | changeVisibility receiptHandle timeout =>
    exact Option.some.inj h ▸
      .onQueue _ _ (isNoticed_changeVisibility hscheduled receiptHandle timeout)
  | getDeadLetterMessages =>
    exact Option.some.inj h ▸ .onQueue _ _ (isNoticed_getDeadLetterMessages hscheduled)
  | isEmpty => exact Option.some.inj h ▸ .onQueue _ _ (isNoticed_isEmpty hscheduled)

theorem happens_of_step (hscheduled : p.queue.IsScheduled parameters)
    (h : p.step parameters options event = some after) :
    Happens parameters options p event after := by
  unfold QueuePoller.step at h
  split at h
  · exact Option.some.inj h ▸ .advance _
  · obtain ⟨hpolling, h⟩ := Option.ite_none_right_eq_some.mp h
    exact Option.some.inj h ▸ .pollTurn hpolling
  · obtain ⟨-, h⟩ := Option.ite_none_left_eq_some.mp h
    exact happens_of_happen hscheduled h

/-! ## The limits -/

theorem isReady_of_windowTimer (h : IsKept options p) {due : Rat} (htimer : p.windowTimer = some due) :
    IsReady options { p with windowTimer := none, pendingMessages := [] } p.pendingMessages := by
  have hwaits : p.pendingMessages ≠ [] := by
    intro hnone
    rw [h.armed.mpr hnone] at htimer
    cases htimer
  have hstopped : p.isStopped = false := by
    by_contra hstopped
    exact hwaits (h.stopped (eq_true_of_ne_false hstopped))
  obtain ⟨hcapacity, hless⟩ := h.room hwaits
  exact ⟨h.limits.sizes, h.limits.unfinished, h.limits.complete hstopped,
    ⟨List.length_pos_of_ne_nil hwaits, Nat.le_of_lt hless⟩, hcapacity, rfl, rfl⟩

theorem isKept_settleBatch (h : IsKept options p) (batch : Nat) :
    IsKept options (p.settleBatch batch) := by
  have hlength : (p.activeBatches.erase batch).length ≤ p.activeBatches.length :=
    List.length_erase_le
  refine ⟨⟨h.limits.complete, h.limits.inOrder, h.limits.sizes, ?_, fun concurrency hset => ?_,
    h.limits.window⟩, fun hwaits => ?_, h.armed, h.due, h.stopped, h.noWindow⟩
  · obtain ⟨hnodup, hlt⟩ := h.limits.unfinished
    exact ⟨hnodup.erase batch, fun other hother => hlt other (List.mem_of_mem_erase hother)⟩
  · exact Nat.le_trans hlength (h.limits.concurrency concurrency hset)
  · obtain ⟨hcapacity, hless⟩ := h.room hwaits
    refine ⟨?_, hless⟩
    unfold QueuePoller.hasCapacity at hcapacity ⊢
    cases hset : options.concurrency with
    | none => rfl
    | some concurrency =>
      rw [hset] at hcapacity
      dsimp only at hcapacity ⊢
      rw [Bool.or_eq_true, decide_eq_true_eq] at hcapacity ⊢
      exact hcapacity.imp_right fun hlt => Nat.lt_of_le_of_lt hlength hlt

theorem isKept_stop (h : IsKept options p) : IsKept options p.stop where
  limits := {
    complete := fun hstopped => nomatch hstopped
    inOrder := h.limits.inOrder
    sizes := h.limits.sizes
    unfinished := h.limits.unfinished
    concurrency := h.limits.concurrency
    window := ⟨[], List.nil_suffix, rfl, by simp⟩ }
  room hne := absurd rfl hne
  armed := iff_of_true rfl rfl
  due _ hset := nomatch hset
  stopped _ := rfl
  noWindow _ := rfl

theorem isKept_step (hconcurrency : options.concurrency ≠ some 0) (hkept : IsKept options p)
    (h : Happens parameters options p event after) : IsKept options after := by
  cases h with
  | start | callListeners => exact hkept.of_same rfl rfl rfl rfl rfl rfl (le_refl _)
  | pollTurn => exact isKept_pollTurn hconcurrency hkept
  | windowTimer due htimer =>
    exact isKept_dispatchBatch hconcurrency (isReady_of_windowTimer hkept htimer)
  | settleBatch batch => exact isKept_settleBatch hkept batch
  | stop => exact isKept_stop hkept
  | advance milliseconds =>
    refine hkept.of_same rfl rfl rfl rfl rfl rfl ?_
    exact le_add_of_nonneg_right (Nat.cast_nonneg milliseconds)
  | receiveMessages max =>
    refine hkept.of_same rfl rfl rfl rfl rfl rfl (le_of_eq ?_)
    dsimp only
    rw [(queue_receiveMessages max).1, clock_receiveMessages]
  | onQueue event queue hnoticed =>
    exact hkept.of_same rfl rfl rfl rfl rfl rfl (le_of_eq hnoticed.clock.symm)

/-! ## What is left visible -/

theorem queue_takeMessages (messages : List ReceivedMessage) :
    (p.takeMessages options messages).queue = p.queue := by
  unfold QueuePoller.takeMessages
  dsimp only
  split
  · rfl
  · split
    · rfl
    · split <;> rfl

theorem isScheduled_pollTurn (h : p.queue.IsScheduled parameters) :
    (p.pollTurn parameters options).queue.IsScheduled parameters := by
  unfold QueuePoller.pollTurn
  split
  · exact h
  · dsimp only
    rw [queue_takeMessages]
    exact isScheduled_receiveMessages h _

theorem isScheduled_step (hscheduled : p.queue.IsScheduled parameters)
    (h : Happens parameters options p event after) : after.queue.IsScheduled parameters := by
  cases h with
  | start | windowTimer | stop => exact hscheduled
  | callListeners | settleBatch =>
    exact hscheduled.keep rfl rfl (le_refl _) (List.Subset.refl _)
  | pollTurn => exact isScheduled_pollTurn hscheduled
  | advance milliseconds =>
    exact hscheduled.keep rfl rfl (le_add_of_nonneg_right (Nat.cast_nonneg milliseconds))
      (List.Subset.refl _)
  | receiveMessages max => exact isScheduled_receiveMessages hscheduled max
  | onQueue event queue hnoticed => exact hnoticed.scheduled

/-- The poller runs and has a free place, and nobody has called it yet. -/
structure IsIdle (options : QueuePollerParameters) (p : QueuePoller) : Prop where
  isStarted : p.isStarted = true
  isStopped : p.isStopped = false
  isPolling : p.isPolling = false
  capacity : p.hasCapacity options = true
  isNotifying : p.queue.isNotifying = false

/-- What is visible to an idle poller is announced by a wake-up that is due. -/
def IsAnnounced (parameters : Parameters) (options : QueuePollerParameters) (p : QueuePoller) :
    Prop :=
  IsIdle options p → p.queue.HasVisible parameters → p.queue.IsDue

/-- Another consumer that receives in place of a wake-up takes all that is visible. -/
def SparesWakeUp (parameters : Parameters) (options : QueuePollerParameters) (p : QueuePoller) :
    PollerEvent → Prop
  | .receiveMessages max => IsIdle options p → p.queue.IsDue →
    (p.queue.receiveMessages parameters (max + 1)).2.length ≤ max
  | _ => True

theorem isIdle_of_same (h : IsIdle options after) (hstarted : after.isStarted = p.isStarted)
    (hstopped : after.isStopped = p.isStopped) (hpolling : after.isPolling = p.isPolling)
    (hactive : p.activeBatches.length ≤ after.activeBatches.length)
    (hnotifying : p.queue.isNotifying = true → after.queue.isNotifying = true) :
    IsIdle options p where
  isStarted := hstarted.symm.trans h.isStarted
  isStopped := hstopped.symm.trans h.isStopped
  isPolling := hpolling.symm.trans h.isPolling
  capacity := by
    have hcapacity := h.capacity
    unfold QueuePoller.hasCapacity at hcapacity ⊢
    cases hset : options.concurrency with
    | none => rfl
    | some concurrency =>
      rw [hset] at hcapacity
      dsimp only at hcapacity ⊢
      rw [Bool.or_eq_true, decide_eq_true_eq] at hcapacity ⊢
      exact hcapacity.imp_right fun hlt => Nat.lt_of_le_of_lt hactive hlt
  isNotifying := by
    by_contra hnotifying'
    have htrue := hnotifying (eq_true_of_ne_false hnotifying')
    rw [h.isNotifying] at htrue
    cases htrue

/-- What is kept where the messages stay, while time may pass. -/
theorem isAnnounced_of_same (hscheduled : p.queue.IsScheduled parameters)
    (h : IsAnnounced parameters options p) (hidle : IsIdle options after → IsIdle options p)
    (htimer : after.queue.wakeUpTimer = p.queue.wakeUpTimer)
    (hmessages : after.queue.queue.messages = p.queue.queue.messages)
    (hclock : p.queue.queue.clock ≤ after.queue.queue.clock) :
    IsAnnounced parameters options after := by
  intro hidle' hvisible
  by_cases hbefore : p.queue.HasVisible parameters
  · obtain ⟨due, hset, hdue⟩ := h (hidle hidle') hbefore
    exact ⟨due, htimer.trans hset, le_trans hdue hclock⟩
  · exact isDue_of_hasVisible hscheduled htimer hmessages hclock hbefore hvisible

/-- A turn that ends the loop received fewer messages than it asked for. -/
theorem length_lt_of_takeMessages (hpolling : p.isPolling = true)
    (hroom : p.pendingMessages.length < options.batchSize) {messages : List ReceivedMessage}
    (hends : (p.takeMessages options messages).isPolling = false) :
    messages.length < options.batchSize - p.pendingMessages.length := by
  unfold QueuePoller.takeMessages at hends
  dsimp only at hends
  split at hends
  · rename_i hempty
    rw [List.isEmpty_iff.mp hempty, List.length_nil]
    omega
  · split at hends
    · exact absurd (hpolling.symm.trans hends) (by decide)
    · split at hends
      · rename_i hless
        rw [List.length_append] at hless
        omega
      · exact absurd (hpolling.symm.trans hends) (by decide)

/-- A turn of the loop that ends it has received all that was visible, or has no free place. -/
theorem isAnnounced_pollTurn (hvisibility : 0 < parameters.visibilityTimeout)
    (hbatch : 1 ≤ options.batchSize) (hkept : IsKept options p) (hpolling : p.isPolling = true) :
    IsAnnounced parameters options (p.pollTurn parameters options) := by
  intro hidle hvisible
  exfalso
  unfold QueuePoller.pollTurn at hidle hvisible
  split at hidle
  · rename_i hends
    rw [Bool.or_eq_true, Bool.not_eq_true'] at hends
    rcases hends with hstopped | hfull
    · exact absurd (hstopped.symm.trans hidle.isStopped) (by decide)
    · exact absurd (hfull.symm.trans hidle.capacity) (by decide)
  · rename_i hgoes
    rw [if_neg hgoes] at hvisible
    dsimp only at hidle hvisible
    rw [queue_takeMessages] at hvisible
    have hroom : p.pendingMessages.length < options.batchSize := by
      by_cases hnone : p.pendingMessages = []
      · rw [hnone]
        exact hbatch
      · exact (hkept.room hnone).2
    have hless := length_lt_of_takeMessages (p := { p with
      queue := (p.queue.receiveMessages parameters
        (options.batchSize - p.pendingMessages.length)).1 }) hpolling hroom hidle.isPolling
    exact not_hasVisible_of_length_lt hvisibility hless hvisible

theorem isAnnounced_receiveMessages (hvisibility : 0 < parameters.visibilityTimeout)
    (hannounced : IsAnnounced parameters options p) {max : Nat} (hmax : 1 ≤ max)
    (hspares : SparesWakeUp parameters options p (.receiveMessages max)) :
    IsAnnounced parameters options
      { p with queue := (p.queue.receiveMessages parameters max).1 } := by
  intro hidle hvisible
  have hidle' : IsIdle options p :=
    isIdle_of_same hidle rfl rfl rfl (Nat.le_refl _) fun h => isNotifying_receiveMessages max h
  exfalso
  by_cases hbefore : p.queue.HasVisible parameters
  · exact not_hasVisible_receiveMessages hvisibility (hspares hidle' (hannounced hidle' hbefore))
      hvisible
  · -- the consumer received nothing
    have hnone : (p.queue.receiveMessages parameters max).2 = [] := by
      rw [(queue_receiveMessages max).2, receiveMessages_eq_nil_iff hmax (Nat.le_refl 1)]
      exact not_not.mp hbefore
    refine not_hasVisible_of_length_lt hvisibility ?_ hvisible
    rw [hnone]
    exact hmax

/-- **A step leaves nothing visible to an idle poller without a wake-up.** -/
theorem isAnnounced_step (hvisibility : 0 < parameters.visibilityTimeout)
    (hbatch : 1 ≤ options.batchSize) (hkept : IsKept options p)
    (hscheduled : p.queue.IsScheduled parameters) (hannounced : IsAnnounced parameters options p)
    (hspares : SparesWakeUp parameters options p event)
    (h : Happens parameters options p event after) : IsAnnounced parameters options after := by
  cases h with
  | start => exact fun hidle => absurd hidle.isPolling (by simp [QueuePoller.start])
  | pollTurn hpolling => exact isAnnounced_pollTurn hvisibility hbatch hkept hpolling
  | callListeners =>
    intro hidle
    have hpolling : (p.isStarted && !p.isStopped) = false := hidle.isPolling
    have hstarted : p.isStarted = true := hidle.isStarted
    have hstopped : p.isStopped = false := hidle.isStopped
    rw [hstarted, hstopped] at hpolling
    cases hpolling
  | windowTimer =>
    refine isAnnounced_of_same hscheduled hannounced (fun hidle => ?_) rfl rfl (le_refl _)
    refine isIdle_of_same hidle rfl rfl rfl ?_ id
    change _ ≤ (p.activeBatches ++ [p.dispatched.length]).length
    rw [List.length_append]
    exact Nat.le_add_right _ _
  | settleBatch => exact fun hidle => nomatch hidle.isNotifying
  | stop => exact fun hidle => nomatch hidle.isStopped
  | advance milliseconds =>
    exact isAnnounced_of_same hscheduled hannounced
      (fun hidle => isIdle_of_same hidle rfl rfl rfl (Nat.le_refl _) id) rfl rfl
      (le_add_of_nonneg_right (Nat.cast_nonneg milliseconds))
  | receiveMessages max hmax => exact isAnnounced_receiveMessages hvisibility hannounced hmax hspares
  | onQueue event queue hnoticed =>
    rcases hnoticed.noticed with hnotified | ⟨hnotifying, htimer, hmessages⟩
    · exact fun hidle => absurd (hnotified.symm.trans hidle.isNotifying) (by decide)
    · refine isAnnounced_of_same hscheduled hannounced (fun hidle => ?_) htimer hmessages
        (le_of_eq hnoticed.clock.symm)
      exact isIdle_of_same hidle rfl rfl rfl (Nat.le_refl _) fun h => hnotifying.trans h

/-! ## Runs -/

/-- Nothing more happens to a poller that runs: nobody calls it and no wake-up is due. -/
structure IsQuiet (p : QueuePoller) : Prop where
  isStarted : p.isStarted = true
  isStopped : p.isStopped = false
  isPolling : p.isPolling = false
  isNotifying : p.queue.isNotifying = false
  wakeUp : ¬ p.queue.IsDue

/-- What is left of the queue: no message waits in the poller and none is visible, or the
poller has no free place, or its window timer is armed. -/
def IsSettled (parameters : Parameters) (options : QueuePollerParameters) (p : QueuePoller) : Prop :=
  p.pendingMessages = [] ∧ (p.queue.queue.receiveMessages parameters options.batchSize).2 = [] ∨
    options.concurrency = some p.activeBatches.length ∨ p.windowTimer.isSome = true

instance decidableIsDue (q : NotifyingQueue) : Decidable q.IsDue :=
  decidable_of_iff (isDueAt q.wakeUpTimer q.queue.clock = true) <| by
    unfold isDueAt IsDue
    cases q.wakeUpTimer with
    | none => simp
    | some due => simp

instance decidableIsQuiet (p : QueuePoller) : Decidable (IsQuiet p) :=
  decidable_of_iff (p.isStarted = true ∧ p.isStopped = false ∧ p.isPolling = false ∧
    p.queue.isNotifying = false ∧ ¬ p.queue.IsDue)
    ⟨fun ⟨h1, h2, h3, h4, h5⟩ => ⟨h1, h2, h3, h4, h5⟩,
      fun h => ⟨h.isStarted, h.isStopped, h.isPolling, h.isNotifying, h.wakeUp⟩⟩

instance decidableIsSettled (parameters : Parameters) (options : QueuePollerParameters)
    (p : QueuePoller) : Decidable (IsSettled parameters options p) :=
  inferInstanceAs (Decidable (_ ∨ _))

instance decidableIsIdle (options : QueuePollerParameters) (p : QueuePoller) :
    Decidable (IsIdle options p) :=
  decidable_of_iff (p.isStarted = true ∧ p.isStopped = false ∧ p.isPolling = false ∧
    p.hasCapacity options = true ∧ p.queue.isNotifying = false)
    ⟨fun ⟨h1, h2, h3, h4, h5⟩ => ⟨h1, h2, h3, h4, h5⟩,
      fun h => ⟨h.isStarted, h.isStopped, h.isPolling, h.capacity, h.isNotifying⟩⟩

instance decidableSparesWakeUp (parameters : Parameters) (options : QueuePollerParameters)
    (p : QueuePoller) (event : PollerEvent) :
    Decidable (SparesWakeUp parameters options p event) :=
  match event with
  | .receiveMessages _ => inferInstanceAs (Decidable (_ → _))
  | .start | .pollTurn | .callListeners | .windowTimer | .wakeUp | .settleBatch _ | .stop
  | .sendMessage _ | .deleteMessage _ | .changeVisibility _ _ | .getDeadLetterMessages | .isEmpty
  | .advance _ => .isTrue trivial

theorem isSettled_of_isAnnounced (hbatch : 1 ≤ options.batchSize) (hkept : IsKept options p)
    (hannounced : IsAnnounced parameters options p) (hquiet : IsQuiet p) :
    IsSettled parameters options p := by
  by_cases hcapacity : p.hasCapacity options = true
  · have hnone : ¬ p.queue.HasVisible parameters := by
      intro hvisible
      exact hquiet.wakeUp (hannounced ⟨hquiet.isStarted, hquiet.isStopped, hquiet.isPolling,
        hcapacity, hquiet.isNotifying⟩ hvisible)
    cases htimer : p.windowTimer with
    | some due => exact .inr (.inr (by rw [htimer]; rfl))
    | none =>
      refine .inl ⟨hkept.armed.mp htimer, ?_⟩
      rw [receiveMessages_eq_nil_iff hbatch (Nat.le_refl 1)]
      exact (not_not.mp hnone : (p.queue.queue.receiveMessages parameters 1).2 = [])
  · right
    left
    have hle := hkept.limits.concurrency
    unfold QueuePoller.hasCapacity at hcapacity
    cases hset : options.concurrency with
    | none =>
      rw [hset] at hcapacity
      exact absurd rfl hcapacity
    | some concurrency =>
      rw [hset] at hcapacity
      dsimp only at hcapacity
      rw [Bool.or_eq_true, decide_eq_true_eq, not_or] at hcapacity
      have hsame : concurrency = p.activeBatches.length :=
        Nat.le_antisymm (Nat.not_lt.mp hcapacity.2) (hle concurrency hset)
      rw [hsame]

theorem isKept_init (clock : Rat) : IsKept options (startQueuePoller parameters options clock).init where
  limits := {
    complete := fun _ => rfl
    inOrder := List.nil_prefix
    sizes := fun batch hbatch => by cases hbatch
    unfinished := ⟨List.nodup_nil, fun batch hbatch => by cases hbatch⟩
    concurrency := fun concurrency _ => Nat.zero_le concurrency
    window := ⟨[], List.nil_suffix, rfl, by simp⟩ }
  room hne := absurd rfl hne
  armed := iff_of_true rfl rfl
  due _ hset := nomatch hset
  stopped _ := rfl
  noWindow _ := rfl

theorem isScheduled_init (clock : Rat) :
    (startQueuePoller parameters options clock).init.queue.IsScheduled parameters where
  isSet _ htime := nomatch htime
  expires _ hm := nomatch hm
  appears _ hm := nomatch hm

/-- **The poller delivers each message it received once and keeps to its limits, in every run.
Where other consumers spare the wake-ups, it leaves nothing that it could receive.** -/
theorem startQueuePoller_delivers (parameters : Parameters) (options : QueuePollerParameters)
    (clock : Rat) (hbatch : 1 ≤ options.batchSize) (hconcurrency : options.concurrency ≠ some 0)
    {events : List PollerEvent} {p : QueuePoller}
    (hrun : (startQueuePoller parameters options clock).run events
      (startQueuePoller parameters options clock).init = some p) :
    KeepsLimits options p ∧
      (0 < parameters.visibilityTimeout →
        (startQueuePoller parameters options clock).Meets (SparesWakeUp parameters options) events
          (startQueuePoller parameters options clock).init →
        IsQuiet p → IsSettled parameters options p) := by
  have hsound : IsKept options p ∧ p.queue.IsScheduled parameters := by
    refine Machine.run_invariant (I := fun p => IsKept options p ∧ p.queue.IsScheduled parameters)
      (fun s event t hs ht => ?_) ⟨isKept_init clock, isScheduled_init clock⟩ hrun
    have hhappens := happens_of_step hs.2 ht
    exact ⟨isKept_step hconcurrency hs.1 hhappens, isScheduled_step hs.2 hhappens⟩
  refine ⟨hsound.1.limits, fun hvisibility hmeets hquiet => ?_⟩
  have hannounced : (IsKept options p ∧ p.queue.IsScheduled parameters) ∧
      IsAnnounced parameters options p := by
    refine Machine.run_invariant_of_meets (I := fun p => (IsKept options p ∧
      p.queue.IsScheduled parameters) ∧ IsAnnounced parameters options p)
      (fun s event t hs hok ht => ?_) ⟨⟨isKept_init clock, isScheduled_init clock⟩, ?_⟩ hmeets hrun
    · have hhappens := happens_of_step hs.1.2 ht
      exact ⟨⟨isKept_step hconcurrency hs.1.1 hhappens, isScheduled_step hs.1.2 hhappens⟩,
        isAnnounced_step hvisibility hbatch hs.1.1 hs.1.2 hs.2 hok hhappens⟩
    · exact fun hidle => nomatch hidle.isStarted
  exact isSettled_of_isAnnounced hbatch hsound.1 hannounced.2 hquiet

namespace Sample

def standard : Parameters :=
  { fifoMode := false, visibilityTimeout := 30, retention := 60, delay := 1 }

def windowed : QueuePollerParameters := { batchSize := 10, batchWindow := 2, concurrency := some 1 }

def message : OutgoingMessage := { body := "\"message\"", attributes := { traceId := "trace" } }

abbrev poller : Machine QueuePoller PollerEvent := startQueuePoller standard windowed 0

/-- Two messages become visible, and the time to wake the poller up has come. -/
def becomeVisible : List PollerEvent :=
  [.start, .pollTurn, .sendMessage message, .sendMessage message, .callListeners, .pollTurn,
    .advance 1000]

/-- Another consumer takes both messages, and a third one is sent. -/
def spared : List PollerEvent :=
  becomeVisible ++ [.receiveMessages 2, .sendMessage message, .callListeners, .pollTurn,
    .advance 1000, .wakeUp, .callListeners, .pollTurn, .advance 2000, .windowTimer]

theorem spared_isSome : (poller.run spared poller.init).isSome = true := by decide +kernel

/-- The third message is given to `processBatch` at the end of its window. -/
theorem spared_delivers : ∃ p, poller.run spared poller.init = some p ∧
    KeepsLimits windowed p ∧ IsSettled standard windowed p := by
  obtain ⟨hlimits, hsettled⟩ := startQueuePoller_delivers standard windowed 0 (by decide)
    (by decide) (Option.some_get spared_isSome).symm
  exact ⟨_, (Option.some_get spared_isSome).symm, hlimits,
    hsettled (by decide +kernel) (by decide +kernel) (by decide +kernel)⟩

/-- Another consumer takes one of the messages before the timer fires. -/
def stolen : List PollerEvent := becomeVisible ++ [.receiveMessages 1]

theorem stolen_isSome : (poller.run stolen poller.init).isSome = true := by decide +kernel

/-- The timer is set for the end of the visibility timeout of the message that was taken, and
nobody wakes the poller up for the other one. -/
theorem stolen_unseen : ∃ p, poller.run stolen poller.init = some p ∧
    IsQuiet p ∧ ¬ IsSettled standard windowed p ∧ p.queue.wakeUpTimer = some 31000 :=
  ⟨_, (Option.some_get stolen_isSome).symm, by decide +kernel, by decide +kernel,
    by decide +kernel⟩

end Sample

end Ez4.Local.Queue

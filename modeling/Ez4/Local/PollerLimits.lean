import Ez4.Local.WakeUps

/-! # The limits of the poller

Messages wait in the poller only while it has a free place, so the window
timer can give them to a batch. -/
namespace Ez4.Local.Queue
open Ez4.Library Ez4.Queue.Messages

/-- The poller delivers each message it received once and keeps to its limits. -/
structure KeepsLimits (options : QueuePollerParameters) (p : QueuePoller) : Prop where
  /-- Each received message is in one batch, or waits for one. -/
  complete : p.isStopped = false →
    p.dispatched.flatten ++ p.pendingMessages = p.received.map Prod.fst
  inOrder : p.dispatched.flatten <+: p.received.map Prod.fst
  sizes : ∀ batch ∈ p.dispatched, 1 ≤ batch.length ∧ batch.length ≤ options.batchSize
  /-- The batches that have not settled are some of those given to `processBatch`. -/
  unfinished : p.activeBatches.Nodup ∧ ∀ batch ∈ p.activeBatches, batch < p.dispatched.length
  concurrency : ∀ concurrency, options.concurrency = some concurrency →
    p.activeBatches.length ≤ concurrency
  /-- The timer is armed for each message that waits, and is due by the end of its window. -/
  window : ∃ waiting, waiting <:+ p.received ∧ waiting.map Prod.fst = p.pendingMessages ∧
    ∀ message ∈ waiting, ∃ due, p.windowTimer = some due ∧
      due ≤ message.2 + options.batchWindow * 1000

/-- What every event keeps. -/
structure IsKept (options : QueuePollerParameters) (p : QueuePoller) : Prop where
  limits : KeepsLimits options p
  room : p.pendingMessages ≠ [] →
    p.hasCapacity options = true ∧ p.pendingMessages.length < options.batchSize
  armed : p.windowTimer = none ↔ p.pendingMessages = []
  due : ∀ due, p.windowTimer = some due → due ≤ p.queue.queue.clock + options.batchWindow * 1000
  stopped : p.isStopped = true → p.pendingMessages = []
  noWindow : options.batchWindow = 0 → p.pendingMessages = []

variable {parameters : Parameters} {options : QueuePollerParameters} {p after : QueuePoller}

theorem KeepsLimits.of_same (h : KeepsLimits options p) (hdispatched : after.dispatched = p.dispatched)
    (hpending : after.pendingMessages = p.pendingMessages) (hreceived : after.received = p.received)
    (hstopped : after.isStopped = p.isStopped) (htimer : after.windowTimer = p.windowTimer)
    (hactive : after.activeBatches = p.activeBatches) : KeepsLimits options after where
  complete := by
    rw [hdispatched, hpending, hreceived, hstopped]
    exact h.complete
  inOrder := by
    rw [hdispatched, hreceived]
    exact h.inOrder
  sizes := by
    rw [hdispatched]
    exact h.sizes
  unfinished := by
    rw [hactive, hdispatched]
    exact h.unfinished
  concurrency := by
    rw [hactive]
    exact h.concurrency
  window := by
    rw [hreceived, hpending, htimer]
    exact h.window

/-- What is kept by an event that leaves the messages and the batches alone. -/
theorem IsKept.of_same (h : IsKept options p) (hdispatched : after.dispatched = p.dispatched)
    (hpending : after.pendingMessages = p.pendingMessages) (hreceived : after.received = p.received)
    (hstopped : after.isStopped = p.isStopped) (htimer : after.windowTimer = p.windowTimer)
    (hactive : after.activeBatches = p.activeBatches)
    (hclock : p.queue.queue.clock ≤ after.queue.queue.clock) : IsKept options after where
  limits := h.limits.of_same hdispatched hpending hreceived hstopped htimer hactive
  room := by
    rw [hpending, QueuePoller.hasCapacity, hactive]
    exact h.room
  armed := by
    rw [htimer, hpending]
    exact h.armed
  due due hset := by
    have hdue := h.due due (htimer.symm.trans hset)
    linarith
  stopped := by
    rw [hstopped, hpending]
    exact h.stopped
  noWindow := by
    rw [hpending]
    exact h.noWindow

/-! ## Batches -/

/-- A poller that gives messages to a batch and has no others. -/
structure IsReady (options : QueuePollerParameters) (p : QueuePoller)
    (messages : List ReceivedMessage) : Prop where
  sizes : ∀ batch ∈ p.dispatched, 1 ≤ batch.length ∧ batch.length ≤ options.batchSize
  unfinished : p.activeBatches.Nodup ∧ ∀ batch ∈ p.activeBatches, batch < p.dispatched.length
  complete : p.dispatched.flatten ++ messages = p.received.map Prod.fst
  size : 1 ≤ messages.length ∧ messages.length ≤ options.batchSize
  capacity : p.hasCapacity options = true
  noPending : p.pendingMessages = []
  noTimer : p.windowTimer = none

theorem length_lt_of_hasCapacity (h : p.hasCapacity options = true)
    (hconcurrency : options.concurrency ≠ some 0) {concurrency : Nat}
    (hset : options.concurrency = some concurrency) : p.activeBatches.length < concurrency := by
  rw [QueuePoller.hasCapacity, hset] at h
  dsimp only at h
  rw [Bool.or_eq_true, beq_iff_eq, decide_eq_true_eq] at h
  refine h.resolve_left fun hzero => hconcurrency ?_
  rw [hset, hzero]

theorem isKept_dispatchBatch (hconcurrency : options.concurrency ≠ some 0)
    {messages : List ReceivedMessage} (h : IsReady options p messages) :
    IsKept options (p.dispatchBatch messages) where
  limits := {
    complete := by
      intro _
      change (p.dispatched ++ [messages]).flatten ++ p.pendingMessages = p.received.map Prod.fst
      rw [h.noPending, ← h.complete]
      simp
    inOrder := by
      change (p.dispatched ++ [messages]).flatten <+: p.received.map Prod.fst
      rw [← h.complete]
      simp
    sizes := by
      intro batch hbatch
      rcases List.mem_append.mp hbatch with hbatch | hbatch
      · exact h.sizes batch hbatch
      · rw [List.mem_singleton.mp hbatch]
        exact h.size
    unfinished := by
      obtain ⟨hnodup, hlt⟩ := h.unfinished
      change (p.activeBatches ++ [p.dispatched.length]).Nodup ∧
        ∀ batch ∈ p.activeBatches ++ [p.dispatched.length],
          batch < (p.dispatched ++ [messages]).length
      rw [List.length_append, List.length_singleton]
      refine ⟨?_, fun batch hbatch => ?_⟩
      · refine List.nodup_append.mpr ⟨hnodup, by simp, fun batch hbatch other hother => ?_⟩
        rw [List.mem_singleton.mp hother]
        exact Nat.ne_of_lt (hlt batch hbatch)
      · rcases List.mem_append.mp hbatch with hbatch | hbatch
        · exact Nat.lt_succ_of_lt (hlt batch hbatch)
        · rw [List.mem_singleton.mp hbatch]
          exact Nat.lt_succ_self _
    concurrency := by
      intro concurrency hset
      have hlt := length_lt_of_hasCapacity h.capacity hconcurrency hset
      change (p.activeBatches ++ [p.dispatched.length]).length ≤ concurrency
      rw [List.length_append, List.length_singleton]
      exact hlt
    window := ⟨[], List.nil_suffix, h.noPending.symm, by simp⟩ }
  room hne := absurd h.noPending hne
  armed := iff_of_true h.noTimer h.noPending
  due due hset := by
    have hnone : (none : Option Rat) = some due := h.noTimer.symm.trans hset
    cases hnone
  stopped _ := h.noPending
  noWindow _ := h.noPending

/-! ## Turns of the loop -/

theorem timerDelay_le :
    timerDelay (options.batchWindow * 1000) ≤ options.batchWindow * 1000 := by
  unfold timerDelay
  split
  · rename_i hlong
    have hmax : (1 : Rat) ≤ maxTimerDelay := by decide
    linarith
  · exact le_refl _

/-- The timer that is armed for messages that wait from now on. -/
theorem exists_due (h : IsKept options p) :
    ∃ due, (p.windowTimer <|> some (p.queue.queue.clock +
        timerDelay (options.batchWindow * 1000))) = some due ∧
      due ≤ p.queue.queue.clock + options.batchWindow * 1000 := by
  cases htimer : p.windowTimer with
  | some due => exact ⟨due, rfl, h.due due htimer⟩
  | none =>
    have hdelay := @timerDelay_le options
    exact ⟨_, rfl, by linarith⟩

section
variable {messages : List ReceivedMessage}

theorem map_received (p : QueuePoller) :
    (p.received ++ messages.map fun message => (message, p.queue.queue.clock)).map Prod.fst =
      p.received.map Prod.fst ++ messages := by
  simp [List.map_map, Function.comp_def]

/-- The received messages wait for more. -/
theorem isKept_wait (h : IsKept options p) (hstopped : p.isStopped = false)
    (hcapacity : p.hasCapacity options = true) (hwindow : options.batchWindow ≠ 0)
    (hless : (p.pendingMessages ++ messages).length < options.batchSize)
    (hsome : messages ≠ []) :
    IsKept options { p with
      received := p.received ++ messages.map fun message => (message, p.queue.queue.clock)
      pendingMessages := p.pendingMessages ++ messages
      isPolling := false
      windowTimer := p.windowTimer <|> some (p.queue.queue.clock +
        timerDelay (options.batchWindow * 1000)) } := by
  obtain ⟨due, hset, hdue⟩ := exists_due h
  have hwaits : p.pendingMessages ++ messages ≠ [] :=
    fun hnil => hsome (List.append_eq_nil_iff.mp hnil).2
  refine ⟨⟨fun _ => ?_, ?_, h.limits.sizes, h.limits.unfinished, h.limits.concurrency, ?_⟩,
    fun _ => ⟨hcapacity, hless⟩, ?_, fun due' hset' => ?_, fun h => ?_, fun h => absurd h hwindow⟩
  · dsimp only
    rw [map_received, ← h.limits.complete hstopped, List.append_assoc]
  · dsimp only
    rw [map_received]
    exact h.limits.inOrder.trans (List.prefix_append _ _)
  · obtain ⟨waiting, ⟨before, hsplit⟩, hwaiting, hwaits⟩ := h.limits.window
    refine ⟨waiting ++ messages.map fun message => (message, p.queue.queue.clock), ⟨before, ?_⟩,
      ?_, fun message hmem => ?_⟩
    · rw [← List.append_assoc, hsplit]
    · rw [List.map_append, hwaiting]
      simp [List.map_map, Function.comp_def]
    · rcases List.mem_append.mp hmem with hmem | hmem
      · obtain ⟨due', hset', hdue'⟩ := hwaits message hmem
        exact ⟨due', by simp [hset'], hdue'⟩
      · obtain ⟨m, -, rfl⟩ := List.mem_map.mp hmem
        exact ⟨due, hset, hdue⟩
  · refine iff_of_false (fun hnone => ?_) hwaits
    rw [hset] at hnone
    cases hnone
  · have hsame : due = due' := Option.some.inj (hset.symm.trans hset')
    exact hsame ▸ hdue
  · rw [hstopped] at h
    cases h

/-- A turn of the loop, given what it received. -/
theorem isKept_takeMessages (hconcurrency : options.concurrency ≠ some 0)
    (h : IsKept options p) (hstopped : p.isStopped = false)
    (hcapacity : p.hasCapacity options = true)
    (hsize : p.pendingMessages.length + messages.length ≤ options.batchSize) :
    IsKept options (p.takeMessages options messages) := by
  have hcomplete := h.limits.complete hstopped
  unfold QueuePoller.takeMessages
  dsimp only
  split
  · rename_i hempty
    obtain rfl := List.isEmpty_iff.mp hempty
    exact h.of_same rfl rfl (List.append_nil _) rfl rfl rfl (le_refl _)
  · rename_i hsome
    have hsome : messages ≠ [] := fun hnil => hsome (List.isEmpty_iff.mpr hnil)
    have hone : 1 ≤ messages.length := List.length_pos_of_ne_nil hsome
    split
    · rename_i hwindow
      have hnone := h.noWindow hwindow
      refine isKept_dispatchBatch hconcurrency ⟨h.limits.sizes, h.limits.unfinished, ?_,
        ⟨hone, by omega⟩, hcapacity, hnone, h.armed.mpr hnone⟩
      dsimp only
      rw [map_received, ← hcomplete, hnone, List.append_nil]
    · rename_i hwindow
      split
      · rename_i hless
        exact isKept_wait h hstopped hcapacity hwindow hless hsome
      · refine isKept_dispatchBatch hconcurrency ⟨h.limits.sizes, h.limits.unfinished, ?_,
          ?_, hcapacity, rfl, rfl⟩
        · dsimp only
          rw [map_received, ← hcomplete, List.append_assoc]
        · dsimp only
          rw [List.length_append]
          omega

end

/-- **A turn of the loop keeps to the limits.** -/
theorem isKept_pollTurn (hconcurrency : options.concurrency ≠ some 0) (h : IsKept options p) :
    IsKept options (p.pollTurn parameters options) := by
  unfold QueuePoller.pollTurn
  split
  · exact h.of_same rfl rfl rfl rfl rfl rfl (le_refl _)
  · rename_i hgoes
    rw [Bool.or_eq_true, not_or, Bool.not_eq_true, Bool.not_eq_true, Bool.not_eq_false'] at hgoes
    obtain ⟨hstopped, hcapacity⟩ := hgoes
    dsimp only
    have hqueue := @NotifyingQueue.queue_receiveMessages parameters p.queue
      (options.batchSize - p.pendingMessages.length)
    have hclock := @clock_receiveMessages parameters p.queue.queue
      (options.batchSize - p.pendingMessages.length)
    have hlength := @length_receiveMessages_le parameters p.queue.queue
      (options.batchSize - p.pendingMessages.length)
    refine isKept_takeMessages hconcurrency (h.of_same rfl rfl rfl rfl rfl rfl ?_) hstopped
      hcapacity ?_
    · rw [hqueue.1, hclock]
    · rw [hqueue.2]
      have hroom : p.pendingMessages.length ≤ options.batchSize := by
        by_cases hnone : p.pendingMessages = []
        · simp [hnone]
        · exact Nat.le_of_lt (h.room hnone).2
      dsimp only
      omega

end Ez4.Local.Queue

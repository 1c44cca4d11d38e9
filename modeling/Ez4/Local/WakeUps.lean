import Ez4.Local.Visibility

/-! # The wake-up timer

The timer is due before a message of the queue becomes visible or expires, so
nothing becomes visible without a wake-up that is due. -/
namespace Ez4.Local.Queue
open Ez4.Library Ez4.Queue.Messages LocalQueue

variable {parameters : Parameters} {now : Rat} {q : NotifyingQueue}

/-! ## The next time -/

/-- A time that is there and no later than another. -/
def IsBy (time : Option Rat) (other : Rat) : Prop := ∃ t, time = some t ∧ t ≤ other

theorem isBy_earliest {time : Option Rat} {other at' : Rat} :
    IsBy (earliest time other) at' ↔ IsBy time at' ∨ other ≤ at' := by
  cases time with
  | none => simp [IsBy, earliest]
  | some t => simp [IsBy, earliest]

/-- What one message adds to the next time. -/
def addTimes (parameters : Parameters) (now : Rat) (time : Option Rat) (m : StoredMessage) :
    Option Rat :=
  earliest (if m.visibleAt > now then earliest time m.visibleAt else time)
    (getExpireTime parameters m)

theorem nextTime_eq (messages : List StoredMessage) :
    nextTime parameters messages now = messages.foldl (addTimes parameters now) none := rfl

theorem isBy_addTimes {time : Option Rat} {other : Rat} {m : StoredMessage} (h : IsBy time other) :
    IsBy (addTimes parameters now time m) other := by
  rw [addTimes, isBy_earliest]
  left
  split
  · exact isBy_earliest.mpr (.inl h)
  · exact h

theorem isBy_foldl {time : Option Rat} {other : Rat} (messages : List StoredMessage)
    (h : IsBy time other) : IsBy (messages.foldl (addTimes parameters now) time) other := by
  induction messages generalizing time with
  | nil => exact h
  | cons m rest ih => exact ih (isBy_addTimes h)

/-- The next time is no later than a message expires, or becomes visible. -/
theorem isBy_nextTime {messages : List StoredMessage} {m : StoredMessage} (hm : m ∈ messages) :
    IsBy (nextTime parameters messages now) (getExpireTime parameters m) ∧
      (m.visibleAt > now → IsBy (nextTime parameters messages now) m.visibleAt) := by
  rw [nextTime_eq]
  generalize (none : Option Rat) = time
  induction messages generalizing time with
  | nil => cases hm
  | cons other rest ih =>
    rcases List.mem_cons.mp hm with rfl | hm
    · refine ⟨isBy_foldl rest ?_, fun hvisible => isBy_foldl rest ?_⟩
      · exact isBy_earliest.mpr (.inr (le_refl _))
      · rw [addTimes, if_pos hvisible, isBy_earliest, isBy_earliest]
        exact .inl (.inr (le_refl _))
    · exact ih hm _

/-! ## What the timer is set for -/

namespace NotifyingQueue

/-- The timer is due by a time, or it is due already. -/
def WakesBy (q : NotifyingQueue) (time : Rat) : Prop :=
  ∃ due, q.wakeUpTimer = some due ∧ (due ≤ time ∨ due ≤ q.queue.clock)

/-- The timer wakes the consumers up by the time it was set for. -/
def IsSet (q : NotifyingQueue) : Prop := ∀ time, q.wakeUpTime = some time → q.WakesBy time

/-- The timer wakes the consumers up before a message becomes visible or expires. -/
structure IsScheduled (parameters : Parameters) (q : NotifyingQueue) : Prop where
  isSet : q.IsSet
  expires : ∀ m ∈ q.queue.messages, q.WakesBy (getExpireTime parameters m)
  appears : ∀ m ∈ q.queue.messages, m.visibleAt > q.queue.clock → q.WakesBy m.visibleAt

theorem WakesBy.mono {time other : Rat} (h : q.WakesBy time) (hle : time ≤ other) :
    q.WakesBy other := by
  obtain ⟨due, hdue, h⟩ := h
  exact ⟨due, hdue, h.imp_left fun h => le_trans h hle⟩

/-- What is kept by a change that leaves the timer alone. -/
theorem WakesBy.keep {time : Rat} {after : NotifyingQueue} (h : q.WakesBy time)
    (htimer : after.wakeUpTimer = q.wakeUpTimer) (hclock : q.queue.clock ≤ after.queue.clock) :
    after.WakesBy time := by
  obtain ⟨due, hdue, h⟩ := h
  exact ⟨due, htimer.trans hdue, h.imp_right fun h => le_trans h hclock⟩

theorem IsSet.keep {after : NotifyingQueue} (h : q.IsSet)
    (htimer : after.wakeUpTimer = q.wakeUpTimer) (htime : after.wakeUpTime = q.wakeUpTime)
    (hclock : q.queue.clock ≤ after.queue.clock) : after.IsSet := by
  intro time hset
  exact (h time (htime.symm.trans hset)).keep htimer hclock

theorem IsScheduled.keep {after : NotifyingQueue} (h : q.IsScheduled parameters)
    (htimer : after.wakeUpTimer = q.wakeUpTimer) (htime : after.wakeUpTime = q.wakeUpTime)
    (hclock : q.queue.clock ≤ after.queue.clock)
    (hmessages : after.queue.messages ⊆ q.queue.messages) : after.IsScheduled parameters where
  isSet := h.isSet.keep htimer htime hclock
  expires m hm := (h.expires m (hmessages hm)).keep htimer hclock
  appears m hm hlater :=
    (h.appears m (hmessages hm) (lt_of_le_of_lt hclock hlater)).keep htimer hclock

theorem queue_scheduleWakeUp (q : NotifyingQueue) :
    (q.scheduleWakeUp parameters).queue = q.queue := by
  unfold scheduleWakeUp
  dsimp only
  split <;> rfl

theorem wakeUpTime_scheduleWakeUp (q : NotifyingQueue) : (q.scheduleWakeUp parameters).wakeUpTime =
    nextTime parameters q.queue.messages q.queue.clock := by
  unfold scheduleWakeUp
  dsimp only
  split
  · rename_i hsame
    exact hsame.symm
  · rfl

theorem isSet_scheduleWakeUp (h : q.IsSet) : (q.scheduleWakeUp parameters).IsSet := by
  unfold scheduleWakeUp
  dsimp only
  split
  · exact h
  · intro time htime
    dsimp only at htime
    refine ⟨_, congrArg (Option.map _) htime, ?_⟩
    dsimp only
    have hmin : min (max 0 (time - q.queue.clock)) maxTimerDelay ≤ max 0 (time - q.queue.clock) :=
      min_le_left _ _
    rcases max_choice 0 (time - q.queue.clock) with hmax | hmax
    · right
      linarith
    · left
      linarith

/-- `scheduleWakeUp` sets the timer for what the queue has now. -/
theorem isScheduled_scheduleWakeUp (h : q.IsSet) :
    (q.scheduleWakeUp parameters).IsScheduled parameters := by
  have hset : (q.scheduleWakeUp parameters).IsSet := isSet_scheduleWakeUp h
  have hwakes : ∀ time, IsBy (nextTime parameters q.queue.messages q.queue.clock) time →
      (q.scheduleWakeUp parameters).WakesBy time := by
    rintro time ⟨next, hnext, hle⟩
    exact (hset next ((wakeUpTime_scheduleWakeUp q).trans hnext)).mono hle
  have hqueue : (q.scheduleWakeUp parameters).queue = q.queue := queue_scheduleWakeUp q
  refine ⟨hset, fun m hm => ?_, fun m hm hlater => ?_⟩
  · rw [hqueue] at hm
    exact hwakes _ (isBy_nextTime hm).1
  · rw [hqueue] at hm hlater
    exact hwakes _ ((isBy_nextTime hm).2 hlater)

theorem isNotifying_scheduleWakeUp (q : NotifyingQueue) :
    (q.scheduleWakeUp parameters).isNotifying = q.isNotifying := by
  unfold scheduleWakeUp
  dsimp only
  split <;> rfl

/-- The timer after a change of the queue that sets it. -/
theorem isScheduled_changed {queue : LocalQueue} (h : q.IsSet) (hclock : queue.clock = q.queue.clock)
    (condition : Bool) :
    (({ q with queue }.notifyIf condition).scheduleWakeUp parameters).IsScheduled parameters := by
  refine isScheduled_scheduleWakeUp ?_
  cases condition <;> exact h.keep rfl rfl (le_of_eq hclock.symm)

/-! ## The operations -/

/-- What an operation does that receives nothing: it notifies the listeners, or all that is
waited for stays as it is. -/
structure IsNoticed (parameters : Parameters) (q after : NotifyingQueue) : Prop where
  clock : after.queue.clock = q.queue.clock
  scheduled : after.IsScheduled parameters
  noticed : after.isNotifying = true ∨ after.isNotifying = q.isNotifying ∧
    after.wakeUpTimer = q.wakeUpTimer ∧ after.queue.messages = q.queue.messages

/-- An operation on the queue alone that leaves the messages. -/
theorem isNoticed_of_same {queue : LocalQueue} (h : q.IsScheduled parameters)
    (hclock : queue.clock = q.queue.clock) (hmessages : queue.messages = q.queue.messages) :
    IsNoticed parameters q { q with queue } where
  clock := hclock
  scheduled := by
    refine h.keep rfl rfl (le_of_eq hclock.symm) ?_
    rw [hmessages]
    exact List.Subset.refl _
  noticed := .inr ⟨rfl, rfl, hmessages⟩

/-- An operation that sets the timer and notifies the listeners. -/
theorem isNoticed_of_notify {queue : LocalQueue} (h : q.IsScheduled parameters)
    (hclock : queue.clock = q.queue.clock) :
    IsNoticed parameters q ({ q with queue }.scheduleWakeUp parameters).notify where
  clock := by
    change (({ q with queue } : NotifyingQueue).scheduleWakeUp parameters).queue.clock = _
    rw [queue_scheduleWakeUp]
    exact hclock
  scheduled := (isScheduled_changed h.isSet hclock false).keep rfl rfl (le_refl _)
    (List.Subset.refl _)
  noticed := .inl rfl

theorem messages_sendMessage (queue : LocalQueue) (message : OutgoingMessage) :
    (queue.sendMessage parameters message).clock = queue.clock ∧
      ((queue.sendMessage parameters message).messages = queue.messages ∨
        (queue.sendMessage parameters message).messages.length = queue.messages.length + 1) := by
  unfold LocalQueue.sendMessage
  split
  · exact ⟨rfl, .inr List.length_append⟩
  · dsimp only
    split
    · exact ⟨rfl, .inl rfl⟩
    · exact ⟨rfl, .inr List.length_append⟩

theorem isNoticed_sendMessage (h : q.IsScheduled parameters) (message : OutgoingMessage) :
    IsNoticed parameters q (q.sendMessage parameters message) := by
  obtain ⟨hclock, hmessages⟩ := @messages_sendMessage parameters q.queue message
  unfold NotifyingQueue.sendMessage
  dsimp only
  split
  · rename_i hlength
    refine isNoticed_of_same h hclock (hmessages.resolve_right fun hmore => ?_)
    omega
  · exact isNoticed_of_notify h hclock

theorem clock_deleteMessage (queue : LocalQueue) (receiptHandle : Uuid) :
    (queue.deleteMessage receiptHandle).clock = queue.clock := by
  unfold LocalQueue.deleteMessage
  split <;> rfl

theorem isNoticed_refl (h : q.IsScheduled parameters) : IsNoticed parameters q q :=
  isNoticed_of_same h rfl rfl

theorem isNoticed_deleteMessage (h : q.IsScheduled parameters) (receiptHandle : Uuid) :
    IsNoticed parameters q (q.deleteMessage parameters receiptHandle) := by
  unfold NotifyingQueue.deleteMessage
  split
  · exact isNoticed_of_notify h (clock_deleteMessage _ _)
  · exact isNoticed_refl h

theorem clock_changeVisibility (queue : LocalQueue) (receiptHandle : Uuid) (timeout : Option Rat) :
    (queue.changeVisibility receiptHandle timeout).1.clock = queue.clock := by
  unfold LocalQueue.changeVisibility
  dsimp only
  split
  · rfl
  · split
    · rfl
    · split <;> rfl

theorem isNoticed_changeVisibility (h : q.IsScheduled parameters) (receiptHandle : Uuid)
    (timeout : Option Rat) :
    IsNoticed parameters q (q.changeVisibility parameters receiptHandle timeout) := by
  have hclock := clock_changeVisibility q.queue receiptHandle timeout
  unfold NotifyingQueue.changeVisibility
  split
  · rename_i queue hanswer
    rw [hanswer] at hclock
    exact isNoticed_of_notify h hclock
  · exact isNoticed_refl h

theorem isNoticed_getDeadLetterMessages (h : q.IsScheduled parameters) :
    IsNoticed parameters q { q with queue := q.queue.getDeadLetterMessages } :=
  isNoticed_of_same h rfl rfl

theorem isNoticed_isEmpty (h : q.IsScheduled parameters) :
    IsNoticed parameters q (q.isEmpty parameters) := by
  have hsub : (q.queue.dropExpiredMessages parameters q.queue.clock).messages ⊆ q.queue.messages :=
    fun _ hm => (List.mem_filter.mp hm).1
  unfold NotifyingQueue.isEmpty
  cases hexpired : q.hasExpired parameters with
  | true =>
    exact ⟨rfl, h.keep rfl rfl (le_refl _) hsub, .inl rfl⟩
  | false =>
    refine isNoticed_of_same h rfl ?_
    change q.queue.messages.filter _ = q.queue.messages
    rw [List.filter_eq_self]
    intro m hm
    have hkept := List.any_eq_false.mp hexpired m hm
    simpa using hkept

theorem isNoticed_wakeUp (q : NotifyingQueue) :
    IsNoticed parameters q (q.wakeUp parameters) where
  clock := by
    change (NotifyingQueue.scheduleWakeUp parameters _).queue.clock = _
    rw [queue_scheduleWakeUp]
    rfl
  scheduled := by
    have hset : NotifyingQueue.IsSet { q with
        queue := q.queue.dropExpiredMessages parameters q.queue.clock
        wakeUpTimer := none
        wakeUpTime := none } := by
      intro time htime
      cases htime
    exact (isScheduled_scheduleWakeUp hset).keep rfl rfl (le_refl _) (List.Subset.refl _)
  noticed := .inl rfl

theorem queue_receiveMessages (max : Nat) :
    (q.receiveMessages parameters max).1.queue = (q.queue.receiveMessages parameters max).1 ∧
      (q.receiveMessages parameters max).2 = (q.queue.receiveMessages parameters max).2 := by
  unfold NotifyingQueue.receiveMessages
  dsimp only
  rw [queue_scheduleWakeUp]
  cases (NotifyingQueue.hasExpired parameters q || _) <;> exact ⟨rfl, rfl⟩

theorem isScheduled_receiveMessages (h : q.IsScheduled parameters) (max : Nat) :
    (q.receiveMessages parameters max).1.IsScheduled parameters :=
  isScheduled_changed h.isSet (clock_receiveMessages max) _

theorem isNotifying_receiveMessages (max : Nat) (h : q.isNotifying = true) :
    (q.receiveMessages parameters max).1.isNotifying = true := by
  unfold NotifyingQueue.receiveMessages
  dsimp only
  rw [isNotifying_scheduleWakeUp]
  cases (NotifyingQueue.hasExpired parameters q || _) with
  | true => rfl
  | false => exact h

/-! ## What is visible -/

/-- **Nothing becomes visible before a wake-up is due.** -/
theorem isDue_of_hasVisible {after : NotifyingQueue} (h : q.IsScheduled parameters)
    (htimer : after.wakeUpTimer = q.wakeUpTimer)
    (hmessages : after.queue.messages = q.queue.messages)
    (hclock : q.queue.clock ≤ after.queue.clock) (hnone : ¬ q.HasVisible parameters)
    (hvisible : after.HasVisible parameters) : after.IsDue := by
  by_contra hdue
  have hlater : ∀ time, q.WakesBy time → time > after.queue.clock := by
    rintro time ⟨due, hset, hwakes⟩
    have hnotdue : ¬ due ≤ after.queue.clock := fun hle => hdue ⟨due, htimer.trans hset, hle⟩
    rcases hwakes with hwakes | hwakes
    · exact lt_of_lt_of_le (not_le.mp hnotdue) hwakes
    · exact absurd (le_trans hwakes hclock) hnotdue
  refine hvisible (receiveMessages_later hmessages hclock (fun m hm hinvisible => ?_)
    (fun m hm _ => ?_) (not_not.mp hnone))
  · exact hlater _ (h.appears m hm hinvisible)
  · exact hlater _ (h.expires m hm)

/-- What is visible after a receive. -/
theorem not_hasVisible_receiveMessages {max : Nat} (hvisibility : 0 < parameters.visibilityTimeout)
    (hall : (q.receiveMessages parameters (max + 1)).2.length ≤ max) :
    ¬ (q.receiveMessages parameters max).1.HasVisible parameters := by
  rw [(queue_receiveMessages (max + 1)).2] at hall
  rw [HasVisible, (queue_receiveMessages max).1]
  exact not_not.mpr (receiveMessages_again hvisibility hall)

/-- A receive that gets fewer messages than it may leaves nothing visible. -/
theorem not_hasVisible_of_length_lt {max : Nat} (hvisibility : 0 < parameters.visibilityTimeout)
    (hless : (q.receiveMessages parameters max).2.length < max) :
    ¬ (q.receiveMessages parameters max).1.HasVisible parameters := by
  refine not_hasVisible_receiveMessages hvisibility ?_
  rw [(queue_receiveMessages _).2] at hless ⊢
  exact receiveMessages_larger hless

end NotifyingQueue

end Ez4.Local.Queue

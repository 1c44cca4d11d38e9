import Ez4.Local.PollerRuns

/-! # The listeners of a queue

A queue with its listeners (`subscribe`, `waitForChange` and the microtask of
`notify`), used by any number of consumers. A listener is called in a loop, and
may use the queue itself before the next one is called. -/
namespace Ez4.Local.Queue
open Ez4.Library Ez4.Queue.Messages NotifyingQueue

variable (parameters : Parameters)

/-! ## Listeners -/

structure Listener where
  id : Nat
  /-- `onChange` of `waitForChange`, which removes itself. -/
  once : Bool
  /-- When it was subscribed and last called, which the code does not keep. -/
  subscribedAt : Rat
  calledAt : Option Rat := none
deriving DecidableEq, Repr

/-- The copy of the listeners that is gone through is what is left of the loop. -/
structure ListenedQueue where
  queue : NotifyingQueue
  listeners : List Listener := []
  calls : List Nat := []
deriving DecidableEq, Repr

namespace ListenedQueue

variable (s : ListenedQueue)

def clock : Rat := s.queue.queue.clock

def hasListener (id : Nat) : Bool := s.listeners.any (·.id = id)

def addListener (id : Nat) (once : Bool) : ListenedQueue :=
  { s with listeners := s.listeners ++ [{ id, once, subscribedAt := s.clock }] }

/-- `listeners` is a set. -/
def subscribe (id : Nat) : ListenedQueue :=
  if s.hasListener id then s else s.addListener id false

def unsubscribe (id : Nat) : ListenedQueue :=
  { s with listeners := s.listeners.filter (·.id ≠ id) }

/-- The microtask of `notify`. -/
def startCalls : ListenedQueue :=
  { s with queue := { s.queue with isNotifying := false }, calls := s.listeners.map (·.id) }

def callListener (id : Nat) (calls : List Nat) : ListenedQueue :=
  { s with
    calls
    listeners := s.listeners.filterMap fun listener =>
      if listener.id = id then
        if listener.once then none else some { listener with calledAt := some s.clock }
      else some listener }

def advance (milliseconds : Nat) : ListenedQueue :=
  { s with queue := { s.queue with
      queue := { s.queue.queue with clock := s.queue.queue.clock + milliseconds } } }

end ListenedQueue

inductive ListenerEvent
  | subscribe (id : Nat)
  | waitForChange (id : Nat)
  /-- Or the timer of `waitForChange`. -/
  | unsubscribe (id : Nat)
  | startCalls
  | callListener
  | wakeUp
  | sendMessage (message : OutgoingMessage)
  | receiveMessages (maxMessages : Nat)
  | deleteMessage (receiptHandle : Uuid)
  | changeVisibility (receiptHandle : Uuid) (timeout : Option Rat)
  | getDeadLetterMessages
  | isEmpty
  | advance (milliseconds : Nat)
deriving DecidableEq, Repr

namespace ListenedQueue

variable (s : ListenedQueue)

def step : ListenerEvent → Option ListenedQueue
  | .subscribe id => some (s.subscribe id)
  | .waitForChange id => if s.hasListener id then none else some (s.addListener id true)
  | .unsubscribe id => some (s.unsubscribe id)
  | .startCalls =>
    if s.queue.isNotifying ∧ s.calls = [] then some s.startCalls else none
  | .callListener =>
    match s.calls with
    | id :: calls => some (s.callListener id calls)
    | [] => none
  | .wakeUp =>
    -- no timer fires while the listeners are called
    if s.calls = [] ∧ ∃ due ∈ s.queue.wakeUpTimer, due ≤ s.clock then
      some { s with queue := s.queue.wakeUp parameters }
    else none
  | .sendMessage message => some { s with queue := s.queue.sendMessage parameters message }
  | .receiveMessages maxMessages =>
    some { s with queue := (s.queue.receiveMessages parameters maxMessages).1 }
  | .deleteMessage receiptHandle =>
    some { s with queue := s.queue.deleteMessage parameters receiptHandle }
  | .changeVisibility receiptHandle timeout =>
    some { s with queue := s.queue.changeVisibility parameters receiptHandle timeout }
  | .getDeadLetterMessages =>
    some { s with queue := { s.queue with queue := s.queue.queue.getDeadLetterMessages } }
  | .isEmpty => some { s with queue := s.queue.isEmpty parameters }
  | .advance milliseconds => some (s.advance milliseconds)

end ListenedQueue

/-- A queue of `createLocalQueue` that is not shut down. -/
def listenedQueue (clock : Rat) : Machine ListenedQueue ListenerEvent where
  init := { queue := { queue := { clock } } }
  step s event := s.step parameters event

/-! ## What is announced -/

variable {parameters} {s after : ListenedQueue} {event : ListenerEvent} {m : StoredMessage}

/-- The listeners subscribed before a message is visible are called at that time or later. -/
def ListenedQueue.IsAnnounced (s : ListenedQueue) (m : StoredMessage) : Prop :=
  ∀ listener ∈ s.listeners, listener.subscribedAt < m.visibleAt →
    listener.id ∈ s.calls ∨ ∃ time, listener.calledAt = some time ∧ m.visibleAt ≤ time

/-- What the queue has to say about its messages, unless a notification is pending or the timer
is due. -/
structure NoWakeUpLost (parameters : Parameters) (s : ListenedQueue) : Prop where
  visible : ∀ m ∈ s.queue.queue.messages, m.visibleAt ≤ s.clock →
    ∀ listener ∈ s.listeners, listener.subscribedAt < m.visibleAt →
      ∃ time, listener.calledAt = some time ∧ m.visibleAt ≤ time
  timer : ∀ m ∈ s.queue.queue.messages, ∃ due, s.queue.wakeUpTimer = some due ∧
    due ≤ getExpireTime parameters m ∧ (m.visibleAt > s.clock → due ≤ m.visibleAt)

/-- The condition on the receives: the visibility timeout is positive, and one that is made while
the timer is due, with no notification pending after it, leaves no visible message that was not
announced. -/
def TakesUnannounced (parameters : Parameters) (s : ListenedQueue) : ListenerEvent → Prop
  | .receiveMessages maxMessages => 0 < parameters.visibilityTimeout ∧
    (s.queue.IsDue → (s.queue.receiveMessages parameters maxMessages).1.isNotifying = false →
      ∀ m ∈ s.queue.queue.messages, m.visibleAt ≤ s.clock →
        m ∈ (s.queue.receiveMessages parameters maxMessages).1.queue.messages → s.IsAnnounced m)
  | _ => True

structure IsListened (parameters : Parameters) (s : ListenedQueue) : Prop where
  scheduled : s.queue.IsScheduled parameters
  announced : s.queue.isNotifying = true ∨ s.queue.IsDue ∨
    ∀ m ∈ s.queue.queue.messages, m.visibleAt ≤ s.clock → s.IsAnnounced m

/-! ## Steps -/

/-- An operation that notifies the listeners, or leaves all that is waited for. -/
theorem IsListened.of_isNoticed (h : IsListened parameters s) {queue : NotifyingQueue}
    (hnoticed : IsNoticed parameters s.queue queue) : IsListened parameters { s with queue } := by
  refine ⟨hnoticed.scheduled, ?_⟩
  rcases hnoticed.noticed with hpending | ⟨hpending, htimer, hmessages⟩
  · exact .inl hpending
  · rcases h.announced with hbefore | ⟨due, hdue, hle⟩ | hall
    · exact .inl (hpending.trans hbefore)
    · exact .inr (.inl ⟨due, htimer.trans hdue, by rw [hnoticed.clock]; exact hle⟩)
    · refine .inr (.inr fun m hm hvisible => hall m (hmessages ▸ hm) ?_)
      have hclock : ListenedQueue.clock { s with queue } = s.clock := hnoticed.clock
      exact hclock ▸ hvisible

/-- A message that is left by a receive is as it was, or hidden for the visibility timeout. -/
theorem mem_of_mem_visitAll {now : Rat} {max : Nat} {messages : List StoredMessage}
    {r : LocalQueue.Receiving}
    (h : m ∈ (visitAll parameters now max messages r).queue.messages) :
    m ∈ r.queue.messages ∨ m ∈ messages ∨ m.visibleAt = now + parameters.visibilityTimeout * 1000 := by
  induction messages generalizing r with
  | nil => exact .inl h
  | cons other rest ih =>
    have hrest := ih (r := r.visit parameters now max other) h
    have hturn := turn_visit parameters now max other r
    rcases hrest with hdone | hrest | hhidden
    · have hfirst : m ∈ r.queue.messages ∨ m = other ∨
          m.visibleAt = now + parameters.visibilityTimeout * 1000 := by
        generalize r.visit parameters now max other = t at hturn hdone
        cases hturn with
        | full | blocked | invisible =>
          exact (List.mem_append.mp hdone).imp_right fun h => .inl (List.mem_singleton.mp h)
        | moved => exact .inl hdone
        | delivered =>
          refine (List.mem_append.mp hdone).imp_right fun h => .inr ?_
          rw [List.mem_singleton.mp h]
          rfl
      rcases hfirst with hdone | rfl | hhidden
      · exact .inl hdone
      · exact .inr (.inl List.mem_cons_self)
      · exact .inr (.inr hhidden)
    · exact .inr (.inl (List.mem_cons_of_mem _ hrest))
    · exact .inr (.inr hhidden)

theorem mem_of_mem_receiveMessages {q : LocalQueue} {max : Nat}
    (h : m ∈ (q.receiveMessages parameters max).1.messages) :
    m ∈ q.messages ∨ m.visibleAt = q.clock + parameters.visibilityTimeout * 1000 := by
  rcases mem_of_mem_visitAll h with hnone | hmem | hhidden
  · cases hnone
  · exact .inl (List.mem_filter.mp hmem).1
  · exact .inr hhidden

/-- **A receive that meets the condition leaves every visible message announced.** -/
theorem isListened_receiveMessages (h : IsListened parameters s) {max : Nat}
    (hok : TakesUnannounced parameters s (.receiveMessages max)) :
    IsListened parameters { s with queue := (s.queue.receiveMessages parameters max).1 } := by
  obtain ⟨hvisibility, htakes⟩ := hok
  refine ⟨isScheduled_receiveMessages h.scheduled max, ?_⟩
  cases hpending : (s.queue.receiveMessages parameters max).1.isNotifying with
  | true => exact .inl rfl
  | false =>
    refine .inr (.inr fun m hm hvisible => ?_)
    have hclock : (s.queue.receiveMessages parameters max).1.queue.clock = s.clock := by
      rw [(queue_receiveMessages max).1]
      exact clock_receiveMessages max
    have hvisible : m.visibleAt ≤ s.clock := hclock ▸ hvisible
    have hbefore : m ∈ s.queue.queue.messages := by
      have hleft : m ∈ (s.queue.queue.receiveMessages parameters max).1.messages :=
        (queue_receiveMessages max).1 ▸ hm
      refine (mem_of_mem_receiveMessages hleft).resolve_right fun hhidden => ?_
      have hclock : s.clock = s.queue.queue.clock := rfl
      linarith
    rcases h.announced with hnotifying | hdue | hall
    · rw [isNotifying_receiveMessages max hnotifying] at hpending
      cases hpending
    · exact htakes hdue hpending m hbefore hvisible hm
    · exact hall m hbefore hvisible

/-- Time that passes shows a message only when the timer is due. -/
theorem isListened_advance (h : IsListened parameters s) (milliseconds : Nat) :
    IsListened parameters (s.advance milliseconds) := by
  have hlater : s.clock ≤ (s.advance milliseconds).clock :=
    le_add_of_nonneg_right (Nat.cast_nonneg _)
  refine ⟨h.scheduled.keep rfl rfl hlater (List.Subset.refl _), ?_⟩
  rcases h.announced with hpending | ⟨due, hdue, hle⟩ | hall
  · exact .inl hpending
  · exact .inr (.inl ⟨due, hdue, le_trans hle hlater⟩)
  · by_cases hdue : (s.advance milliseconds).queue.IsDue
    · exact .inr (.inl hdue)
    · refine .inr (.inr fun m hm hvisible => hall m hm (not_lt.mp fun hhidden => hdue ?_))
      obtain ⟨due, hset, hwakes⟩ := h.scheduled.appears m hm hhidden
      refine ⟨due, hset, ?_⟩
      exact hwakes.elim (fun hle => le_trans hle hvisible) fun hle => le_trans hle hlater

/-- A change of the listeners that keeps what was announced. -/
theorem IsListened.of_listeners (h : IsListened parameters s) {listeners : List Listener}
    {calls : List Nat}
    (hkeeps : ∀ m ∈ s.queue.queue.messages, m.visibleAt ≤ s.clock → s.IsAnnounced m →
      ListenedQueue.IsAnnounced { s with listeners, calls } m) :
    IsListened parameters { s with listeners, calls } :=
  ⟨h.scheduled, h.announced.imp_right (Or.imp_right fun hall m hm hvisible =>
    hkeeps m hm hvisible (hall m hm hvisible))⟩

theorem isListened_addListener (h : IsListened parameters s) (id : Nat) (once : Bool) :
    IsListened parameters (s.addListener id once) := by
  refine h.of_listeners fun m _ hvisible hannounced listener hlistener hbefore => ?_
  rcases List.mem_append.mp hlistener with hlistener | hlistener
  · exact hannounced listener hlistener hbefore
  · rw [List.mem_singleton.mp hlistener] at hbefore
    exact absurd hvisible (not_le.mpr hbefore)

theorem isListened_unsubscribe (h : IsListened parameters s) (id : Nat) :
    IsListened parameters (s.unsubscribe id) :=
  h.of_listeners fun _ _ _ hannounced listener hlistener =>
    hannounced listener (List.mem_filter.mp hlistener).1

/-- All the listeners are to be called. -/
theorem isListened_startCalls (h : IsListened parameters s) : IsListened parameters s.startCalls :=
  ⟨h.scheduled.keep rfl rfl (le_refl _) (List.Subset.refl _), .inr (.inr fun _ _ _ listener hlistener _ =>
    .inl (List.mem_map.mpr ⟨listener, hlistener, rfl⟩))⟩

theorem isListened_callListener (h : IsListened parameters s) {id : Nat} {calls : List Nat}
    (hcalls : s.calls = id :: calls) : IsListened parameters (s.callListener id calls) := by
  refine h.of_listeners fun m _ hvisible hannounced listener hlistener hbefore => ?_
  obtain ⟨old, hold, hnew⟩ := List.mem_filterMap.mp hlistener
  split at hnew
  · split at hnew
    · cases hnew
    · obtain rfl := Option.some.inj hnew
      exact .inr ⟨s.clock, rfl, hvisible⟩
  · rename_i hother
    obtain rfl := Option.some.inj hnew
    refine (hannounced old hold hbefore).imp_left fun hmem => ?_
    rw [hcalls] at hmem
    exact (List.mem_cons.mp hmem).resolve_left hother

/-- A step that meets the condition. -/
theorem isListened_step (h : IsListened parameters s) (hok : TakesUnannounced parameters s event)
    (hstep : s.step parameters event = some after) : IsListened parameters after := by
  cases event with
  | subscribe id =>
    obtain rfl := Option.some.inj hstep
    unfold ListenedQueue.subscribe
    split
    · exact h
    · exact isListened_addListener h id false
  | waitForChange id =>
    obtain ⟨-, hstep⟩ := Option.ite_none_left_eq_some.mp hstep
    exact Option.some.inj hstep ▸ isListened_addListener h id true
  | unsubscribe id => exact Option.some.inj hstep ▸ isListened_unsubscribe h id
  | startCalls =>
    obtain ⟨-, hstep⟩ := Option.ite_none_right_eq_some.mp hstep
    exact Option.some.inj hstep ▸ isListened_startCalls h
  | callListener =>
    dsimp only [ListenedQueue.step] at hstep
    split at hstep
    · rename_i hcalls
      exact Option.some.inj hstep ▸ isListened_callListener h hcalls
    · cases hstep
  | wakeUp =>
    obtain ⟨-, hstep⟩ := Option.ite_none_right_eq_some.mp hstep
    exact Option.some.inj hstep ▸ h.of_isNoticed (isNoticed_wakeUp _)
  | sendMessage message =>
    exact Option.some.inj hstep ▸ h.of_isNoticed (isNoticed_sendMessage h.scheduled message)
  | receiveMessages max => exact Option.some.inj hstep ▸ isListened_receiveMessages h hok
  | deleteMessage receiptHandle =>
    exact Option.some.inj hstep ▸ h.of_isNoticed (isNoticed_deleteMessage h.scheduled receiptHandle)
  | changeVisibility receiptHandle timeout =>
    exact Option.some.inj hstep ▸
      h.of_isNoticed (isNoticed_changeVisibility h.scheduled receiptHandle timeout)
  | getDeadLetterMessages =>
    exact Option.some.inj hstep ▸ h.of_isNoticed (isNoticed_getDeadLetterMessages h.scheduled)
  | isEmpty => exact Option.some.inj hstep ▸ h.of_isNoticed (isNoticed_isEmpty h.scheduled)
  | advance milliseconds => exact Option.some.inj hstep ▸ isListened_advance h milliseconds

theorem isListened_init (clock : Rat) : IsListened parameters (listenedQueue parameters clock).init where
  scheduled := by
    refine ⟨fun time htime => ?_, fun m hm => ?_, fun m hm => ?_⟩
    · cases htime
    · cases hm
    · cases hm
  announced := .inr (.inr fun m hm => by cases hm)

instance decidableIsAnnounced (s : ListenedQueue) (m : StoredMessage) : Decidable (s.IsAnnounced m) :=
  have : ∀ listener : Listener, Decidable (∃ time, listener.calledAt = some time ∧
      m.visibleAt ≤ time) :=
    fun listener => inferInstanceAs (Decidable (∃ time ∈ listener.calledAt, m.visibleAt ≤ time))
  inferInstanceAs (Decidable (∀ listener ∈ s.listeners, _ → _))

instance decidableTakesUnannounced (parameters : Parameters) (s : ListenedQueue) :
    ∀ event, Decidable (TakesUnannounced parameters s event)
  | .receiveMessages _ => inferInstanceAs (Decidable (_ ∧ (_ → _ → _)))
  | .subscribe _ | .waitForChange _ | .unsubscribe _ | .startCalls | .callListener | .wakeUp
  | .sendMessage _ | .deleteMessage _ | .changeVisibility _ _ | .getDeadLetterMessages | .isEmpty
  | .advance _ => .isTrue trivial

namespace Sample

abbrev listened : Machine ListenedQueue ListenerEvent := listenedQueue standard 0

/-- Two messages with a delay, and the time they become visible at. -/
def delayed : List ListenerEvent :=
  [.subscribe 0, .sendMessage message, .sendMessage message, .startCalls, .callListener,
    .advance 1000]

/-- Another consumer takes both, and one more is announced by the timer. -/
def announced : List ListenerEvent :=
  delayed ++ [.receiveMessages 2, .sendMessage message, .startCalls, .callListener, .advance 1000,
    .wakeUp, .startCalls, .callListener]

theorem announced_isSome : (listened.run announced listened.init).isSome = true := by decide +kernel

/-- Another consumer takes one of them before the timer fires. -/
def unannounced : List ListenerEvent := delayed ++ [.receiveMessages 1]

theorem unannounced_isSome : (listened.run unannounced listened.init).isSome = true := by
  decide +kernel

end Sample

end Ez4.Local.Queue

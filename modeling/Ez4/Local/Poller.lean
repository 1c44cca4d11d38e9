import Ez4.Local.Queue

/-! # The queue poller

`startQueuePoller` (`poller.ts`), over a queue with its notifications and its
wake-up timer (`notify`, `subscribe` and `scheduleWakeUp` of `queue.ts`). Other
consumers, senders and whoever deletes messages use the queue meanwhile. A timer
fires at any time from the one it is due at, in no order. -/
namespace Ez4.Local.Queue
open Ez4.Library Ez4.Queue.Messages

variable (parameters : Parameters)

/-! ## Notifications and the wake-up timer -/

def maxTimerDelay : Rat := 2147483647

/-- A queue that calls its listeners. The time of a timer is that it is due at, and no
`wakeUpTime` is `Infinity`. -/
structure NotifyingQueue where
  queue : LocalQueue
  wakeUpTimer : Option Rat := none
  wakeUpTime : Option Rat := none
  isNotifying : Bool := false
deriving DecidableEq, Repr

/-- `Math.min`, of a time that may be `Infinity`. -/
def earliest (time : Option Rat) (other : Rat) : Option Rat :=
  match time with
  | some time => some (min time other)
  | none => some other

/-- The next time a message becomes visible or expires. -/
def nextTime (messages : List StoredMessage) (now : Rat) : Option Rat :=
  messages.foldl (fun time message =>
    let time := if message.visibleAt > now then earliest time message.visibleAt else time
    earliest time (getExpireTime parameters message)) none

namespace NotifyingQueue

variable (q : NotifyingQueue)

def notify : NotifyingQueue := { q with isNotifying := true }

def notifyIf (condition : Bool) : NotifyingQueue := if condition then q.notify else q

def scheduleWakeUp : NotifyingQueue :=
  let now := q.queue.clock
  let nextTime := nextTime parameters q.queue.messages now
  if nextTime = q.wakeUpTime then q
  else
    { q with
      wakeUpTime := nextTime
      wakeUpTimer := nextTime.map fun time => now + min (max 0 (time - now)) maxTimerDelay }

/-- Some message has come to the end of its retention. -/
def hasExpired : Bool :=
  q.queue.messages.any fun message => getExpireTime parameters message ≤ q.queue.clock

/-- A message that is dropped or moved to the dead-letter queue notifies the listeners. -/
def receiveMessages (maxMessages : Nat) : NotifyingQueue × List ReceivedMessage :=
  let (queue, receivedMessages) := q.queue.receiveMessages parameters maxMessages
  let isMoved := decide (queue.deadLetters.length ≠ q.queue.deadLetters.length)
  (({ q with queue }.notifyIf (q.hasExpired parameters || isMoved)).scheduleWakeUp parameters,
    receivedMessages)

/-- A duplicate changes nothing that is waited for. -/
def sendMessage (message : OutgoingMessage) : NotifyingQueue :=
  let queue := q.queue.sendMessage parameters message
  if queue.messages.length = q.queue.messages.length then { q with queue }
  else ({ q with queue }.scheduleWakeUp parameters).notify

def deleteMessage (receiptHandle : Uuid) : NotifyingQueue :=
  if q.queue.messages.any (LocalQueue.hasReceipt receiptHandle) then
    ({ q with queue := q.queue.deleteMessage receiptHandle }.scheduleWakeUp parameters).notify
  else q

def changeVisibility (receiptHandle : Uuid) (timeout : Option Rat) : NotifyingQueue :=
  match q.queue.changeVisibility receiptHandle timeout with
  | (queue, .changed) => ({ q with queue }.scheduleWakeUp parameters).notify
  | (_, _) => q

def isEmpty : NotifyingQueue :=
  { q with queue := (q.queue.isEmpty parameters).1 }.notifyIf (q.hasExpired parameters)

/-- What the timer of `scheduleWakeUp` does. -/
def wakeUp : NotifyingQueue :=
  ({ q with
      queue := q.queue.dropExpiredMessages parameters q.queue.clock
      wakeUpTimer := none
      wakeUpTime := none }.scheduleWakeUp parameters).notify

/-- The wake-up timer is to fire. -/
def IsDue : Prop := ∃ due, q.wakeUpTimer = some due ∧ due ≤ q.queue.clock

/-- `receiveMessages` would return a message. -/
def HasVisible : Prop := (q.queue.receiveMessages parameters 1).2 ≠ []

end NotifyingQueue

/-! ## The poller -/

structure QueuePollerParameters where
  batchSize : Nat
  batchWindow : Rat
  concurrency : Option Nat
deriving DecidableEq, Repr

/-- The poller with its queue. The code keeps neither the messages it received, with the
time, nor the batches it gave to `processBatch`: they are for statements only. -/
structure QueuePoller where
  queue : NotifyingQueue
  isStarted : Bool := false
  isStopped : Bool := false
  /-- Within the loop of `pollQueue`. -/
  isPolling : Bool := false
  activeBatches : List Nat := []
  pendingMessages : List ReceivedMessage := []
  windowTimer : Option Rat := none
  received : List (ReceivedMessage × Rat) := []
  dispatched : List (List ReceivedMessage) := []
deriving DecidableEq, Repr

/-- The time `setTimeout` waits: a delay that is too long for it is one millisecond. -/
def timerDelay (delay : Rat) : Rat := if delay > maxTimerDelay then 1 else delay

namespace QueuePoller

variable (options : QueuePollerParameters) (p : QueuePoller)

def hasCapacity : Bool :=
  match options.concurrency with
  | none => true
  | some concurrency => concurrency == 0 || decide (p.activeBatches.length < concurrency)

def dispatchBatch (messages : List ReceivedMessage) : QueuePoller :=
  { p with
    activeBatches := p.activeBatches ++ [p.dispatched.length]
    dispatched := p.dispatched ++ [messages] }

def dispatchPending : QueuePoller :=
  { p with windowTimer := none, pendingMessages := [] }.dispatchBatch p.pendingMessages

/-- What a turn of the loop does with the messages it received. -/
def takeMessages (messages : List ReceivedMessage) : QueuePoller :=
  let now := p.queue.queue.clock
  let p := { p with received := p.received ++ messages.map fun message => (message, now) }
  if messages.isEmpty then { p with isPolling := false }
  else if options.batchWindow = 0 then p.dispatchBatch messages
  else
    let p := { p with pendingMessages := p.pendingMessages ++ messages }
    if p.pendingMessages.length < options.batchSize then
      { p with
        isPolling := false
        windowTimer := p.windowTimer <|> some (now + timerDelay (options.batchWindow * 1000)) }
    else p.dispatchPending

/-- A turn of the loop of `pollQueue`. -/
def pollTurn : QueuePoller :=
  if p.isStopped || !p.hasCapacity options then { p with isPolling := false }
  else
    let (queue, messages) :=
      p.queue.receiveMessages parameters (options.batchSize - p.pendingMessages.length)
    { p with queue }.takeMessages options messages

def start : QueuePoller := { p with isStarted := true, isPolling := true }

def stop : QueuePoller := { p with isStopped := true, windowTimer := none, pendingMessages := [] }

/-- The listeners are called. -/
def callListeners : QueuePoller :=
  { p with
    queue := { p.queue with isNotifying := false }
    isPolling := p.isStarted && !p.isStopped }

/-- `processBatch` settled. -/
def settleBatch (batch : Nat) : QueuePoller :=
  { p with activeBatches := p.activeBatches.erase batch, queue := p.queue.notify }

def advance (milliseconds : Nat) : QueuePoller :=
  { p with queue := { p.queue with
      queue := { p.queue.queue with clock := p.queue.queue.clock + milliseconds } } }

end QueuePoller

inductive PollerEvent
  | start
  | pollTurn
  /-- The microtask of `notify`. -/
  | callListeners
  | windowTimer
  | wakeUp
  /-- A batch finishes or fails. -/
  | settleBatch (batch : Nat)
  | stop
  | sendMessage (message : OutgoingMessage)
  /-- Another consumer receives. -/
  | receiveMessages (maxMessages : Nat)
  | deleteMessage (receiptHandle : Uuid)
  | changeVisibility (receiptHandle : Uuid) (timeout : Option Rat)
  | getDeadLetterMessages
  | isEmpty
  | advance (milliseconds : Nat)
deriving DecidableEq, Repr

/-- A timer that is due fires. -/
def isDueAt (timer : Option Rat) (now : Rat) : Bool :=
  match timer with
  | some due => decide (due ≤ now)
  | none => false

namespace QueuePoller

variable (options : QueuePollerParameters) (p : QueuePoller)

/-- What happens between two runs of the loop. -/
def happen : PollerEvent → Option QueuePoller
  | .start => if p.isStarted then none else some p.start
  | .pollTurn | .advance _ => none
  | .callListeners => if p.queue.isNotifying then some p.callListeners else none
  | .windowTimer =>
    if isDueAt p.windowTimer p.queue.queue.clock then some p.dispatchPending else none
  | .wakeUp =>
    if isDueAt p.queue.wakeUpTimer p.queue.queue.clock then
      some { p with queue := p.queue.wakeUp parameters }
    else none
  | .settleBatch batch =>
    if p.activeBatches.contains batch then some (p.settleBatch batch) else none
  | .stop => if p.isStarted then some p.stop else none
  | .sendMessage message => some { p with queue := p.queue.sendMessage parameters message }
  | .receiveMessages maxMessages =>
    if maxMessages = 0 then none
    else some { p with queue := (p.queue.receiveMessages parameters maxMessages).1 }
  | .deleteMessage receiptHandle =>
    some { p with queue := p.queue.deleteMessage parameters receiptHandle }
  | .changeVisibility receiptHandle timeout =>
    some { p with queue := p.queue.changeVisibility parameters receiptHandle timeout }
  | .getDeadLetterMessages =>
    some { p with queue := { p.queue with queue := p.queue.queue.getDeadLetterMessages } }
  | .isEmpty => some { p with queue := p.queue.isEmpty parameters }

/-- Nothing else happens within the loop, but time may pass. -/
def step : PollerEvent → Option QueuePoller
  | .advance milliseconds => some (p.advance milliseconds)
  | .pollTurn => if p.isPolling then some (p.pollTurn parameters options) else none
  | event => if p.isPolling then none else p.happen parameters event

end QueuePoller

/-- A queue of `createLocalQueue` with a poller that `startQueuePoller` starts at any time. -/
def startQueuePoller (options : QueuePollerParameters) (clock : Rat) :
    Machine QueuePoller PollerEvent where
  init := { queue := { queue := { clock } } }
  step p event := p.step parameters options event

end Ez4.Local.Queue

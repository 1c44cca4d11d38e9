import Ez4.Queue.Messages
import Ez4.Library.Machine

/-! # The local queue

`createLocalQueue` (`queue.ts`): its list of messages, its dead-letter queue
and its deduplications, with the operations that edit them. Listeners and the
waiting of consumers are left out: they call these operations. Times are those
of `Date.now()`, in milliseconds. -/
namespace Ez4.Local.Queue
open Ez4.Library Ez4.Queue.Messages

structure DeadLetterOptions where
  maxAttempts : Nat
  retention : Rat
deriving DecidableEq, Repr

/-- `LocalQueueParameters` -/
structure Parameters where
  fifoMode : Bool
  visibilityTimeout : Rat
  retention : Rat
  delay : Rat
  deadLetter : Option DeadLetterOptions := none
deriving DecidableEq, Repr

structure MessageAttributes where
  traceId : String
  scope : Option String := none
  defers : Option Nat := none
  deferUntil : Option Rat := none
deriving DecidableEq, Repr

structure OutgoingMessage where
  body : String
  attributes : MessageAttributes
  groupId : Option String := none
  deduplicationId : Option String := none
  delay : Option Rat := none
deriving DecidableEq, Repr

structure ReceivedMessage where
  messageId : Uuid
  receiptHandle : Uuid
  receiveCount : Nat
  attributes : MessageAttributes
  groupId : Option String
  body : String
deriving DecidableEq, Repr

structure StoredMessage where
  messageId : Uuid
  body : String
  attributes : MessageAttributes
  groupId : Option String
  deduplicationId : Option String
  sentAt : Rat
  visibleAt : Rat
  receiveCount : Nat
  receivedAt : Option Rat := none
  receiptHandle : Option Uuid := none
deriving DecidableEq, Repr

structure StoredDeadLetter where
  messageId : Uuid
  receiveCount : Nat
  body : String
  expireTime : Rat
deriving DecidableEq, Repr

/-- `JSON.stringify([message.groupId, message.deduplicationId])`, where no group is a null. -/
abbrev DeduplicationKey := Option String × String

def deduplicationInterval : Rat := 300000

def maxVisibilityTimeout : Rat := 43200

/-- What happened to a message. The queue keeps no such list: it is for
statements only. -/
inductive Entry
  | sent (message : StoredMessage)
  | received (messageId receiptHandle : Uuid) (now visibleAt : Rat)
  | visibilityChanged (messageId : Uuid) (visibleAt : Rat)
  | deleted (messageId receiptHandle : Uuid)
  | dropped (messageId : Uuid) (now : Rat)
  | deadLettered (messageId : Uuid)
  | letterExpired (messageId : Uuid)
deriving DecidableEq, Repr

structure LocalQueue where
  /-- `Date.now()` -/
  clock : Rat
  messages : List StoredMessage := []
  deadLetters : List StoredDeadLetter := []
  deduplications : List (DeduplicationKey × Rat) := []
  /-- What `getRandomUUID` gives next. -/
  nextUuid : Uuid := 0
  history : List Entry := []
deriving DecidableEq, Repr

variable (parameters : Parameters)

def getExpireTime (message : StoredMessage) : Rat := message.sentAt + parameters.retention * 60000

def isInFlight (message : StoredMessage) (now : Rat) : Bool :=
  message.receiptHandle.isSome && message.visibleAt > now

namespace LocalQueue

variable (q : LocalQueue)

def dropExpiredMessages (now : Rat) : LocalQueue :=
  let expiredMessages := q.messages.filter fun message => getExpireTime parameters message ≤ now
  { q with
    messages := q.messages.filter fun message => ¬ getExpireTime parameters message ≤ now
    history := q.history ++ expiredMessages.map fun message => .dropped message.messageId now }

/-- What `moveToDeadLetter` adds to the dead-letter queue. -/
def deadLetter (message : StoredMessage) (now retention : Rat) : StoredDeadLetter :=
  let retentionStart := if parameters.fifoMode then now else message.sentAt
  { messageId := message.messageId
    receiveCount := message.receiveCount
    body := message.body
    expireTime := retentionStart + retention * 60000 }

/-! ## Sending -/

def deduplicationKey (message : OutgoingMessage) : Option DeduplicationKey :=
  if parameters.fifoMode then message.deduplicationId.map fun id => (message.groupId, id) else none

/-- What `sendMessage` adds to the messages. -/
def storedMessage (message : OutgoingMessage) : StoredMessage :=
  { messageId := q.nextUuid
    body := message.body
    attributes := message.attributes
    groupId := message.groupId
    deduplicationId := message.deduplicationId
    visibleAt := q.clock + message.delay.getD parameters.delay * 1000
    receiveCount := 0
    sentAt := q.clock }

def pushMessage (message : OutgoingMessage) : LocalQueue :=
  { q with
    messages := q.messages ++ [q.storedMessage parameters message]
    nextUuid := q.nextUuid + 1
    history := q.history ++ [.sent (q.storedMessage parameters message)] }

def sendMessage (message : OutgoingMessage) : LocalQueue :=
  match deduplicationKey parameters message with
  | none => q.pushMessage parameters message
  | some key =>
    let deduplications := q.deduplications.filter fun (_, expireTime) => ¬ expireTime ≤ q.clock
    if deduplications.any fun (other, _) => other = key then { q with deduplications }
    else
      { q with deduplications := deduplications ++ [(key, q.clock + deduplicationInterval)] }.pushMessage
        parameters message

/-! ## Receiving -/

/-- The loop of `receiveMessages`. Its queue has the messages it is done with. -/
structure Receiving where
  queue : LocalQueue
  blockedGroups : List String
  receivedMessages : List ReceivedMessage

/-- A received message: what the queue keeps of it, and what is returned. -/
def delivered (message : StoredMessage) (receiptHandle : Uuid) (now : Rat) : StoredMessage :=
  { message with
    receiveCount := message.receiveCount + 1
    receiptHandle := some receiptHandle
    receivedAt := some now
    visibleAt := now + parameters.visibilityTimeout * 1000 }

def receivedMessage (message : StoredMessage) (receiptHandle : Uuid) : ReceivedMessage :=
  { messageId := message.messageId
    receiveCount := message.receiveCount + 1
    attributes := message.attributes
    groupId := message.groupId
    body := message.body
    receiptHandle }

/-- The group whose order a message keeps. -/
def orderedGroup (message : StoredMessage) : Option String :=
  if parameters.fifoMode then message.groupId else none

namespace Receiving

variable (r : Receiving)

/-- The message stays as it is. -/
def keep (message : StoredMessage) : Receiving :=
  { r with queue := { r.queue with messages := r.queue.messages ++ [message] } }

def block (group : Option String) : Receiving :=
  { r with blockedGroups := r.blockedGroups ++ group.toList }

def moveToDeadLetter (message : StoredMessage) (now retention : Rat) : Receiving :=
  { r with
    queue := { r.queue with
      deadLetters := r.queue.deadLetters ++ [deadLetter parameters message now retention]
      history := r.queue.history ++ [.deadLettered message.messageId] } }

def deliver (message : StoredMessage) (now : Rat) : Receiving :=
  let receiptHandle := r.queue.nextUuid
  let after := delivered parameters message receiptHandle now
  { r with
    queue := { r.queue with
      messages := r.queue.messages ++ [after]
      nextUuid := r.queue.nextUuid + 1
      history := r.queue.history ++
        [.received message.messageId receiptHandle now after.visibleAt] }
    receivedMessages := r.receivedMessages ++ [receivedMessage message receiptHandle] }

def isBlocked (group : Option String) : Bool :=
  match group with
  | some group => r.blockedGroups.contains group
  | none => false

/-- One turn of the loop. Once it broke, every message stays. -/
def visit (now : Rat) (maxMessages : Nat) (message : StoredMessage) : Receiving :=
  let group := orderedGroup parameters message
  if maxMessages ≤ r.receivedMessages.length then r.keep message
  else if r.isBlocked group then r.keep message
  else if message.visibleAt > now then (r.keep message).block group
  else
    match parameters.deadLetter with
    | some options =>
      if message.receiveCount ≥ options.maxAttempts then
        r.moveToDeadLetter parameters message now options.retention
      else r.deliver parameters message now
    | none => r.deliver parameters message now

end Receiving

/-- A FIFO group with a message in flight delivers nothing until that message
is deleted or visible again. -/
def inFlightGroups (now : Rat) : List String :=
  if parameters.fifoMode then
    (q.messages.filter fun message => isInFlight message now).filterMap (·.groupId)
  else []

/-- The loop of `receiveMessages`, before its first message. -/
def startReceiving : Receiving :=
  let q := q.dropExpiredMessages parameters q.clock
  { queue := { q with messages := [] }
    blockedGroups := q.inFlightGroups parameters q.clock
    receivedMessages := [] }

def receiveLoop (maxMessages : Nat) : Receiving :=
  (q.dropExpiredMessages parameters q.clock).messages.foldl
    (fun r message => r.visit parameters q.clock maxMessages message) (q.startReceiving parameters)

def receiveMessages (maxMessages : Nat) : LocalQueue × List ReceivedMessage :=
  let r := q.receiveLoop parameters maxMessages
  (r.queue, r.receivedMessages)

/-! ## What is done with a receipt handle -/

def hasReceipt (receiptHandle : Uuid) (message : StoredMessage) : Bool :=
  message.receiptHandle = some receiptHandle

def deleteMessage (receiptHandle : Uuid) : LocalQueue :=
  match q.messages.find? (hasReceipt receiptHandle) with
  | none => q
  | some message =>
    { q with
      messages := q.messages.eraseP (hasReceipt receiptHandle)
      history := q.history ++ [.deleted message.messageId receiptHandle] }

inductive VisibilityAnswer
  | notInFlight
  | changed
  /-- 'Total VisibilityTimeout for the message is beyond the limit [43200 seconds]' -/
  | beyondLimit
deriving DecidableEq, Repr

/-- The condition under which `changeVisibility` throws, for a timeout that
is none when it isn't finite. -/
def isBeyondLimit (message : StoredMessage) (now : Rat) : Option Rat → Bool
  | none => true
  | some timeout =>
    timeout < 0 ||
      now + timeout * 1000 > message.receivedAt.getD now + maxVisibilityTimeout * 1000

/-- The first message `p` holds of, changed. -/
def modifyFirst (p : StoredMessage → Bool) (f : StoredMessage → StoredMessage) :
    List StoredMessage → List StoredMessage
  | [] => []
  | message :: rest => if p message then f message :: rest else message :: modifyFirst p f rest

def changeVisibility (receiptHandle : Uuid) (timeout : Option Rat) :
    LocalQueue × VisibilityAnswer :=
  let now := q.clock
  match q.messages.find? (hasReceipt receiptHandle) with
  | none => (q, .notInFlight)
  | some message =>
    if ¬ isInFlight message now then (q, .notInFlight)
    else if isBeyondLimit message now timeout then (q, .beyondLimit)
    else
      let visibleAt := now + timeout.getD 0 * 1000
      ({ q with
          messages := modifyFirst (hasReceipt receiptHandle) ({ · with visibleAt }) q.messages
          history := q.history ++ [.visibilityChanged message.messageId visibleAt] },
        .changed)

/-! ## The other operations -/

/-- `getDeadLetterMessages`, for what it does to the dead-letter queue; what is left is returned. -/
def getDeadLetterMessages : LocalQueue :=
  let now := q.clock
  let expiredLetters := q.deadLetters.filter fun letter => letter.expireTime ≤ now
  { q with
    deadLetters := q.deadLetters.filter fun letter => ¬ letter.expireTime ≤ now
    history := q.history ++ expiredLetters.map fun letter => .letterExpired letter.messageId }

def isEmpty : LocalQueue × Bool :=
  let q := q.dropExpiredMessages parameters q.clock
  (q, q.messages.isEmpty)

end LocalQueue

/-! ## Runs -/

inductive QueueEvent
  | sendMessage (message : OutgoingMessage)
  | receiveMessages (maxMessages : Nat)
  | deleteMessage (receiptHandle : Uuid)
  | changeVisibility (receiptHandle : Uuid) (timeout : Option Rat)
  | getDeadLetterMessages
  | isEmpty
  /-- The timer of `scheduleWakeUp`, whenever it runs. -/
  | wakeUp
  | advance (milliseconds : Nat)
deriving DecidableEq, Repr

def LocalQueue.step (q : LocalQueue) : QueueEvent → LocalQueue
  | .sendMessage message => q.sendMessage parameters message
  | .receiveMessages maxMessages => (q.receiveMessages parameters maxMessages).1
  | .deleteMessage receiptHandle => q.deleteMessage receiptHandle
  | .changeVisibility receiptHandle timeout => (q.changeVisibility receiptHandle timeout).1
  | .getDeadLetterMessages => q.getDeadLetterMessages
  | .isEmpty => (q.isEmpty parameters).1
  | .wakeUp => q.dropExpiredMessages parameters q.clock
  | .advance milliseconds => { q with clock := q.clock + milliseconds }

/-- A queue of `createLocalQueue`, made at a time. -/
def createLocalQueue (clock : Rat) : Machine LocalQueue QueueEvent where
  init := { clock }
  step q event := some (q.step parameters event)

end Ez4.Local.Queue

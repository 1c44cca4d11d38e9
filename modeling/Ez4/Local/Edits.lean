import Ez4.Local.History
import Mathlib.Logic.Relation

/-! # What can happen to a message

Every operation of the local queue is a sequence of edits of one message: it
is sent, delivered, made visible at another time, deleted, dropped or moved to
the dead-letter queue. What each edit requires and writes to the history is
all that the invariants need to know of an operation. -/
namespace Ez4.Local.Edits
open Ez4.Library Ez4.Queue.Messages Ez4.Local.Queue Ez4.Local.Queue.LocalQueue


/-- The part of a queue that is about its messages. -/
structure Ledger where
  messages : List StoredMessage
  deadLetters : List StoredDeadLetter
  nextUuid : Uuid
  history : List Entry

variable (parameters : Parameters)

/-- One edit of one message. -/
inductive Edit : Ledger → Ledger → Prop
  | send {l : Ledger} {m : StoredMessage} (fresh : m.messageId = l.nextUuid)
      (count : m.receiveCount = 0) (handle : m.receiptHandle = none) :
      Edit l { l with
        messages := l.messages ++ [m]
        nextUuid := l.nextUuid + 1
        history := l.history ++ [.sent m] }
  | deliver {l : Ledger} {a b : List StoredMessage} {m : StoredMessage} {now : Rat}
      (at_ : l.messages = a ++ m :: b) (visible : m.visibleAt ≤ now)
      (attempts : ∀ options, parameters.deadLetter = some options →
        m.receiveCount < options.maxAttempts) :
      Edit l { l with
        messages := a ++ delivered parameters m l.nextUuid now :: b
        nextUuid := l.nextUuid + 1
        history := l.history ++ [.received m.messageId l.nextUuid now
          (delivered parameters m l.nextUuid now).visibleAt] }
  | change {l : Ledger} {a b : List StoredMessage} {m : StoredMessage} (visibleAt : Rat)
      (at_ : l.messages = a ++ m :: b) :
      Edit l { l with
        messages := a ++ { m with visibleAt } :: b
        history := l.history ++ [.visibilityChanged m.messageId visibleAt] }
  | delete {l : Ledger} {a b : List StoredMessage} {m : StoredMessage} {handle : Uuid}
      (at_ : l.messages = a ++ m :: b) (receipt : m.receiptHandle = some handle) :
      Edit l { l with
        messages := a ++ b
        history := l.history ++ [.deleted m.messageId handle] }
  | drop {l : Ledger} {a b : List StoredMessage} {m : StoredMessage} {now : Rat}
      (at_ : l.messages = a ++ m :: b) (expired : getExpireTime parameters m ≤ now) :
      Edit l { l with
        messages := a ++ b
        history := l.history ++ [.dropped m.messageId now] }
  | bury {l : Ledger} {a b : List StoredMessage} {m : StoredMessage} {d : StoredDeadLetter}
      (at_ : l.messages = a ++ m :: b) (letter : d.messageId = m.messageId)
      (attempts : ∃ options, parameters.deadLetter = some options ∧
        options.maxAttempts ≤ m.receiveCount) :
      Edit l { l with
        messages := a ++ b
        deadLetters := l.deadLetters ++ [d]
        history := l.history ++ [.deadLettered m.messageId] }
  | forget {l : Ledger} {a b : List StoredDeadLetter} {d : StoredDeadLetter}
      (at_ : l.deadLetters = a ++ d :: b) :
      Edit l { l with
        deadLetters := a ++ b
        history := l.history ++ [.letterExpired d.messageId] }

/-- Any number of edits. -/
abbrev Edited : Ledger → Ledger → Prop := Relation.ReflTransGen (Edit parameters)

end Ez4.Local.Edits

namespace Ez4.Local.Queue.LocalQueue
open Ez4.Local.Edits

/-- The messages of the queue, `rest` being at the end of its list. -/
def ledger (q : LocalQueue) (rest : List StoredMessage) : Ledger where
  messages := q.messages ++ rest
  deadLetters := q.deadLetters
  nextUuid := q.nextUuid
  history := q.history

end Ez4.Local.Queue.LocalQueue

namespace Ez4.Local.Edits
open Ez4.Library Ez4.Queue.Messages Ez4.Local.Queue Ez4.Local.Queue.LocalQueue

/-! ## The operations are sequences of edits -/

variable {parameters : Parameters} {l : Ledger} {q : LocalQueue}

theorem edits_drop (now : Rat) (messages : List StoredMessage) :
    ∀ {l : Ledger} {a : List StoredMessage}, l.messages = a ++ messages →
    Edited parameters l { l with
      messages := a ++ messages.filter fun m => ¬ getExpireTime parameters m ≤ now
      history := l.history ++ (messages.filter fun m => getExpireTime parameters m ≤ now).map
        fun m => .dropped m.messageId now } := by
  induction messages with
  | nil =>
    intro l a h
    rw [List.append_nil] at h
    subst h
    simp only [List.filter_nil, List.append_nil, List.map_nil]
    exact .refl
  | cons m rest ih =>
    intro l a h
    by_cases hm : getExpireTime parameters m ≤ now
    · have hdrop := Edit.drop h hm
      refine .head hdrop ?_
      simpa [hm] using ih (l := { l with
        messages := a ++ rest, history := l.history ++ [.dropped m.messageId now] }) (a := a) rfl
    · have h' : l.messages = (a ++ [m]) ++ rest := by simpa using h
      simpa [hm, not_le.mp hm] using ih h'

theorem edits_forget (now : Rat) (letters : List StoredDeadLetter) :
    ∀ {l : Ledger} {a : List StoredDeadLetter}, l.deadLetters = a ++ letters →
    Edited parameters l { l with
      deadLetters := a ++ letters.filter fun d => ¬ d.expireTime ≤ now
      history := l.history ++ (letters.filter fun d => d.expireTime ≤ now).map
        fun d => .letterExpired d.messageId } := by
  induction letters with
  | nil =>
    intro l a h
    rw [List.append_nil] at h
    subst h
    simp only [List.filter_nil, List.append_nil, List.map_nil]
    exact .refl
  | cons d rest ih =>
    intro l a h
    by_cases hd : d.expireTime ≤ now
    · refine .head (Edit.forget h) ?_
      simpa [hd] using ih (l := { l with
        deadLetters := a ++ rest, history := l.history ++ [.letterExpired d.messageId] })
        (a := a) rfl
    · have h' : l.deadLetters = (a ++ [d]) ++ rest := by simpa using h
      simpa [hd, not_le.mp hd] using ih h'

theorem edited_dropExpiredMessages (q : LocalQueue) (now : Rat) :
    Edited parameters (q.ledger []) ((q.dropExpiredMessages parameters now).ledger []) := by
  have h : Edited parameters _ _ := edits_drop now q.messages (l := q.ledger []) (a := [])
    (by simp [ledger])
  simpa [ledger, dropExpiredMessages] using h

theorem edited_sendMessage (q : LocalQueue) (message : OutgoingMessage) :
    Edited parameters (q.ledger []) ((q.sendMessage parameters message).ledger []) := by
  have hpush : ∀ q' : LocalQueue, q'.ledger [] = q.ledger [] →
      Edited parameters (q.ledger []) ((q'.pushMessage parameters message).ledger []) := by
    intro q' h
    have hsend : Edit parameters _ _ := Edit.send (l := q'.ledger [])
      (m := q'.storedMessage parameters message) rfl rfl rfl
    rw [← h]
    simpa [ledger, pushMessage] using Relation.ReflTransGen.single hsend
  unfold sendMessage
  split
  · exact hpush q rfl
  · dsimp only
    split
    · exact .refl
    · exact hpush _ rfl

theorem edited_visit (r : Receiving) (now : Rat) (maxMessages : Nat) (m : StoredMessage)
    (rest : List StoredMessage) :
    Edited parameters (r.queue.ledger (m :: rest))
      ((r.visit parameters now maxMessages m).queue.ledger rest) := by
  have hkeep : (r.keep m).queue.ledger rest = r.queue.ledger (m :: rest) := by
    simp [ledger, Receiving.keep]
  have hdeliver : m.visibleAt ≤ now → (∀ options, parameters.deadLetter = some options →
      m.receiveCount < options.maxAttempts) →
      Edited parameters (r.queue.ledger (m :: rest))
        ((r.deliver parameters m now).queue.ledger rest) := by
    intro hvisible hattempts
    have h := Edit.deliver (l := r.queue.ledger (m :: rest)) rfl hvisible hattempts
    simpa [ledger, Receiving.deliver] using Relation.ReflTransGen.single h
  unfold Receiving.visit
  dsimp only
  split
  · rw [hkeep]
  · split
    · rw [hkeep]
    · split
      · rw [← hkeep]
        exact .refl
      · rename_i hvisible
        split
        · rename_i options hoptions
          split
          · rename_i hattempts
            have h := Edit.bury (l := r.queue.ledger (m :: rest))
              (d := deadLetter parameters m now options.retention) rfl rfl
              ⟨options, hoptions, hattempts⟩
            simpa [ledger, Receiving.moveToDeadLetter] using Relation.ReflTransGen.single h
          · rename_i hattempts
            refine hdeliver (not_lt.mp hvisible) fun other hother => ?_
            rw [hoptions, Option.some.injEq] at hother
            exact hother ▸ not_le.mp hattempts
        · rename_i hnone
          refine hdeliver (not_lt.mp hvisible) fun other hother => ?_
          rw [hnone] at hother
          cases hother

theorem edited_visits (now : Rat) (maxMessages : Nat) (messages : List StoredMessage) :
    ∀ r : Receiving, Edited parameters (r.queue.ledger messages)
      ((messages.foldl (fun r m => r.visit parameters now maxMessages m) r).queue.ledger []) := by
  induction messages with
  | nil => exact fun _ => .refl
  | cons m rest ih => exact fun r => (edited_visit r now maxMessages m rest).trans (ih _)

theorem edited_receiveMessages (q : LocalQueue) (maxMessages : Nat) :
    Edited parameters (q.ledger []) ((q.receiveMessages parameters maxMessages).1.ledger []) := by
  refine (edited_dropExpiredMessages q q.clock).trans ?_
  have h : Edited parameters _ _ := edited_visits q.clock maxMessages
    (q.dropExpiredMessages parameters q.clock).messages (q.startReceiving parameters)
  simpa [ledger, receiveMessages, receiveLoop, startReceiving] using h

theorem modifyFirst_append {p : StoredMessage → Bool} {f : StoredMessage → StoredMessage}
    {a b : List StoredMessage} {m : StoredMessage} (ha : ∀ x ∈ a, ¬ p x) (hm : p m) :
    modifyFirst p f (a ++ m :: b) = a ++ f m :: b := by
  induction a with
  | nil => simp [modifyFirst, hm]
  | cons x a ih =>
    have hx : ¬ p x := ha x (by simp)
    simp only [List.cons_append, modifyFirst, hx, Bool.false_eq_true, if_false,
      ih fun y hy => ha y (List.mem_cons_of_mem _ hy)]

/-- The message a receipt handle is of, in the list. -/
theorem split_at_receipt {handle : Uuid} {m : StoredMessage}
    (h : q.messages.find? (hasReceipt handle) = some m) :
    ∃ a b, q.messages = a ++ m :: b ∧ (∀ x ∈ a, ¬ hasReceipt handle x) ∧
      hasReceipt handle m = true := by
  obtain ⟨hm, a, b, heq, ha⟩ := List.find?_eq_some_iff_append.mp h
  exact ⟨a, b, heq, by simpa using ha, hm⟩

theorem edited_deleteMessage (q : LocalQueue) (handle : Uuid) :
    Edited parameters (q.ledger []) ((q.deleteMessage handle).ledger []) := by
  unfold deleteMessage
  split
  · exact .refl
  · rename_i m hfind
    obtain ⟨a, b, heq, ha, hm⟩ := split_at_receipt hfind
    have hat : (q.ledger []).messages = a ++ m :: b := by simpa [ledger] using heq
    have h : Edit parameters _ _ := Edit.delete hat (by simpa [hasReceipt] using hm)
    have herase : q.messages.eraseP (hasReceipt handle) = a ++ b := by
      rw [heq, List.eraseP_append_right _ ha, List.eraseP_cons_of_pos hm]
    simpa [ledger, herase] using Relation.ReflTransGen.single h

theorem edited_changeVisibility (q : LocalQueue) (handle : Uuid) (timeout : Option Rat) :
    Edited parameters (q.ledger []) ((q.changeVisibility handle timeout).1.ledger []) := by
  unfold changeVisibility
  dsimp only
  split
  · exact .refl
  · rename_i m hfind
    split
    · exact .refl
    · split
      · exact .refl
      · obtain ⟨a, b, heq, ha, hm⟩ := split_at_receipt hfind
        have hat : (q.ledger []).messages = a ++ m :: b := by simpa [ledger] using heq
        have h : Edit parameters _ _ := Edit.change (q.clock + timeout.getD 0 * 1000) hat
        simpa [ledger, heq, modifyFirst_append ha hm] using Relation.ReflTransGen.single h

theorem edited_getDeadLetterMessages (q : LocalQueue) :
    Edited parameters (q.ledger []) (q.getDeadLetterMessages.ledger []) := by
  have h : Edited parameters _ _ := edits_forget q.clock q.deadLetters (l := q.ledger [])
    (a := []) rfl
  simpa [ledger, getDeadLetterMessages] using h

/-- **Every operation is a sequence of edits.** -/
theorem edited_step (q : LocalQueue) (event : QueueEvent) :
    Edited parameters (q.ledger []) ((q.step parameters event).ledger []) := by
  cases event with
  | sendMessage message => exact edited_sendMessage q message
  | receiveMessages maxMessages => exact edited_receiveMessages q maxMessages
  | deleteMessage handle => exact edited_deleteMessage q handle
  | changeVisibility handle timeout => exact edited_changeVisibility q handle timeout
  | getDeadLetterMessages => exact edited_getDeadLetterMessages q
  | isEmpty => exact edited_dropExpiredMessages q q.clock
  | wakeUp => exact edited_dropExpiredMessages q q.clock
  | advance milliseconds => exact .refl

end Ez4.Local.Edits

import Ez4.Local.Queue
import Mathlib.Data.List.Induction

/-! # Reading the history of a local queue

What a history says of a message: whether it was sent and left, its last
receipt handle, how often it was received and when it's visible again. -/
namespace Ez4.Local.Queue
open Ez4.Queue.Messages

def Entry.sends (id : Uuid) : Entry → Bool
  | .sent message => message.messageId = id
  | _ => false

/-- The message leaves the queue. -/
def Entry.leaves (id : Uuid) : Entry → Bool
  | .deleted messageId _ | .dropped messageId _ | .deadLettered messageId => messageId = id
  | _ => false

def Entry.receives (id : Uuid) : Entry → Bool
  | .received messageId _ _ _ => messageId = id
  | _ => false

def Entry.deadLetters (id : Uuid) : Entry → Bool
  | .deadLettered messageId => messageId = id
  | _ => false

def Entry.expires (id : Uuid) : Entry → Bool
  | .letterExpired messageId => messageId = id
  | _ => false

/-- The message of an entry. -/
def Entry.about : Entry → Uuid
  | .sent message => message.messageId
  | .received id _ _ _ | .visibilityChanged id _ | .deleted id _ | .dropped id _ => id
  | .deadLettered id | .letterExpired id => id

def Entry.sentId? : Entry → Option Uuid
  | .sent message => some message.messageId
  | _ => none

def Entry.handle? : Entry → Option Uuid
  | .received _ receiptHandle _ _ => some receiptHandle
  | _ => none

/-- The messages that were sent, in order. -/
def sentIds (history : List Entry) : List Uuid := history.filterMap Entry.sentId?

/-- The receipt handles that were given, in order. -/
def handles (history : List Entry) : List Uuid := history.filterMap Entry.handle?

/-- A receive, and when it was. -/
def Entry.received? : Entry → Option (Uuid × Uuid × Rat)
  | .received id receiptHandle now _ => some (id, receiptHandle, now)
  | _ => none

def receives (history : List Entry) : List (Uuid × Uuid × Rat) :=
  history.filterMap Entry.received?

def receiveCount (history : List Entry) (id : Uuid) : Nat := history.countP (Entry.receives id)

/-- The receipt handle of the last receive of a message, given an earlier one. -/
def handleAfter (id : Uuid) (handle : Option Uuid) : Entry → Option Uuid
  | .received messageId receiptHandle _ _ =>
    if messageId = id then some receiptHandle else handle
  | _ => handle

def latestHandle (history : List Entry) (id : Uuid) : Option Uuid :=
  history.foldl (handleAfter id) none

def visibilityAfter (id : Uuid) (visibility : Option Rat) : Entry → Option Rat
  | .sent message => if message.messageId = id then some message.visibleAt else visibility
  | .received messageId _ _ visibleAt | .visibilityChanged messageId visibleAt =>
    if messageId = id then some visibleAt else visibility
  | _ => visibility

/-- When a message that was sent is visible, or visible again. -/
def visibility (history : List Entry) (id : Uuid) : Option Rat :=
  history.foldl (visibilityAfter id) none

/-! ## Appending an entry -/

variable {history : List Entry} {id : Uuid} (entry : Entry)

@[simp] theorem latestHandle_append :
    latestHandle (history ++ [entry]) id = handleAfter id (latestHandle history id) entry := by
  rw [latestHandle, List.foldl_append]
  rfl

@[simp] theorem visibility_append :
    visibility (history ++ [entry]) id = visibilityAfter id (visibility history id) entry := by
  rw [visibility, List.foldl_append]
  rfl

theorem receiveCount_append :
    receiveCount (history ++ [entry]) id =
      receiveCount history id + if Entry.receives id entry then 1 else 0 := by
  rw [receiveCount, List.countP_append, List.countP_singleton]
  rfl

@[simp] theorem sentIds_append :
    sentIds (history ++ [entry]) = sentIds history ++ entry.sentId?.toList := by
  rw [sentIds, List.filterMap_append]
  cases h : entry.sentId? <;> simp [sentIds, h]

@[simp] theorem handles_append :
    handles (history ++ [entry]) = handles history ++ entry.handle?.toList := by
  rw [handles, List.filterMap_append]
  cases h : entry.handle? <;> simp [handles, h]

@[simp] theorem receives_append :
    receives (history ++ [entry]) = receives history ++ entry.received?.toList := by
  rw [receives, List.filterMap_append]
  cases h : entry.received? <;> simp [receives, h]

variable {entry}

/-- An entry is about one message. -/
theorem handleAfter_of_ne (h : entry.about ≠ id) (handle : Option Uuid) :
    handleAfter id handle entry = handle := by
  cases entry <;> simp_all [handleAfter, Entry.about]

theorem visibilityAfter_of_ne (h : entry.about ≠ id) (visible : Option Rat) :
    visibilityAfter id visible entry = visible := by
  cases entry <;> simp_all [visibilityAfter, Entry.about]

theorem receives_of_ne (h : entry.about ≠ id) : entry.receives id = false := by
  cases entry <;> simp_all [Entry.receives, Entry.about]

theorem leaves_of_ne (h : entry.about ≠ id) : entry.leaves id = false := by
  cases entry <;> simp_all [Entry.leaves, Entry.about]

theorem mem_sentIds : id ∈ sentIds history ↔ ∃ m, .sent m ∈ history ∧ m.messageId = id := by
  rw [sentIds, List.mem_filterMap]
  constructor
  · rintro ⟨e, he, hid⟩
    cases e <;> simp only [Entry.sentId?, reduceCtorEq, Option.some.injEq] at hid
    exact ⟨_, he, hid⟩
  · rintro ⟨m, hm, rfl⟩
    exact ⟨_, hm, rfl⟩

theorem countP_sends : history.countP (Entry.sends id) = (sentIds history).count id := by
  induction history with
  | nil => rfl
  | cons e rest ih =>
    rw [List.countP_cons, ih]
    cases e <;> simp [sentIds, Entry.sentId?, Entry.sends, List.filterMap_cons, List.count_cons]

theorem latestHandle_eq_none (h : ∀ e ∈ history, e.about ≠ id) : latestHandle history id = none := by
  induction history using List.reverseRecOn with
  | nil => rfl
  | append_singleton rest e ih =>
    rw [latestHandle_append, handleAfter_of_ne (h e (by simp)),
      ih fun e he => h e (List.mem_append_left _ he)]

/-- A receipt handle that was given last was given. -/
theorem mem_handles_of_latest {handle : Uuid} (h : latestHandle history id = some handle) :
    ∃ now visibleAt, .received id handle now visibleAt ∈ history := by
  induction history using List.reverseRecOn with
  | nil => cases h
  | append_singleton rest e ih =>
    rw [latestHandle_append] at h
    have hrest : latestHandle rest id = some handle →
        ∃ now visibleAt, .received id handle now visibleAt ∈ rest ++ [e] := by
      intro h
      obtain ⟨now, visibleAt, hmem⟩ := ih h
      exact ⟨now, visibleAt, List.mem_append_left _ hmem⟩
    cases e with
    | received other receipt now visibleAt =>
      simp only [handleAfter] at h
      split at h
      · rename_i hid
        cases h
        exact ⟨now, visibleAt, by simp [hid]⟩
      · exact hrest h
    | _ => exact hrest h

end Ez4.Local.Queue

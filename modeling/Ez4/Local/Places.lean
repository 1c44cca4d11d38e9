import Ez4.Local.Conservation
import Ez4.Local.Deduplication

/-! # No message is lost, doubled or delivered too often

Read off the accounts: a message that was sent is in one place, a receive
waits for the visibility of the one before to end, an old receipt handle is of
no message, and no message is received past its attempts. -/
namespace Ez4.Local.Places
open Ez4.Library Ez4.Queue.Messages Ez4.Local.Queue Ez4.Local.Queue.LocalQueue Ez4.Local.Edits
  Ez4.Local.Deduplication

variable {parameters : Parameters} {l : Ledger} {q : LocalQueue} {id : Uuid}

/-! ## One place -/

inductive Place
  | queue
  | deleted
  | dropped
  | deadLetterQueue
deriving DecidableEq, Repr

/-- Where a message is; where it was deleted, with its latest receipt handle. -/
def IsAt (parameters : Parameters) (q : LocalQueue) (id : Uuid) : Place → Prop
  | .queue => ∃ m ∈ q.messages, m.messageId = id
  | .deleted => ∃ before after handle, q.history = before ++ .deleted id handle :: after ∧
      latestHandle before id = some handle
  | .dropped => ∃ sent now, .sent sent ∈ q.history ∧ sent.messageId = id ∧
      .dropped id now ∈ q.history ∧ getExpireTime parameters sent ≤ now
  | .deadLetterQueue => .deadLettered id ∈ q.history ∧
      ((∃ d ∈ q.deadLetters, d.messageId = id) ∨ .letterExpired id ∈ q.history)

/-- The place an entry takes its message to. -/
def placeOf : Entry → Option Place
  | .deleted _ _ => some .deleted
  | .dropped _ _ => some .dropped
  | .deadLettered _ => some .deadLetterQueue
  | _ => none

theorem placeOf_of_leaves {e : Entry} (h : e.leaves id = true) : ∃ place, placeOf e = some place := by
  cases e <;> simp_all [Entry.leaves, placeOf]

theorem isAt_of_entry (h : Accounted parameters (q.ledger [])) {e : Entry} (he : e ∈ q.history)
    (hleaves : e.leaves id = true) {place : Place} (hplace : placeOf e = some place) :
    IsAt parameters q id place := by
  obtain ⟨before, after, hsplit⟩ := List.append_of_mem he
  have hok := h.lawful before e after hsplit
  cases e with
  | deleted id' handle =>
    cases hplace
    have hid : id' = id := by simpa [Entry.leaves] using hleaves
    subst hid
    exact ⟨before, after, handle, hsplit, hok⟩
  | dropped id' now =>
    cases hplace
    have hid : id' = id := by simpa [Entry.leaves] using hleaves
    subst hid
    obtain ⟨m, hm, hmid, hexpired⟩ := hok
    exact ⟨m, now, hsplit ▸ List.mem_append_left _ hm, hmid, he, hexpired⟩
  | deadLettered id' =>
    cases hplace
    have hid : id' = id := by simpa [Entry.leaves] using hleaves
    subst hid
    refine ⟨he, ?_⟩
    have hletters := h.letters id'
    have hpos : 0 < q.history.countP (Entry.deadLetters id') :=
      List.countP_pos_iff.mpr ⟨_, he, by simp [Entry.deadLetters]⟩
    by_cases hin : 0 < q.deadLetters.countP (·.messageId = id')
    · obtain ⟨d, hd, heq⟩ := List.countP_pos_iff.mp hin
      exact .inl ⟨d, hd, by simpa using heq⟩
    · have hexpired : 0 < q.history.countP (Entry.expires id') := by
        simp only [ledger] at hletters
        omega
      obtain ⟨e, he, hd⟩ := List.countP_pos_iff.mp hexpired
      cases e <;> simp only [Entry.expires, Bool.false_eq_true, decide_eq_true_eq] at hd
      exact .inr (hd ▸ he)
  | _ => cases hplace

theorem entry_of_isAt {place : Place} (h : IsAt parameters q id place) (hplace : place ≠ .queue) :
    ∃ e ∈ q.history, e.leaves id = true ∧ placeOf e = some place := by
  cases place with
  | queue => exact absurd rfl hplace
  | deleted =>
    obtain ⟨before, after, handle, hsplit, -⟩ := h
    exact ⟨.deleted id handle, by simp [hsplit], by simp [Entry.leaves], rfl⟩
  | dropped =>
    obtain ⟨-, now, -, -, hdropped, -⟩ := h
    exact ⟨_, hdropped, by simp [Entry.leaves], rfl⟩
  | deadLetterQueue => exact ⟨_, h.1, by simp [Entry.leaves], rfl⟩

/-- What is counted once is one thing. -/
theorem eq_of_countP_one {α : Type} {p : α → Bool} {xs : List α} (h : xs.countP p ≤ 1) {x y : α}
    (hx : x ∈ xs) (hy : y ∈ xs) (hpx : p x = true) (hpy : p y = true) : x = y := by
  rw [List.countP_eq_length_filter] at h
  have hx' : x ∈ xs.filter p := List.mem_filter.mpr ⟨hx, hpx⟩
  have hy' : y ∈ xs.filter p := List.mem_filter.mpr ⟨hy, hpy⟩
  match xs.filter p, hx', hy', h with
  | [z], hx', hy', _ => rw [List.mem_singleton.mp hx', List.mem_singleton.mp hy']

/-- **A message that was sent is in exactly one place.** -/
theorem one_place (h : Accounted parameters (q.ledger [])) (hsent : id ∈ sentIds q.history) :
    ∃ place, IsAt parameters q id place ∧ ∀ other, IsAt parameters q id other → other = place := by
  have hplaces : q.messages.countP (·.messageId = id) + q.history.countP (Entry.leaves id) = 1 := by
    have h1 := h.places id
    have h2 : (sentIds q.history).count id = 1 :=
      List.count_eq_one_of_mem (h.sentOrder.imp Nat.ne_of_lt) hsent
    simpa [ledger, h2] using h1
  by_cases hin : 0 < q.messages.countP (·.messageId = id)
  · obtain ⟨m, hm, hid⟩ := List.countP_pos_iff.mp hin
    refine ⟨.queue, ⟨m, hm, by simpa using hid⟩, fun other hother => ?_⟩
    by_contra hne
    obtain ⟨e, he, hleaves, -⟩ := entry_of_isAt hother hne
    have : 0 < q.history.countP (Entry.leaves id) := List.countP_pos_iff.mpr ⟨e, he, hleaves⟩
    omega
  · have hout : 0 < q.history.countP (Entry.leaves id) := by omega
    obtain ⟨e, he, hleaves⟩ := List.countP_pos_iff.mp hout
    obtain ⟨place, hplace⟩ := placeOf_of_leaves hleaves
    refine ⟨place, isAt_of_entry h he hleaves hplace, fun other hother => ?_⟩
    by_cases hqueue : other = .queue
    · subst hqueue
      obtain ⟨m, hm, hid⟩ := hother
      exact absurd (List.countP_pos_iff.mpr ⟨m, hm, by simpa using hid⟩) hin
    · obtain ⟨e', he', hleaves', hplace'⟩ := entry_of_isAt hother hqueue
      have heq := eq_of_countP_one (by omega) he he' hleaves hleaves'
      rw [← heq, hplace, Option.some.injEq] at hplace'
      exact hplace'.symm

/-! ## Receipt handles -/

variable {history : List Entry} {handle : Uuid}

theorem mem_handles {now visibleAt : Rat} (h : .received id handle now visibleAt ∈ history) :
    handle ∈ handles history :=
  List.mem_filterMap.mpr ⟨_, h, rfl⟩

theorem nodup_handles (h : Lawful parameters history) : (handles history).Nodup := by
  induction history using List.reverseRecOn with
  | nil => exact List.nodup_nil
  | append_singleton rest e ih =>
    have hrest : (handles rest).Nodup := ih fun before other after heq =>
      h before other (after ++ [e]) (by simp [heq])
    rw [handles_append]
    have hok := h rest e [] rfl
    cases e with
    | received id handle now visibleAt =>
      exact List.Nodup.append hrest (List.nodup_singleton _)
        (by simpa [List.disjoint_singleton, Entry.handle?] using hok.1)
    | _ => simpa [Entry.handle?] using hrest

/-- A handle is of one receive. -/
theorem received_unique (h : (handles history).Nodup) {id' : Uuid} {now now' v v' : Rat}
    (hr : .received id handle now v ∈ history) (hr' : .received id' handle now' v' ∈ history) :
    id = id' := by
  induction history with
  | nil => cases hr
  | cons e rest ih =>
    have hrest : (handles rest).Nodup := by
      refine List.Nodup.sublist ?_ h
      exact (List.sublist_cons_self e rest).filterMap _
    have hfirst : ∀ {id : Uuid} {now v : Rat}, .received id handle now v ∈ rest →
        e.handle? ≠ some handle := by
      intro id now v hin heq
      rw [handles, List.filterMap_cons, heq] at h
      exact (List.nodup_cons.mp h).1 (mem_handles hin)
    rcases List.mem_cons.mp hr with heq | hin <;> rcases List.mem_cons.mp hr' with heq' | hin'
    · rw [← heq] at heq'
      cases heq'
      rfl
    · exact absurd (heq ▸ rfl) (hfirst hin')
    · exact absurd (heq' ▸ rfl) (hfirst hin)
    · exact ih hrest hin hin'

/-- After a later receive, the latest handle is of such a receive. -/
theorem latestHandle_of_later (before : List Entry) {after : List Entry} {now v : Rat}
    (h : .received id handle now v ∈ after) :
    ∃ latest now v, latestHandle (before ++ after) id = some latest ∧
      .received id latest now v ∈ after := by
  induction after using List.reverseRecOn with
  | nil => cases h
  | append_singleton rest e ih =>
    have hrest : .received id handle now v ∈ rest → handleAfter id (latestHandle (before ++ rest) id)
        e = latestHandle (before ++ rest) id → ∃ latest now v,
          latestHandle (before ++ (rest ++ [e])) id = some latest ∧
            .received id latest now v ∈ rest ++ [e] := by
      intro h hsame
      obtain ⟨latest, now, v, hlatest, hmem⟩ := ih h
      exact ⟨latest, now, v, by rw [← List.append_assoc, latestHandle_append, hsame, hlatest],
        List.mem_append_left _ hmem⟩
    cases e with
    | received id' handle' now' v' =>
      by_cases hid : id' = id
      · subst hid
        exact ⟨handle', now', v', by rw [← List.append_assoc, latestHandle_append]; simp [handleAfter],
          by simp⟩
      · refine hrest ?_ (by simp [handleAfter, hid])
        rcases List.mem_append.mp h with h | h
        · exact h
        · cases List.mem_singleton.mp h
          exact absurd rfl hid
    | _ =>
      refine hrest ?_ rfl
      rcases List.mem_append.mp h with h | h
      · exact h
      · cases List.mem_singleton.mp h

/-- The handle of an earlier receive. -/
def Stale (history : List Entry) (handle : Uuid) : Prop :=
  ∃ before after id now v latest now' v', history = before ++ .received id handle now v :: after ∧
    .received id latest now' v' ∈ after

theorem no_message_of_stale (h : Accounted parameters (q.ledger [])) (hs : Stale q.history handle) :
    q.messages.find? (hasReceipt handle) = none := by
  obtain ⟨before, after, id, now, v, latest, now', v', hsplit, hlater⟩ := hs
  have hnodup := nodup_handles h.lawful
  rw [List.find?_eq_none]
  intro m hm hreceipt
  have hhandle : latestHandle q.history m.messageId = some handle := by
    have := (h.stored m (by simpa [ledger] using hm)).handle
    simp only [hasReceipt, decide_eq_true_eq] at hreceipt
    exact this.trans hreceipt
  obtain ⟨now₁, v₁, hmem⟩ := mem_handles_of_latest hhandle
  have hreceived : .received id handle now v ∈ q.history := by simp [hsplit]
  have hid : id = m.messageId := received_unique hnodup hreceived hmem
  subst hid
  obtain ⟨last, now₂, v₂, hlast, hmem₂⟩ := latestHandle_of_later
    (before ++ [.received m.messageId handle now v]) hlater
  rw [List.append_assoc, List.singleton_append, ← hsplit, hhandle, Option.some.injEq] at hlast
  subst hlast
  -- the handle would have been given twice
  have hnodup : (handles (before ++ .received m.messageId handle now v :: after)).Nodup :=
    hsplit ▸ hnodup
  rw [handles, List.filterMap_append] at hnodup
  exact (List.nodup_cons.mp (List.nodup_append.mp hnodup).2.1).1 (mem_handles hmem₂)

/-- **An old receipt handle changes nothing.** -/
theorem stale_handle_changes_nothing (h : Accounted parameters (q.ledger []))
    (hs : Stale q.history handle) (timeout : Option Rat) :
    q.deleteMessage handle = q ∧ q.changeVisibility handle timeout = (q, .notInFlight) := by
  have hnone := no_message_of_stale h hs
  constructor
  · unfold deleteMessage
    rw [hnone]
  · unfold changeVisibility
    dsimp only
    rw [hnone]

/-! ## Receives -/

theorem visibility_of_received {handle : Uuid} {now v : Rat}
    (h : .received id handle now v ∈ history) : ∃ ended, visibility history id = some ended := by
  induction history using List.reverseRecOn with
  | nil => cases h
  | append_singleton rest e ih =>
    rw [visibility_append]
    rcases List.mem_append.mp h with hrest | hlast
    · obtain ⟨ended, hended⟩ := ih hrest
      rw [hended]
      cases e <;> simp only [visibilityAfter] <;> (try split) <;> exact ⟨_, rfl⟩
    · rw [← List.mem_singleton.mp hlast]
      exact ⟨v, by simp [visibilityAfter]⟩

/-- **A message comes again only once its visibility ended.** -/
theorem visibility_ended (h : Lawful parameters history) {before after : List Entry}
    {handle earlier : Uuid} {now now' v v' : Rat}
    (hsplit : history = before ++ .received id handle now v :: after)
    (hearlier : .received id earlier now' v' ∈ before) :
    ∃ ended, visibility before id = some ended ∧ ended ≤ now := by
  obtain ⟨ended, hended⟩ := visibility_of_received hearlier
  exact ⟨ended, hended, (h _ _ _ hsplit).2.1 ended hended⟩

/-- **No message is received past its attempts.** -/
theorem receiveCount_le (h : Lawful parameters history) {options : DeadLetterOptions}
    (hoptions : parameters.deadLetter = some options) :
    receiveCount history id ≤ options.maxAttempts := by
  induction history using List.reverseRecOn with
  | nil => exact Nat.zero_le _
  | append_singleton rest e ih =>
    have hrest : Lawful parameters rest := fun before other after heq =>
      h before other (after ++ [e]) (by simp [heq])
    rw [receiveCount_append]
    split
    · rename_i hreceives
      have hok := h rest e [] rfl
      cases e <;> simp only [Entry.receives, Bool.false_eq_true, decide_eq_true_eq] at hreceives
      subst hreceives
      exact hok.2.2 options hoptions
    · exact ih hrest

/-! ## The history has what was returned -/

/-- The receive of a returned message. -/
def receiveOf (now : Rat) (r : ReceivedMessage) : Uuid × Uuid × Rat :=
  (r.messageId, r.receiptHandle, now)

theorem receives_visit {r : Receiving} {now : Rat} {maxMessages : Nat} {m : StoredMessage}
    {base : List (Uuid × Uuid × Rat)}
    (h : receives r.queue.history = base ++ r.receivedMessages.map (receiveOf now)) :
    receives (r.visit parameters now maxMessages m).queue.history =
      base ++ (r.visit parameters now maxMessages m).receivedMessages.map (receiveOf now) := by
  have hdeliver : receives (r.deliver parameters m now).queue.history =
      base ++ (r.deliver parameters m now).receivedMessages.map (receiveOf now) := by
    simp [Receiving.deliver, h, Entry.received?, receiveOf, receivedMessage]
  unfold Receiving.visit
  dsimp only
  split
  · exact h
  · split
    · exact h
    · split
      · exact h
      · split
        · split
          · simpa [Receiving.moveToDeadLetter, Entry.received?] using h
          · exact hdeliver
        · exact hdeliver

theorem receives_receiveMessages (q : LocalQueue) (maxMessages : Nat) :
    receives (q.receiveMessages parameters maxMessages).1.history =
      receives q.history ++ (q.receiveMessages parameters maxMessages).2.map (receiveOf q.clock) := by
  have hvisits : ∀ (messages : List StoredMessage) (r : Receiving),
      receives r.queue.history = receives q.history ++ r.receivedMessages.map (receiveOf q.clock) →
      receives (messages.foldl (fun r m => r.visit parameters q.clock maxMessages m) r).queue.history =
        receives q.history ++ (messages.foldl (fun r m => r.visit parameters q.clock maxMessages m)
          r).receivedMessages.map (receiveOf q.clock) := by
    intro messages
    induction messages with
    | nil => exact fun r h => h
    | cons m rest ih => exact fun r h => ih _ (receives_visit h)
  refine hvisits _ _ ?_
  -- an expired message is no receive
  have hdropped : ∀ (expired : List StoredMessage), receives (expired.map fun m =>
      .dropped m.messageId q.clock) = [] := by
    intro expired
    refine List.filterMap_eq_nil_iff.mpr fun e he => ?_
    obtain ⟨m, -, rfl⟩ := List.mem_map.mp he
    rfl
  simp only [startReceiving, dropExpiredMessages, receives, List.filterMap_append, List.map_nil]
  exact congrArg _ (hdropped _)

/-- **The local queue neither loses, doubles nor over-delivers a message.** A
message is refused only as a duplicate. One that was sent is in exactly one
place. It's received again only once its visibility ended, at most as often as
its attempts, and the handles of its earlier receives change nothing. -/
theorem createLocalQueue_conserves {clock : Rat}
    (h : (createLocalQueue parameters clock).Reachable q) :
    (∀ message, ¬ IsDuplicate parameters q message →
      (q.sendMessage parameters message).history =
        q.history ++ [.sent (q.storedMessage parameters message)]) ∧
    (∀ maxMessages, receives (q.receiveMessages parameters maxMessages).1.history =
      receives q.history ++
        (q.receiveMessages parameters maxMessages).2.map (receiveOf q.clock)) ∧
    (∀ id ∈ sentIds q.history, ∃ place, IsAt parameters q id place ∧
      ∀ other, IsAt parameters q id other → other = place) ∧
    (∀ (before after : List Entry) (id handle earlier : Uuid) (now now' v v' : Rat),
      q.history = before ++ .received id handle now v :: after →
      .received id earlier now' v' ∈ before →
      ∃ ended, visibility before id = some ended ∧ ended ≤ now) ∧
    (∀ handle timeout, Stale q.history handle →
      q.deleteMessage handle = q ∧ q.changeVisibility handle timeout = (q, .notInFlight)) ∧
    ∀ options id, parameters.deadLetter = some options →
      receiveCount q.history id ≤ options.maxAttempts := by
  have haccounted := accounted_of_reachable h
  refine ⟨fun message hnot => ?_, receives_receiveMessages q, fun id hid => one_place haccounted hid,
    ?_, fun handle timeout hs => stale_handle_changes_nothing haccounted hs timeout,
    fun options id hoptions => receiveCount_le haccounted.lawful hoptions⟩
  · obtain ⟨deduplications, heq⟩ := sendMessage_accepted (deduplicated_of_reachable h) hnot
    rw [heq]
    rfl
  · intro before after id handle earlier now now' v v' hsplit hearlier
    exact visibility_ended haccounted.lawful hsplit hearlier

/-- A queue whose messages are received twice at most. -/
def twoAttempts : Parameters where
  fifoMode := true
  visibilityTimeout := 30
  retention := 60
  delay := 0
  deadLetter := some { maxAttempts := 2, retention := 60 }

/-- A message that is received until it has no attempts left. -/
def attemptedEvents : List QueueEvent :=
  [.sendMessage { body := "x", attributes := { traceId := "t" }, groupId := some "g" },
    .receiveMessages 1, .advance 30000, .receiveMessages 1, .deleteMessage 1, .advance 30000,
    .receiveMessages 1]

def attempted : LocalQueue :=
  ((createLocalQueue twoAttempts 0).run attemptedEvents (createLocalQueue twoAttempts 0).init).getD
    { clock := 0 }

theorem attempted_conserved :
    receiveCount attempted.history 0 = 2 ∧ receiveCount attempted.history 0 ≤ 2 ∧
      ∃ place, IsAt twoAttempts attempted 0 place ∧
        ∀ other, IsAt twoAttempts attempted 0 other → other = place := by
  have hreach : (createLocalQueue twoAttempts 0).Reachable attempted := ⟨attemptedEvents, rfl⟩
  have h := createLocalQueue_conserves hreach
  exact ⟨by decide +kernel, h.2.2.2.2.2 _ 0 rfl, h.2.2.1 0 (by decide +kernel)⟩

end Ez4.Local.Places

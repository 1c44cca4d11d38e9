import Ez4.Local.Edits
import Mathlib.Data.List.Nodup

/-! # Where the messages of a local queue are

Each edit keeps the accounts of the history: every message that was sent is in
the queue or has left it once, what the queue keeps of it is what the history
says, and no receive comes while a message is in flight or past its attempts. -/
namespace Ez4.Local.Edits
open Ez4.Library Ez4.Queue.Messages Ez4.Local.Queue Ez4.Local.Queue.LocalQueue

variable (parameters : Parameters)

/-! ## The invariant -/

/-- What has to hold where an entry is written. -/
def EntryOk (before : List Entry) : Entry → Prop
  | .received id handle now _ =>
    handle ∉ handles before ∧ (∀ v, visibility before id = some v → v ≤ now) ∧
      ∀ options, parameters.deadLetter = some options →
        receiveCount before id < options.maxAttempts
  | .deleted id handle => latestHandle before id = some handle
  | .dropped id now => ∃ m, .sent m ∈ before ∧ m.messageId = id ∧ getExpireTime parameters m ≤ now
  | .deadLettered id => ∃ options, parameters.deadLetter = some options ∧
      options.maxAttempts ≤ receiveCount before id
  | _ => True

def Lawful (history : List Entry) : Prop :=
  ∀ before e after, history = before ++ e :: after → EntryOk parameters before e

/-- A message is as it was sent, but for what receives change. -/
structure SentAs (sent m : StoredMessage) : Prop where
  messageId : m.messageId = sent.messageId
  body : m.body = sent.body
  attributes : m.attributes = sent.attributes
  groupId : m.groupId = sent.groupId
  deduplicationId : m.deduplicationId = sent.deduplicationId
  sentAt : m.sentAt = sent.sentAt

/-- A message is what the history says of it. -/
structure Agrees (history : List Entry) (m : StoredMessage) : Prop where
  handle : latestHandle history m.messageId = m.receiptHandle
  count : receiveCount history m.messageId = m.receiveCount
  visible : visibility history m.messageId = some m.visibleAt
  sent : ∃ sent, .sent sent ∈ history ∧ SentAs sent m

structure Accounted (l : Ledger) : Prop where
  freshIds : ∀ id ∈ sentIds l.history, id < l.nextUuid
  freshHandles : ∀ handle ∈ handles l.history, handle < l.nextUuid
  sentOrder : (sentIds l.history).Pairwise (· < ·)
  about : ∀ e ∈ l.history, e.about ∈ sentIds l.history
  /-- The messages are in the order they were sent in. -/
  order : (l.messages.map (·.messageId)).Sublist (sentIds l.history)
  places : ∀ id, l.messages.countP (·.messageId = id) + l.history.countP (Entry.leaves id) =
    (sentIds l.history).count id
  letters : ∀ id, l.deadLetters.countP (·.messageId = id) + l.history.countP (Entry.expires id) =
    l.history.countP (Entry.deadLetters id)
  stored : ∀ m ∈ l.messages, Agrees l.history m
  lawful : Lawful parameters l.history

variable {parameters} {l : Ledger} {history : List Entry} {e : Entry} {m : StoredMessage}
  {a b : List StoredMessage}

theorem lawful_append (h : Lawful parameters history) (he : EntryOk parameters history e) :
    Lawful parameters (history ++ [e]) := by
  intro before other after heq
  rcases List.eq_nil_or_concat after with rfl | ⟨rest, last, rfl⟩
  · have hsplit := List.append_inj' heq rfl
    obtain ⟨rfl, hlast⟩ := hsplit
    rw [List.singleton_inj] at hlast
    exact hlast ▸ he
  · rw [List.concat_eq_append, ← List.cons_append, ← List.append_assoc] at heq
    have hsplit := List.append_inj' heq rfl
    exact h before other rest hsplit.1

theorem Accounted.nodup (h : Accounted parameters l) :
    (l.messages.map (·.messageId)).Nodup :=
  (h.sentOrder.imp Nat.ne_of_lt).sublist h.order

/-- The other messages have other ids. -/
theorem Accounted.ne_of_split (h : Accounted parameters l) (hat : l.messages = a ++ m :: b)
    {x : StoredMessage} (hx : x ∈ a ++ b) : m.messageId ≠ x.messageId := by
  have hnodup := h.nodup
  rw [hat, List.map_append, List.map_cons, List.nodup_middle, List.nodup_cons,
    ← List.map_append] at hnodup
  intro heq
  exact hnodup.1 (List.mem_map.mpr ⟨x, hx, heq.symm⟩)

/-- An entry about another message changes nothing about this one. -/
theorem Agrees.append_of_ne (h : Agrees history m) (hne : e.about ≠ m.messageId) :
    Agrees (history ++ [e]) m := by
  refine ⟨?_, ?_, ?_, ?_⟩
  · rw [latestHandle_append, handleAfter_of_ne hne, h.handle]
  · rw [receiveCount_append, receives_of_ne hne]
    simpa using h.count
  · rw [visibility_append, visibilityAfter_of_ne hne, h.visible]
  · obtain ⟨sent, hsent, hm⟩ := h.sent
    exact ⟨sent, List.mem_append_left _ hsent, hm⟩

/-! ## An edit of one message -/

/-- What is left of an edited message, and the entry of the edit. -/
structure EditOf (parameters : Parameters) (l t : Ledger) (m : StoredMessage) (kept : Option StoredMessage) (e : Entry) :
    Prop where
  history : t.history = l.history ++ [e]
  about : e.about = m.messageId
  unsent : e.sentId? = none
  keptId : ∀ m' ∈ kept, m'.messageId = m.messageId
  agrees : ∀ m' ∈ kept, Agrees (l.history ++ [e]) m'
  leaves : e.leaves m.messageId = kept.isNone
  nextUuid : l.nextUuid ≤ t.nextUuid
  handle : ∀ handle ∈ e.handle?, handle < t.nextUuid
  letters : ∀ id, t.deadLetters.countP (·.messageId = id) + (if e.expires id then 1 else 0) =
    l.deadLetters.countP (·.messageId = id) + (if e.deadLetters id then 1 else 0)
  ok : EntryOk parameters l.history e

theorem countP_append_singleton {p : Entry → Bool} :
    (history ++ [e]).countP p = history.countP p + if p e then 1 else 0 := by
  rw [List.countP_append, List.countP_singleton]

/-- An edited message stays, or leaves the queue. -/
theorem EditOf.places {t : Ledger} {kept : Option StoredMessage} (id : Uuid)
    (he : EditOf parameters l t m kept e) :
    (a ++ kept.toList ++ b).countP (·.messageId = id) + (if e.leaves id then 1 else 0) =
      (a ++ m :: b).countP (·.messageId = id) := by
  simp only [List.countP_append, List.countP_cons]
  by_cases hid : m.messageId = id
  · subst hid
    cases kept with
    | none => simp [he.leaves, Nat.add_assoc]
    | some m' =>
      simp [he.leaves, he.keptId m' rfl]
      omega
  · rw [leaves_of_ne (he.about ▸ hid)]
    cases kept with
    | none => simp [hid]
    | some m' => simp [he.keptId m' rfl, hid]

theorem EditOf.order {t : Ledger} {kept : Option StoredMessage}
    (he : EditOf parameters l t m kept e) :
    ((a ++ kept.toList ++ b).map (·.messageId)).Sublist ((a ++ m :: b).map (·.messageId)) := by
  rw [List.append_assoc, List.map_append, List.map_append, List.map_append, List.map_cons]
  refine (List.Sublist.refl _).append ?_
  cases kept with
  | none => exact List.sublist_cons_self _ _
  | some m' =>
    rw [← he.keptId m' rfl]
    exact List.Sublist.refl _

theorem accounted_edit {t : Ledger} (kept : Option StoredMessage)
    (h : Accounted parameters l) (hat : l.messages = a ++ m :: b)
    (hmessages : t.messages = a ++ kept.toList ++ b)
    (he : EditOf parameters l t m kept e) : Accounted parameters t := by
  have hids : sentIds t.history = sentIds l.history := by
    rw [he.history, sentIds_append, he.unsent]
    exact List.append_nil _
  refine ⟨?_, ?_, ?_, ?_, ?_, fun id => ?_, fun id => ?_, fun x hx => ?_, ?_⟩
  · rw [hids]
    exact fun id hid => Nat.lt_of_lt_of_le (h.freshIds id hid) he.nextUuid
  · rw [he.history, handles_append]
    intro handle hmem
    rcases List.mem_append.mp hmem with hold | hnew
    · exact Nat.lt_of_lt_of_le (h.freshHandles handle hold) he.nextUuid
    · exact he.handle handle (by simpa using hnew)
  · rw [hids]
    exact h.sentOrder
  · rw [hids, he.history]
    intro other hother
    rcases List.mem_append.mp hother with hold | hnew
    · exact h.about other hold
    · rw [List.mem_singleton.mp hnew, he.about]
      exact h.order.subset (List.mem_map.mpr ⟨m, by simp [hat], rfl⟩)
  · rw [hids, hmessages]
    exact he.order.trans (hat ▸ h.order)
  · have hplaces := h.places id
    rw [hat, ← he.places id] at hplaces
    rw [hids, hmessages, he.history, countP_append_singleton, ← hplaces]
    omega
  · have hletters := h.letters id
    have hchange := he.letters id
    rw [he.history, countP_append_singleton, countP_append_singleton]
    omega
  · rw [he.history]
    rw [hmessages] at hx
    have hother : x ∈ a ++ b → Agrees (l.history ++ [e]) x := fun hab =>
      (h.stored x (by
        rw [hat]
        simp only [List.mem_append, List.mem_cons] at hab ⊢
        tauto)).append_of_ne (he.about ▸ h.ne_of_split hat hab)
    simp only [List.mem_append, Option.mem_toList] at hx
    rcases hx with (hx | hx) | hx
    · exact hother (List.mem_append_left _ hx)
    · exact he.agrees x hx
    · exact hother (List.mem_append_right _ hx)
  · rw [he.history]
    exact lawful_append h.lawful he.ok

/-! ## Every edit -/

theorem Agrees.received (h : Agrees history m) (handle : Uuid) (now : Rat) :
    Agrees (history ++ [.received m.messageId handle now (delivered parameters m handle now).visibleAt])
      (delivered parameters m handle now) := by
  obtain ⟨sent, hsent, hm⟩ := h.sent
  refine ⟨by simp [delivered, handleAfter], ?_, by simp [delivered, visibilityAfter],
    sent, List.mem_append_left _ hsent, ⟨hm.1, hm.2, hm.3, hm.4, hm.5, hm.6⟩⟩
  rw [receiveCount_append]
  simpa [delivered, Entry.receives] using h.count

theorem Agrees.changed (h : Agrees history m) (visibleAt : Rat) :
    Agrees (history ++ [.visibilityChanged m.messageId visibleAt]) { m with visibleAt } := by
  obtain ⟨sent, hsent, hm⟩ := h.sent
  refine ⟨?_, ?_, by simp [visibilityAfter],
    sent, List.mem_append_left _ hsent, ⟨hm.1, hm.2, hm.3, hm.4, hm.5, hm.6⟩⟩
  · simpa [handleAfter] using h.handle
  · rw [receiveCount_append]
    simpa [Entry.receives] using h.count

/-- A message that wasn't sent yet has no history. -/
theorem agrees_of_sent {m : StoredMessage} (h : ∀ e ∈ history, e.about ≠ m.messageId)
    (count : m.receiveCount = 0) (handle : m.receiptHandle = none) :
    Agrees (history ++ [.sent m]) m := by
  refine ⟨?_, ?_, by simp [visibilityAfter], m, by simp, ⟨rfl, rfl, rfl, rfl, rfl, rfl⟩⟩
  · rw [latestHandle_append, handle]
    exact latestHandle_eq_none h
  · rw [receiveCount_append, count, receiveCount, List.countP_eq_zero.mpr]
    · rfl
    · intro e he
      rw [receives_of_ne (h e he)]
      exact Bool.false_ne_true

theorem accounted_send (h : Accounted parameters l) (fresh : m.messageId = l.nextUuid)
    (count : m.receiveCount = 0) (handle : m.receiptHandle = none) :
    Accounted parameters { l with
      messages := l.messages ++ [m]
      nextUuid := l.nextUuid + 1
      history := l.history ++ [.sent m] } := by
  have hnew : m.messageId ∉ sentIds l.history := fun hmem =>
    Nat.lt_irrefl _ (fresh ▸ h.freshIds _ hmem)
  have habout : ∀ e ∈ l.history, e.about ≠ m.messageId := fun e he heq =>
    hnew (heq ▸ h.about e he)
  have hids : sentIds (l.history ++ [.sent m]) = sentIds l.history ++ [m.messageId] := by
    rw [sentIds_append]
    rfl
  refine ⟨?_, ?_, ?_, ?_, ?_, fun id => ?_, fun id => ?_, fun x hx => ?_,
    lawful_append h.lawful trivial⟩
  · rw [hids]
    intro id hid
    rcases List.mem_append.mp hid with hold | hlast
    · exact Nat.lt_succ_of_lt (h.freshIds id hold)
    · rw [List.mem_singleton.mp hlast, fresh]
      exact Nat.lt_succ_self _
  · rw [handles_append]
    intro handle hmem
    exact Nat.lt_succ_of_lt (h.freshHandles handle (by simpa [Entry.handle?] using hmem))
  · rw [hids]
    refine List.pairwise_append.mpr ⟨h.sentOrder, List.pairwise_singleton _ _, ?_⟩
    intro id hid other hother
    rw [List.mem_singleton.mp hother, fresh]
    exact h.freshIds id hid
  · rw [hids]
    intro e he
    rcases List.mem_append.mp he with hold | hlast
    · exact List.mem_append_left _ (h.about e hold)
    · rw [List.mem_singleton.mp hlast]
      exact List.mem_append_right _ (List.mem_singleton_self _)
  · rw [hids, List.map_append]
    exact h.order.append (List.Sublist.refl _)
  · have hplaces := h.places id
    rw [hids, countP_append_singleton, List.countP_append, List.count_append]
    simp only [List.countP_singleton, List.count_singleton, Entry.leaves, decide_eq_true_eq,
      beq_iff_eq, Bool.false_eq_true, if_false]
    omega
  · have hletters := h.letters id
    rw [countP_append_singleton, countP_append_singleton]
    exact hletters
  · rcases List.mem_append.mp hx with hold | hlast
    · refine (h.stored x hold).append_of_ne fun heq => hnew ?_
      exact h.order.subset (List.mem_map.mpr ⟨x, hold, heq.symm⟩)
    · rw [List.mem_singleton.mp hlast]
      exact agrees_of_sent habout count handle

/-- The dead-letter queue forgets a message that has left the queue. -/
theorem accounted_forget {a b : List StoredDeadLetter} {d : StoredDeadLetter}
    (h : Accounted parameters l) (hat : l.deadLetters = a ++ d :: b) :
    Accounted parameters { l with
      deadLetters := a ++ b
      history := l.history ++ [.letterExpired d.messageId] } := by
  have hids : sentIds (l.history ++ [.letterExpired d.messageId]) = sentIds l.history := by
    rw [sentIds_append]
    exact List.append_nil _
  have hsent : d.messageId ∈ sentIds l.history := by
    have hletters := h.letters d.messageId
    have hpos : 0 < l.history.countP (Entry.deadLetters d.messageId) := by
      rw [← hletters, hat, List.countP_append, List.countP_cons]
      simp only [decide_true, if_true]
      omega
    obtain ⟨e, he, hd⟩ := List.countP_pos_iff.mp hpos
    cases e <;> simp only [Entry.deadLetters, Bool.false_eq_true, decide_eq_true_eq] at hd
    exact hd ▸ h.about _ he
  refine ⟨?_, ?_, ?_, ?_, ?_, fun id => ?_, fun id => ?_, fun x hx => ?_,
    lawful_append h.lawful trivial⟩
  · rw [hids]
    exact h.freshIds
  · rw [handles_append]
    exact fun handle hmem => h.freshHandles handle (by simpa [Entry.handle?] using hmem)
  · rw [hids]
    exact h.sentOrder
  · rw [hids]
    intro e he
    rcases List.mem_append.mp he with hold | hlast
    · exact h.about e hold
    · rw [List.mem_singleton.mp hlast]
      exact hsent
  · rw [hids]
    exact h.order
  · rw [hids, countP_append_singleton]
    exact h.places id
  · have hletters := h.letters id
    rw [hat] at hletters
    rw [countP_append_singleton, countP_append_singleton]
    simp only [List.countP_append, List.countP_cons, Entry.expires, Entry.deadLetters,
      decide_eq_true_eq, Bool.false_eq_true, if_false] at hletters ⊢
    omega
  · obtain ⟨sent, hs, hm⟩ := (h.stored x hx).sent
    refine ⟨?_, ?_, ?_, sent, List.mem_append_left _ hs, hm⟩
    · simpa [handleAfter] using (h.stored x hx).handle
    · rw [receiveCount_append]
      simpa [Entry.receives] using (h.stored x hx).count
    · simpa [visibilityAfter] using (h.stored x hx).visible

theorem accounted_step {t : Ledger} (h : Accounted parameters l) (he : Edit parameters l t) :
    Accounted parameters t := by
  have hagrees : ∀ {a b : List StoredMessage} {m : StoredMessage}, l.messages = a ++ m :: b →
      Agrees l.history m := fun hat => h.stored _ (hat ▸ List.mem_append_right _ List.mem_cons_self)
  cases he with
  | send fresh count handle => exact accounted_send h fresh count handle
  | @deliver a b m now hat visible attempts =>
    have hm := hagrees hat
    refine accounted_edit (some (delivered parameters m l.nextUuid now)) h hat (by simp) ⟨rfl, rfl, rfl, ?_, ?_, ?_, ?_, ?_, ?_, ?_⟩
    · rintro m' ⟨⟩
      rfl
    · rintro m' ⟨⟩
      exact hm.received l.nextUuid now
    · rfl
    · exact Nat.le_succ _
    · rintro handle ⟨⟩
      exact Nat.lt_succ_self _
    · exact fun id => rfl
    · refine ⟨fun hmem => Nat.lt_irrefl _ (h.freshHandles _ hmem), fun v hv => ?_,
        fun options hoptions => ?_⟩
      · rw [hm.visible, Option.some.injEq] at hv
        exact hv ▸ visible
      · rw [hm.count]
        exact attempts options hoptions
  | @change a b m visibleAt hat =>
    have hm := hagrees hat
    refine accounted_edit (some { m with visibleAt }) h hat (by simp) ⟨rfl, rfl, rfl, ?_, ?_, rfl, Nat.le_refl _, ?_, fun id => rfl, trivial⟩
    · rintro m' ⟨⟩
      rfl
    · rintro m' ⟨⟩
      exact hm.changed visibleAt
    · rintro handle ⟨⟩
  | @delete a b m handle hat receipt =>
    have hm := hagrees hat
    refine accounted_edit none h hat (by simp) ⟨rfl, rfl, rfl, ?_, ?_, ?_, Nat.le_refl _,
      ?_, fun id => rfl, ?_⟩
    · rintro m' ⟨⟩
    · rintro m' ⟨⟩
    · simp [Entry.leaves]
    · rintro handle ⟨⟩
    · exact hm.handle.trans receipt
  | @drop a b m now hat expired =>
    obtain ⟨sent, hsent, hm⟩ := (hagrees hat).sent
    refine accounted_edit none h hat (by simp) ⟨rfl, rfl, rfl, ?_, ?_, ?_, Nat.le_refl _,
      ?_, fun id => rfl, ?_⟩
    · rintro m' ⟨⟩
    · rintro m' ⟨⟩
    · simp [Entry.leaves]
    · rintro handle ⟨⟩
    · exact ⟨sent, hsent, hm.messageId.symm, by rwa [getExpireTime, ← hm.sentAt]⟩
  | @bury a b m d hat letter attempts =>
    have hm := hagrees hat
    refine accounted_edit none h hat (by simp) ⟨rfl, rfl, rfl, ?_, ?_, ?_, Nat.le_refl _,
      ?_, fun id => ?_, ?_⟩
    · rintro m' ⟨⟩
    · rintro m' ⟨⟩
    · simp [Entry.leaves]
    · rintro handle ⟨⟩
    · simp [List.countP_append, letter, Entry.expires, Entry.deadLetters]
    · obtain ⟨options, hoptions, hmax⟩ := attempts
      exact ⟨options, hoptions, by rw [hm.count]; exact hmax⟩
  | forget hat => exact accounted_forget h hat

theorem accounted_edits {t : Ledger} (h : Accounted parameters l)
    (he : Edited parameters l t) : Accounted parameters t := by
  induction he with
  | refl => exact h
  | tail _ hstep ih => exact accounted_step ih hstep

theorem accounted_init (clock : Rat) :
    Accounted parameters ((createLocalQueue parameters clock).init.ledger []) := by
  refine ⟨?_, ?_, List.Pairwise.nil, ?_, List.Sublist.refl _, fun _ => rfl, fun _ => rfl, ?_, ?_⟩
  · exact fun id hid => absurd hid List.not_mem_nil
  · exact fun handle h => absurd h List.not_mem_nil
  · exact fun e he => absurd he List.not_mem_nil
  · exact fun m hm => absurd hm List.not_mem_nil
  · intro before e after heq
    cases before <;> cases heq

theorem accounted_of_reachable {clock : Rat} {q : LocalQueue}
    (h : (createLocalQueue parameters clock).Reachable q) : Accounted parameters (q.ledger []) := by
  refine h.invariant (I := fun q => Accounted parameters (q.ledger [])) (accounted_init clock) ?_
  rintro q event t hq ⟨⟩
  exact accounted_edits hq (edited_step q event)

end Ez4.Local.Edits

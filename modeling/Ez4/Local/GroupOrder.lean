import Ez4.Local.Places

/-! # A local queue delivers each message group in order

In the loop of `receiveMessages` a group is blocked by its messages in flight
and by the first one that's passed over, so what is returned of a group comes
after everything of that group that is still in the queue. -/
namespace Ez4.Local.GroupOrder
open Ez4.Library Ez4.Queue.Messages Ez4.Local.Queue Ez4.Local.Queue.LocalQueue Ez4.Local.Edits
  Ez4.Local.Places Ez4.Local.Deduplication

variable {parameters : Parameters} {q : LocalQueue} {now : Rat} {maxMessages : Nat}

/-! ## The loop -/

/-- The message was returned before the place `k`. -/
def ReturnedBefore (r : Receiving) (k : Nat) (id : Uuid) : Prop :=
  ∃ k' other, k' < k ∧ r.receivedMessages[k']? = some other ∧ other.messageId = id

/-- What the loop did with the messages `done` of all messages. -/
structure InOrder (now : Rat) (maxMessages : Nat) (all done : List StoredMessage)
    (r : Receiving) : Prop where
  inFlight : ∀ m ∈ all, ∀ g, m.groupId = some g → isInFlight m now = true → g ∈ r.blockedGroups
  /-- A message that stayed ends the loop, or blocks its group. -/
  passed : ∀ m ∈ done, ∀ g, m.groupId = some g → maxMessages ≤ r.receivedMessages.length ∨
    g ∈ r.blockedGroups ∨ ReturnedBefore r r.receivedMessages.length m.messageId ∨
    .deadLettered m.messageId ∈ r.queue.history
  results : ∀ k returned g, r.receivedMessages[k]? = some returned → returned.groupId = some g →
    (∀ m ∈ all, m.groupId = some g → isInFlight m now = false) ∧
    ∃ before m after, all = before ++ m :: after ∧ m.messageId = returned.messageId ∧
      ∀ x ∈ before, x.groupId = some g → ReturnedBefore r k x.messageId ∨
        .deadLettered x.messageId ∈ r.queue.history

variable {all done rest : List StoredMessage} {m : StoredMessage} {r t : Receiving}

/-- The loop went on to `t`: it returned, blocked and wrote more. -/
structure Further (r t : Receiving) : Prop where
  received : r.receivedMessages <+: t.receivedMessages
  blocked : ∀ g ∈ r.blockedGroups, g ∈ t.blockedGroups
  history : ∀ e ∈ r.queue.history, e ∈ t.queue.history

theorem ReturnedBefore.further {k k' : Nat} {id : Uuid} (h : ReturnedBefore r k id)
    (hf : Further r t) (hk : k ≤ k') : ReturnedBefore t k' id := by
  obtain ⟨i, other, hi, hother, hid⟩ := h
  obtain ⟨more, heq⟩ := hf.received
  refine ⟨i, other, Nat.lt_of_lt_of_le hi hk, ?_, hid⟩
  rw [← heq, List.getElem?_append_left (List.getElem?_eq_some_iff.mp hother).1, hother]

/-- A turn of the loop after which its message stayed or was moved. -/
theorem InOrder.further (h : InOrder now maxMessages all done r) (hf : Further r t)
    (hsame : t.receivedMessages = r.receivedMessages)
    (hm : ∀ g, m.groupId = some g → maxMessages ≤ r.receivedMessages.length ∨
      g ∈ t.blockedGroups ∨ .deadLettered m.messageId ∈ t.queue.history) :
    InOrder now maxMessages all (done ++ [m]) t := by
  refine ⟨fun x hx g hg hin => hf.blocked g (h.inFlight x hx g hg hin), fun x hx g hg => ?_,
    fun k returned g hk hg => ?_⟩
  · rcases List.mem_append.mp hx with hx | hx
    · rcases h.passed x hx g hg with hmax | hblocked | hreturned | hmoved
      · exact .inl (hsame ▸ hmax)
      · exact .inr (.inl (hf.blocked g hblocked))
      · exact .inr (.inr (.inl (hreturned.further hf (hsame ▸ Nat.le_refl _))))
      · exact .inr (.inr (.inr (hf.history _ hmoved)))
    · rw [List.mem_singleton.mp hx] at hg ⊢
      rcases hm g hg with hmax | hblocked | hmoved
      · exact .inl (hsame ▸ hmax)
      · exact .inr (.inl hblocked)
      · exact .inr (.inr (.inr hmoved))
  · obtain ⟨hfree, before, x, after, hall, hid, hbefore⟩ := h.results k returned g (hsame ▸ hk) hg
    refine ⟨hfree, before, x, after, hall, hid, fun y hy hyg => ?_⟩
    rcases hbefore y hy hyg with hreturned | hmoved
    · exact .inl (hreturned.further hf (Nat.le_refl k))
    · exact .inr (hf.history _ hmoved)

theorem further_deliver : Further r (r.deliver parameters m now) where
  received := ⟨_, rfl⟩
  blocked _ hg := hg
  history _ he := List.mem_append_left _ he

/-- A turn of the loop that returned its message. -/
theorem InOrder.deliver (h : InOrder now maxMessages all done r) (hall : all = done ++ m :: rest)
    (hmax : ¬ maxMessages ≤ r.receivedMessages.length)
    (hfree : ∀ g, m.groupId = some g → g ∉ r.blockedGroups) :
    InOrder now maxMessages all (done ++ [m]) (r.deliver parameters m now) := by
  have hf : Further r (r.deliver parameters m now) := further_deliver
  have hlast : (r.deliver parameters m now).receivedMessages =
      r.receivedMessages ++ [receivedMessage m r.queue.nextUuid] := rfl
  have hlength : (r.deliver parameters m now).receivedMessages.length =
      r.receivedMessages.length + 1 := by rw [hlast, List.length_append, List.length_singleton]
  refine ⟨fun x hx g hg hin => h.inFlight x hx g hg hin, fun x hx g hg => ?_,
    fun k returned g hk hg => ?_⟩
  · rcases List.mem_append.mp hx with hx | hx
    · rcases h.passed x hx g hg with hmax' | hblocked | hreturned | hmoved
      · exact absurd hmax' hmax
      · exact .inr (.inl hblocked)
      · exact .inr (.inr (.inl (hreturned.further hf (by omega))))
      · exact .inr (.inr (.inr (hf.history _ hmoved)))
    · rw [List.mem_singleton.mp hx]
      refine .inr (.inr (.inl ⟨r.receivedMessages.length, receivedMessage m r.queue.nextUuid,
        by omega, ?_, rfl⟩))
      rw [hlast, List.getElem?_append_right (Nat.le_refl _), Nat.sub_self]
      rfl
  · rw [hlast, List.getElem?_append] at hk
    split at hk
    · obtain ⟨hfree, before, x, after, hsplit, hid, hbefore⟩ := h.results k returned g hk hg
      refine ⟨hfree, before, x, after, hsplit, hid, fun y hy hyg => ?_⟩
      rcases hbefore y hy hyg with hreturned | hmoved
      · exact .inl (hreturned.further hf (Nat.le_refl k))
      · exact .inr (hf.history _ hmoved)
    · rename_i hk'
      rw [List.getElem?_singleton] at hk
      split at hk
      · cases hk
        refine ⟨fun x hx hxg => ?_, done, m, rest, hall, rfl, fun y hy hyg => ?_⟩
        · by_contra hin
          exact hfree g hg (h.inFlight x hx g hxg (by simpa using hin))
        · rcases h.passed y hy g hyg with hmax' | hblocked | hreturned | hmoved
          · exact absurd hmax' hmax
          · exact absurd hblocked (hfree g hg)
          · exact .inl (hreturned.further hf (by omega))
          · exact .inr (hf.history _ hmoved)
      · cases hk

theorem inOrder_visit (hfifo : parameters.fifoMode = true) (hall : all = done ++ m :: rest)
    (h : InOrder now maxMessages all done r) :
    InOrder now maxMessages all (done ++ [m]) (r.visit parameters now maxMessages m) := by
  have hkeep : Further r (r.keep m) := ⟨List.prefix_rfl, fun _ hg => hg, fun _ he => he⟩
  have hgroup : orderedGroup parameters m = m.groupId := by simp [orderedGroup, hfifo]
  unfold Receiving.visit
  dsimp only
  split
  · rename_i hmax
    exact h.further hkeep rfl fun _ _ => .inl hmax
  · rename_i hmax
    split
    · rename_i hblocked
      refine h.further hkeep rfl fun g hg => .inr (.inl ?_)
      simpa [Receiving.isBlocked, hgroup, hg, Receiving.keep] using hblocked
    · rename_i hblocked
      have hfree : ∀ g, m.groupId = some g → g ∉ r.blockedGroups := by
        intro g hg
        simpa [Receiving.isBlocked, hgroup, hg] using hblocked
      split
      · refine h.further ⟨List.prefix_rfl, fun _ hg => List.mem_append_left _ hg, fun _ he => he⟩
          rfl fun g hg => .inr (.inl ?_)
        simp [Receiving.block, Receiving.keep, hgroup, hg]
      · split
        · split
          · exact h.further ⟨List.prefix_rfl, fun _ hg => hg,
              fun _ he => List.mem_append_left _ he⟩ rfl fun _ _ => .inr (.inr (by
                simp [Receiving.moveToDeadLetter]))
          · exact h.deliver hall hmax hfree
        · exact h.deliver hall hmax hfree

theorem inOrder_visits (hfifo : parameters.fifoMode = true) :
    ∀ (rest done : List StoredMessage) (r : Receiving), all = done ++ rest →
      InOrder now maxMessages all done r →
      InOrder now maxMessages all all
        (rest.foldl (fun r m => r.visit parameters now maxMessages m) r) := by
  intro rest
  induction rest with
  | nil =>
    intro done r hall h
    rw [List.append_nil] at hall
    exact hall ▸ h
  | cons m rest ih =>
    intro done r hall h
    exact ih (done ++ [m]) _ (by simpa using hall) (inOrder_visit hfifo hall h)

theorem inOrder_receiveLoop (hfifo : parameters.fifoMode = true) (q : LocalQueue)
    (maxMessages : Nat) :
    InOrder q.clock maxMessages (q.dropExpiredMessages parameters q.clock).messages
      (q.dropExpiredMessages parameters q.clock).messages
      (q.receiveLoop parameters maxMessages) := by
  refine inOrder_visits hfifo _ [] _ rfl ⟨fun m hm g hg hin => ?_,
    fun m hm => absurd hm List.not_mem_nil, fun k returned g hk => ?_⟩
  · simp only [startReceiving, inFlightGroups, hfifo, if_true, List.mem_filterMap,
      List.mem_filter]
    exact ⟨m, ⟨hm, hin⟩, hg⟩
  · simp [startReceiving] at hk

/-! ## Every message of the group -/

/-- The message was deleted, dropped or moved to the dead-letter queue. -/
def HasLeft (history : List Entry) (id : Uuid) : Prop :=
  ∃ e ∈ history, Entry.leaves id e = true

theorem sent_unique (h : Accounted parameters (q.ledger [])) {a b : StoredMessage}
    (ha : .sent a ∈ q.history) (hb : .sent b ∈ q.history) (hid : a.messageId = b.messageId) :
    a = b := by
  have hcount : q.history.countP (Entry.sends b.messageId) ≤ 1 := by
    rw [countP_sends]
    exact List.nodup_iff_count_le_one.mp (h.sentOrder.imp Nat.ne_of_lt) b.messageId
  have heq := eq_of_countP_one hcount ha hb (by simp [Entry.sends, hid]) (by simp [Entry.sends])
  exact Entry.sent.inj heq

/-- A message that was sent is in the queue or has left. -/
theorem stored_or_left (h : Accounted parameters (q.ledger [])) {sent : StoredMessage}
    (hs : .sent sent ∈ q.history) :
    (∃ m ∈ q.messages, SentAs sent m ∧ Agrees q.history m) ∨ HasLeft q.history sent.messageId := by
  obtain ⟨place, hplace, -⟩ := one_place h (mem_sentIds.mpr ⟨sent, hs, rfl⟩)
  by_cases hqueue : place = .queue
  · subst hqueue
    obtain ⟨m, hm, hid⟩ := hplace
    have hagrees : Agrees q.history m := h.stored m (by simpa [ledger] using hm)
    obtain ⟨other, hother, hsentAs⟩ := hagrees.sent
    have heq := sent_unique h hother hs (hsentAs.messageId.symm.trans hid)
    exact .inl ⟨m, hm, heq ▸ hsentAs, hagrees⟩
  · obtain ⟨e, he, hleaves, -⟩ := entry_of_isAt hplace hqueue
    exact .inr ⟨e, he, hleaves⟩

theorem HasLeft.later {history more : List Entry} {id : Uuid} (h : HasLeft history id)
    (hmore : ∀ e ∈ history, e ∈ more) : HasLeft more id := by
  obtain ⟨e, he, hleaves⟩ := h
  exact ⟨e, hmore e he, hleaves⟩

/-- What the receive loop goes through, or else has left. -/
theorem looped_or_left (h : Accounted parameters (q.ledger [])) {sent : StoredMessage}
    (hs : .sent sent ∈ q.history) (maxMessages : Nat) :
    (∃ m ∈ (q.dropExpiredMessages parameters q.clock).messages, SentAs sent m ∧
      Agrees q.history m) ∨
      HasLeft (q.receiveMessages parameters maxMessages).1.history sent.messageId := by
  have hmore : ∀ e ∈ q.history, e ∈ (q.receiveMessages parameters maxMessages).1.history :=
    fun e => (continues_receiveMessages q maxMessages).mem
  rcases stored_or_left h hs with ⟨m, hm, hsentAs, hagrees⟩ | hleft
  · by_cases hexpired : getExpireTime parameters m ≤ q.clock
    · refine .inr ⟨.dropped m.messageId q.clock, ?_, by simp [Entry.leaves, hsentAs.messageId]⟩
      refine (continues_visits q.clock maxMessages _ (q.startReceiving parameters)).mem ?_
      simp only [startReceiving, dropExpiredMessages, List.mem_append, List.mem_map,
        List.mem_filter]
      exact .inr ⟨m, ⟨hm, by simpa using hexpired⟩, rfl⟩
    · exact .inl ⟨m, List.mem_filter.mpr ⟨hm, by simpa using hexpired⟩, hsentAs, hagrees⟩
  · exact .inr (hleft.later hmore)

/-- Of two messages in the list, the one that was sent before is before. -/
theorem mem_before (h : Accounted parameters (q.ledger []))
    {before after : List StoredMessage} {x m : StoredMessage}
    (hall : (q.dropExpiredMessages parameters q.clock).messages = before ++ m :: after)
    (hx : x ∈ (q.dropExpiredMessages parameters q.clock).messages)
    (hsent : [x.messageId, m.messageId].Sublist (sentIds q.history)) : x ∈ before := by
  have hlt : x.messageId < m.messageId := by
    have := h.sentOrder.sublist hsent
    simpa using this
  have hsublist : ((before ++ m :: after).map (·.messageId)).Sublist (sentIds q.history) := by
    have hqueue : (q.messages.map (·.messageId)).Sublist (sentIds q.history) := by
      simpa [ledger] using h.order
    rw [← hall]
    exact (List.filter_sublist.map _).trans hqueue
  have hpairwise := h.sentOrder.sublist hsublist
  rw [List.map_append, List.map_cons, List.pairwise_append] at hpairwise
  rw [hall] at hx
  rcases List.mem_append.mp hx with hx | hx
  · exact hx
  · rcases List.mem_cons.mp hx with rfl | hx
    · exact absurd hlt (Nat.lt_irrefl _)
    · have := List.rel_of_pairwise_cons hpairwise.2.1
        (List.mem_map.mpr ⟨x, hx, rfl⟩ : x.messageId ∈ after.map (·.messageId))
      exact absurd this (Nat.lt_asymm hlt)

/-- **The local queue delivers each message group in order.** When a receive
returns a message of a group, no message of the group that was returned before
is still in flight, and every one that was sent before has left the queue or
was returned earlier in the same call. -/
theorem createLocalQueue_group_order {clock : Rat} (hfifo : parameters.fifoMode = true)
    (h : (createLocalQueue parameters clock).Reachable q) (maxMessages : Nat) :
    ∀ (k : Nat) (returned : ReceivedMessage) (g : String),
      (q.receiveMessages parameters maxMessages).2[k]? = some returned →
      returned.groupId = some g →
      (∀ sent, .sent sent ∈ q.history → sent.groupId = some g →
        (latestHandle q.history sent.messageId).isSome = true →
        (∀ v, visibility q.history sent.messageId = some v → q.clock < v) →
        HasLeft (q.receiveMessages parameters maxMessages).1.history sent.messageId) ∧
      ∀ sent, .sent sent ∈ q.history → sent.groupId = some g →
        [sent.messageId, returned.messageId].Sublist (sentIds q.history) →
        HasLeft (q.receiveMessages parameters maxMessages).1.history sent.messageId ∨
          ∃ k' other, k' < k ∧ (q.receiveMessages parameters maxMessages).2[k']? = some other ∧
            other.messageId = sent.messageId := by
  intro k returned g hk hg
  have haccounted := accounted_of_reachable h
  obtain ⟨hfree, before, m, after, hall, hid, hbefore⟩ :=
    (inOrder_receiveLoop hfifo q maxMessages).results k returned g hk hg
  refine ⟨fun sent hs hsg hhandle hvisible => ?_, fun sent hs hsg horder => ?_⟩
  · rcases looped_or_left haccounted hs maxMessages with ⟨x, hx, hsentAs, hagrees⟩ | hleft
    · have hidle := hfree x hx (hsentAs.groupId.trans hsg)
      have hlater : q.clock < x.visibleAt :=
        hvisible x.visibleAt (hsentAs.messageId ▸ hagrees.visible)
      have hreceipt : x.receiptHandle.isSome = true := by
        rw [← hagrees.handle, hsentAs.messageId]
        exact hhandle
      simp [isInFlight, hreceipt, hlater] at hidle
    · exact hleft
  · rcases looped_or_left haccounted hs maxMessages with ⟨x, hx, hsentAs, -⟩ | hleft
    · rw [← hsentAs.messageId, ← hid] at horder
      have hx := mem_before haccounted hall hx horder
      rcases hbefore x hx (hsentAs.groupId.trans hsg) with hreturned | hmoved
      · obtain ⟨k', other, hk', hother, hid'⟩ := hreturned
        exact .inr ⟨k', other, hk', hother, hid'.trans hsentAs.messageId⟩
      · exact .inl ⟨_, hmoved, by simp [Entry.leaves, hsentAs.messageId]⟩
    · exact .inl hleft

/-- Two messages of a group, of which the first one was received and is visible again. -/
def groupedEvents : List QueueEvent :=
  [.sendMessage { body := "x", attributes := { traceId := "t" }, groupId := some "g" },
    .sendMessage { body := "y", attributes := { traceId := "t" }, groupId := some "g" },
    .receiveMessages 1, .receiveMessages 1, .changeVisibility 2 (some 0)]

def grouped : LocalQueue :=
  ((createLocalQueue twoAttempts 0).run groupedEvents (createLocalQueue twoAttempts 0).init).getD
    { clock := 0 }

def firstOfGroup : StoredMessage where
  messageId := 0
  body := "x"
  attributes := { traceId := "t" }
  groupId := some "g"
  deduplicationId := none
  sentAt := 0
  visibleAt := 0
  receiveCount := 0

/-- Both are returned; the one that was sent first comes first. -/
theorem grouped_in_order :
    (grouped.receiveMessages twoAttempts 2).2.map (·.messageId) = [0, 1] ∧
      (HasLeft (grouped.receiveMessages twoAttempts 2).1.history 0 ∨
        ∃ k' other, k' < 1 ∧ (grouped.receiveMessages twoAttempts 2).2[k']? = some other ∧
          other.messageId = 0) := by
  have hreach : (createLocalQueue twoAttempts 0).Reachable grouped := ⟨groupedEvents, rfl⟩
  refine ⟨by decide +kernel, ?_⟩
  have h := createLocalQueue_group_order rfl hreach 2 1
    { messageId := 1, receiptHandle := 4, receiveCount := 1, attributes := { traceId := "t" },
      groupId := some "g", body := "y" } "g" (by decide +kernel) rfl
  exact h.2 firstOfGroup (by decide +kernel) rfl (by decide +kernel)

end Ez4.Local.GroupOrder

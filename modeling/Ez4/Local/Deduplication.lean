import Ez4.Local.History

/-! # What a local queue accepts

A message is refused when one of its group and deduplication id was accepted
within the deduplication interval, and only then. The other operations send
nothing. -/
namespace Ez4.Local.Deduplication
open Ez4.Library Ez4.Queue.Messages Ez4.Local.Queue Ez4.Local.Queue.LocalQueue

variable {parameters : Parameters} {q t u : LocalQueue}

/-! ## Operations that send nothing -/

/-- `t` is `q` after something was done with the messages that were there. -/
structure Continues (q t : LocalQueue) : Prop where
  clock : t.clock = q.clock
  deduplications : t.deduplications = q.deduplications
  history : ∃ added, t.history = q.history ++ added ∧ ∀ e ∈ added, e.sentId? = none

theorem Continues.refl (q : LocalQueue) : Continues q q :=
  ⟨rfl, rfl, [], (List.append_nil _).symm, fun _ h => absurd h List.not_mem_nil⟩

theorem Continues.trans (h : Continues q t) (h' : Continues t u) : Continues q u := by
  obtain ⟨added, heq, hadded⟩ := h.history
  obtain ⟨more, heq', hmore⟩ := h'.history
  refine ⟨h'.clock.trans h.clock, h'.deduplications.trans h.deduplications, added ++ more,
    by rw [heq', heq, List.append_assoc], fun e he => ?_⟩
  rcases List.mem_append.mp he with he | he
  · exact hadded e he
  · exact hmore e he

theorem Continues.one {e : Entry} (clock : t.clock = q.clock)
    (deduplications : t.deduplications = q.deduplications)
    (history : t.history = q.history ++ [e]) (he : e.sentId? = none) : Continues q t :=
  ⟨clock, deduplications, [e], history, fun _ h => List.mem_singleton.mp h ▸ he⟩

theorem Continues.mem (h : Continues q t) {e : Entry} (he : e ∈ q.history) : e ∈ t.history := by
  obtain ⟨added, heq, -⟩ := h.history
  exact heq ▸ List.mem_append_left _ he

theorem Continues.sent (h : Continues q t) {m : StoredMessage} :
    .sent m ∈ t.history ↔ .sent m ∈ q.history := by
  obtain ⟨added, heq, hadded⟩ := h.history
  rw [heq, List.mem_append, or_iff_left]
  exact fun hm => by cases hadded _ hm

theorem continues_dropExpiredMessages (q : LocalQueue) (now : Rat) :
    Continues q (q.dropExpiredMessages parameters now) := by
  refine ⟨rfl, rfl, _, rfl, fun e he => ?_⟩
  obtain ⟨m, -, rfl⟩ := List.mem_map.mp he
  rfl

theorem continues_visit (r : Receiving) (now : Rat) (maxMessages : Nat) (m : StoredMessage) :
    Continues r.queue (r.visit parameters now maxMessages m).queue := by
  have hkeep : Continues r.queue (r.keep m).queue := ⟨rfl, rfl, (Continues.refl _).history⟩
  have hdeliver : Continues r.queue (r.deliver parameters m now).queue := .one rfl rfl rfl rfl
  unfold Receiving.visit
  dsimp only
  split
  · exact hkeep
  · split
    · exact hkeep
    · split
      · exact hkeep
      · split
        · split
          · exact .one rfl rfl rfl rfl
          · exact hdeliver
        · exact hdeliver

theorem continues_visits (now : Rat) (maxMessages : Nat) (messages : List StoredMessage) :
    ∀ r : Receiving, Continues r.queue
      (messages.foldl (fun r m => r.visit parameters now maxMessages m) r).queue := by
  induction messages with
  | nil => exact fun r => .refl _
  | cons m rest ih => exact fun r => (continues_visit r now maxMessages m).trans (ih _)

theorem continues_receiveMessages (q : LocalQueue) (maxMessages : Nat) :
    Continues q (q.receiveMessages parameters maxMessages).1 := by
  have hdrop : Continues q (q.dropExpiredMessages parameters q.clock) :=
    continues_dropExpiredMessages q q.clock
  have hstart : Continues q (q.startReceiving parameters).queue :=
    ⟨hdrop.clock, hdrop.deduplications, hdrop.history⟩
  exact hstart.trans (continues_visits _ _ _ _)

theorem continues_deleteMessage (q : LocalQueue) (handle : Uuid) :
    Continues q (q.deleteMessage handle) := by
  unfold deleteMessage
  split
  · exact .refl q
  · exact .one rfl rfl rfl rfl

theorem continues_changeVisibility (q : LocalQueue) (handle : Uuid) (timeout : Option Rat) :
    Continues q (q.changeVisibility handle timeout).1 := by
  unfold changeVisibility
  dsimp only
  split
  · exact .refl q
  · split
    · exact .refl q
    · split
      · exact .refl q
      · exact .one rfl rfl rfl rfl

theorem continues_getDeadLetterMessages (q : LocalQueue) :
    Continues q q.getDeadLetterMessages := by
  refine ⟨rfl, rfl, _, rfl, fun e he => ?_⟩
  obtain ⟨d, -, rfl⟩ := List.mem_map.mp he
  rfl

/-! ## Duplicates -/

def storedKey (m : StoredMessage) : Option DeduplicationKey :=
  m.deduplicationId.map fun id => (m.groupId, id)

/-- A message of the group and the deduplication id was accepted within the interval. -/
def IsDuplicate (parameters : Parameters) (q : LocalQueue) (message : OutgoingMessage) : Prop :=
  ∃ key m, deduplicationKey parameters message = some key ∧ .sent m ∈ q.history ∧
    storedKey m = some key ∧ q.clock < m.sentAt + deduplicationInterval

/-- The deduplications are those of the messages that were accepted. -/
structure Deduplicated (parameters : Parameters) (q : LocalQueue) : Prop where
  kept : parameters.fifoMode = true → ∀ m key, .sent m ∈ q.history → storedKey m = some key →
    q.clock < m.sentAt + deduplicationInterval →
    (key, m.sentAt + deduplicationInterval) ∈ q.deduplications
  only : ∀ key expireTime, (key, expireTime) ∈ q.deduplications →
    ∃ m, .sent m ∈ q.history ∧ storedKey m = some key ∧
      expireTime = m.sentAt + deduplicationInterval

theorem Deduplicated.continues (h : Deduplicated parameters q) (hc : Continues q t) :
    Deduplicated parameters t := by
  refine ⟨fun hfifo m key hm hkey hlt => ?_, fun key expireTime hmem => ?_⟩
  · rw [hc.deduplications]
    exact h.kept hfifo m key (hc.sent.mp hm) hkey (hc.clock ▸ hlt)
  · obtain ⟨m, hm, hkey, heq⟩ := h.only key expireTime (hc.deduplications ▸ hmem)
    exact ⟨m, hc.sent.mpr hm, hkey, heq⟩

theorem fifoMode_of_key {message : OutgoingMessage} {key : DeduplicationKey}
    (h : deduplicationKey parameters message = some key) : parameters.fifoMode = true := by
  unfold deduplicationKey at h
  split at h
  · assumption
  · cases h

theorem storedKey_storedMessage (hfifo : parameters.fifoMode = true) (q : LocalQueue)
    (message : OutgoingMessage) :
    storedKey (q.storedMessage parameters message) = deduplicationKey parameters message := by
  simp [storedKey, storedMessage, deduplicationKey, hfifo]

/-- The unexpired deduplications have a key when it's that of a duplicate. -/
theorem any_key_iff (h : Deduplicated parameters q) {message : OutgoingMessage}
    {key : DeduplicationKey} (hkey : deduplicationKey parameters message = some key) :
    ((q.deduplications.filter fun (_, expireTime) => ¬ expireTime ≤ q.clock).any
      fun (other, _) => other = key) = true ↔ IsDuplicate parameters q message := by
  simp only [List.any_eq_true, List.mem_filter, decide_eq_true_eq, not_le]
  constructor
  · rintro ⟨⟨other, expireTime⟩, ⟨hmem, hlt⟩, rfl⟩
    obtain ⟨m, hm, hstored, rfl⟩ := h.only _ _ hmem
    exact ⟨other, m, hkey, hm, hstored, hlt⟩
  · rintro ⟨other, m, hother, hm, hstored, hlt⟩
    rw [hkey, Option.some.injEq] at hother
    subst hother
    exact ⟨(key, _), ⟨h.kept (fifoMode_of_key hkey) m key hm hstored hlt, hlt⟩, rfl⟩

theorem sendMessage_accepted (h : Deduplicated parameters q) {message : OutgoingMessage}
    (hnot : ¬ IsDuplicate parameters q message) :
    ∃ deduplications, q.sendMessage parameters message =
      { q with deduplications }.pushMessage parameters message := by
  unfold sendMessage
  split
  · exact ⟨q.deduplications, rfl⟩
  · rename_i key hkey
    dsimp only
    rw [if_neg fun hany => hnot ((any_key_iff h hkey).mp hany)]
    exact ⟨_, rfl⟩

theorem deduplicated_sendMessage (h : Deduplicated parameters q) (message : OutgoingMessage) :
    Deduplicated parameters (q.sendMessage parameters message) := by
  have hfiltered : ∀ key m, .sent m ∈ q.history → storedKey m = some key →
      parameters.fifoMode = true → q.clock < m.sentAt + deduplicationInterval →
      (key, m.sentAt + deduplicationInterval) ∈
        q.deduplications.filter fun (_, expireTime) => ¬ expireTime ≤ q.clock := by
    intro key m hm hkey hfifo hlt
    exact List.mem_filter.mpr ⟨h.kept hfifo m key hm hkey hlt, by simpa using hlt⟩
  have hold : ∀ {m : StoredMessage}, .sent m ∈ (q.pushMessage parameters message).history →
      .sent m ∈ q.history ∨ m = q.storedMessage parameters message := by
    intro m hm
    simpa [pushMessage] using hm
  unfold sendMessage
  split
  · rename_i hkey
    refine ⟨fun hfifo m key hm hstored hlt => ?_, fun key expireTime hmem => ?_⟩
    · rcases hold hm with hm | rfl
      · exact h.kept hfifo m key hm hstored hlt
      · rw [storedKey_storedMessage hfifo, hkey] at hstored
        cases hstored
    · obtain ⟨m, hm, hstored, heq⟩ := h.only key expireTime hmem
      exact ⟨m, List.mem_append_left _ hm, hstored, heq⟩
  · rename_i key hkey
    have hfifo := fifoMode_of_key hkey
    dsimp only
    split
    · refine ⟨fun hfifo m key hm hstored hlt => hfiltered key m hm hstored hfifo hlt,
        fun key expireTime hmem => h.only key expireTime (List.mem_filter.mp hmem).1⟩
    · refine ⟨fun hfifo m other hm hstored hlt => ?_, fun other expireTime hmem => ?_⟩
      · rcases hold hm with hm | rfl
        · exact List.mem_append_left _ (hfiltered other m hm hstored hfifo hlt)
        · rw [storedKey_storedMessage hfifo, hkey, Option.some.injEq] at hstored
          subst hstored
          exact List.mem_append_right _ (List.mem_singleton_self _)
      · rcases List.mem_append.mp hmem with hmem | hmem
        · obtain ⟨m, hm, hstored, heq⟩ := h.only other expireTime (List.mem_filter.mp hmem).1
          exact ⟨m, List.mem_append_left _ hm, hstored, heq⟩
        · cases List.mem_singleton.mp hmem
          exact ⟨q.storedMessage parameters message, List.mem_append_right _
            (List.mem_singleton_self _), (storedKey_storedMessage hfifo q message).trans hkey, rfl⟩

theorem deduplicated_step (h : Deduplicated parameters q) (event : QueueEvent) :
    Deduplicated parameters (q.step parameters event) := by
  cases event with
  | sendMessage message => exact deduplicated_sendMessage h message
  | receiveMessages maxMessages => exact h.continues (continues_receiveMessages q maxMessages)
  | deleteMessage handle => exact h.continues (continues_deleteMessage q handle)
  | changeVisibility handle timeout =>
    exact h.continues (continues_changeVisibility q handle timeout)
  | getDeadLetterMessages => exact h.continues (continues_getDeadLetterMessages q)
  | isEmpty => exact h.continues (continues_dropExpiredMessages q q.clock)
  | wakeUp => exact h.continues (continues_dropExpiredMessages q q.clock)
  | advance milliseconds =>
    refine ⟨fun hfifo m key hm hkey hlt => h.kept hfifo m key hm hkey (lt_of_le_of_lt ?_ hlt),
      h.only⟩
    exact le_add_of_nonneg_right (Nat.cast_nonneg milliseconds)

theorem deduplicated_of_reachable {clock : Rat}
    (h : (createLocalQueue parameters clock).Reachable q) : Deduplicated parameters q := by
  refine h.invariant (I := Deduplicated parameters) ?_ ?_
  · exact ⟨fun _ _ _ hm => absurd hm List.not_mem_nil, fun _ _ hm => absurd hm List.not_mem_nil⟩
  · rintro q event t hq ⟨⟩
    exact deduplicated_step hq event

end Ez4.Local.Deduplication

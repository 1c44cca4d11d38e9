import Mathlib.Algebra.Order.Field.Rat
import Mathlib.Tactic.Linarith
import Ez4.Local.Poller

/-! # What a receive leaves visible

A receive that returns fewer messages than it may leaves nothing visible at
its time. What is visible changes with the time only when a message becomes
visible or expires, and the wake-up timer is due by then. -/
namespace Ez4.Local.Queue
open Ez4.Library Ez4.Queue.Messages LocalQueue

variable {parameters : Parameters} {now : Rat} {max : Nat} {m : StoredMessage} {r s : Receiving}

/-! ## One turn of the loop -/

/-- A message that was received the maximum number of times. -/
def IsSpent (parameters : Parameters) (m : StoredMessage) : Prop :=
  ∃ options, parameters.deadLetter = some options ∧ m.receiveCount ≥ options.maxAttempts

/-- What a turn of the loop does with its message. -/
inductive Turn (parameters : Parameters) (now : Rat) (max : Nat) (m : StoredMessage)
    (r : Receiving) : Receiving → Prop
  | full : max ≤ r.receivedMessages.length → Turn parameters now max m r (r.keep m)
  | blocked : r.isBlocked (orderedGroup parameters m) = true → Turn parameters now max m r (r.keep m)
  | invisible : r.isBlocked (orderedGroup parameters m) = false → m.visibleAt > now →
    Turn parameters now max m r ((r.keep m).block (orderedGroup parameters m))
  | moved (retention : Rat) : r.isBlocked (orderedGroup parameters m) = false →
    m.visibleAt ≤ now → IsSpent parameters m →
    Turn parameters now max m r (r.moveToDeadLetter parameters m now retention)
  | delivered : r.isBlocked (orderedGroup parameters m) = false → m.visibleAt ≤ now →
    Turn parameters now max m r (r.deliver parameters m now)

theorem turn_visit (parameters : Parameters) (now : Rat) (max : Nat) (m : StoredMessage)
    (r : Receiving) : Turn parameters now max m r (r.visit parameters now max m) := by
  unfold Receiving.visit
  dsimp only
  split
  · rename_i hfull
    exact .full hfull
  · split
    · rename_i hblocked
      exact .blocked hblocked
    · rename_i hopen
      have hopen := eq_false_of_ne_true hopen
      split
      · rename_i hinvisible
        exact .invisible hopen hinvisible
      · rename_i hvisible
        split
        · rename_i options hoptions
          split
          · rename_i hspent
            exact .moved _ hopen (not_lt.mp hvisible) ⟨options, hoptions, hspent⟩
          · exact .delivered hopen (not_lt.mp hvisible)
        · exact .delivered hopen (not_lt.mp hvisible)

/-- The loop of `receiveMessages`, over some messages. -/
def visitAll (parameters : Parameters) (now : Rat) (max : Nat) (messages : List StoredMessage)
    (r : Receiving) : Receiving :=
  messages.foldl (fun r m => r.visit parameters now max m) r

theorem Turn.received (h : Turn parameters now max m r s) :
    s.receivedMessages = r.receivedMessages ∨ ∃ message,
      s.receivedMessages = r.receivedMessages ++ [message] := by
  cases h with
  | full | blocked | invisible | moved => exact .inl rfl
  | delivered => exact .inr ⟨_, rfl⟩

theorem length_visitAll_le (messages : List StoredMessage) (r : Receiving) :
    r.receivedMessages.length ≤
      (visitAll parameters now max messages r).receivedMessages.length := by
  induction messages generalizing r with
  | nil => exact Nat.le_refl _
  | cons m rest ih =>
    refine Nat.le_trans ?_ (ih (r.visit parameters now max m))
    rcases (turn_visit parameters now max m r).received with h | ⟨message, h⟩
    · rw [h]
    · rw [h, List.length_append]
      exact Nat.le_add_right _ _

/-- No more messages are received than are asked for. -/
theorem length_visitAll_le_max {messages : List StoredMessage}
    (h : r.receivedMessages.length ≤ max) :
    (visitAll parameters now max messages r).receivedMessages.length ≤ max := by
  induction messages generalizing r with
  | nil => exact h
  | cons m rest ih =>
    refine ih (r := r.visit parameters now max m) ?_
    by_cases hfull : max ≤ r.receivedMessages.length
    · have hkeep : r.visit parameters now max m = r.keep m := if_pos hfull
      rw [hkeep]
      exact h
    · rcases (turn_visit parameters now max m r).received with h' | ⟨message, h'⟩
      · rw [h']
        exact h
      · rw [h', List.length_append, List.length_singleton]
        omega

/-- Whether anything is received does not depend on how much may be. -/
theorem visitAll_eq_nil_iff {other : Nat} (hmax : 1 ≤ max) (hother : 1 ≤ other)
    (messages : List StoredMessage) (hr : r.receivedMessages = []) :
    (visitAll parameters now max messages r).receivedMessages = [] ↔
      (visitAll parameters now other messages r).receivedMessages = [] := by
  induction messages generalizing r with
  | nil => exact Iff.rfl
  | cons m rest ih =>
    have hsame : r.visit parameters now max m = r.visit parameters now other m := by
      have hopen : ∀ {max : Nat}, 1 ≤ max → ¬ max ≤ r.receivedMessages.length := by
        intro max hmax hle
        rw [hr] at hle
        exact absurd (Nat.le_trans hmax hle) (by decide)
      unfold Receiving.visit
      rw [if_neg (hopen hmax), if_neg (hopen hother)]
    by_cases hnone : (r.visit parameters now max m).receivedMessages = []
    · have hrest := ih hnone
      rw [visitAll, visitAll, List.foldl_cons, List.foldl_cons, ← hsame]
      exact hrest
    · have hsome : ∀ n, (visitAll parameters now n rest
          (r.visit parameters now max m)).receivedMessages ≠ [] := by
        intro n hnil
        have hle : (r.visit parameters now max m).receivedMessages.length ≤ (visitAll parameters
            now n rest (r.visit parameters now max m)).receivedMessages.length :=
          length_visitAll_le rest _
        rw [hnil] at hle
        exact hnone (List.length_eq_zero_iff.mp (Nat.le_zero.mp hle))
      have hleft : (visitAll parameters now max (m :: rest) r).receivedMessages ≠ [] := hsome max
      have hright : (visitAll parameters now other (m :: rest) r).receivedMessages ≠ [] := by
        rw [visitAll, List.foldl_cons, ← hsame]
        exact hsome other
      exact iff_of_false hleft hright

/-! ## What is left -/

theorem isBlocked_mono {group : Option String} (h : r.blockedGroups ⊆ s.blockedGroups)
    (hblocked : r.isBlocked group = true) : s.isBlocked group = true := by
  cases group with
  | none => cases hblocked
  | some group =>
    have hmem : group ∈ r.blockedGroups := List.contains_iff_mem.mp hblocked
    exact List.contains_iff_mem.mpr (h hmem)

theorem toList_subset_of_isBlocked {group : Option String} (h : r.isBlocked group = true) :
    group.toList ⊆ r.blockedGroups := by
  cases group with
  | none => simp
  | some group => simpa using List.contains_iff_mem.mp h

/-- A message that is invisible, or of a blocked group, is not received again. -/
theorem visit_hidden (hs : s.receivedMessages = []) (hsub : r.blockedGroups ⊆ s.blockedGroups)
    (h : m.visibleAt > now ∨ r.isBlocked (orderedGroup parameters m) = true) :
    (s.visit parameters now 1 m).receivedMessages = [] ∧
      r.blockedGroups ⊆ (s.visit parameters now 1 m).blockedGroups ∧
      (m.visibleAt > now → (orderedGroup parameters m).toList ⊆
        (s.visit parameters now 1 m).blockedGroups) := by
  have hturn := turn_visit parameters now 1 m s
  generalize s.visit parameters now 1 m = t at hturn
  cases hturn with
  | full hfull =>
    rw [hs] at hfull
    exact absurd hfull (by decide)
  | blocked hblocked => exact ⟨hs, hsub, fun _ => toList_subset_of_isBlocked hblocked⟩
  | invisible _ hinvisible =>
    exact ⟨hs, fun _ hmem => List.mem_append_left _ (hsub hmem),
      fun _ => List.subset_append_right _ _⟩
  | moved _ hopen hvisible | delivered hopen hvisible =>
    rcases h with h | h
    · exact absurd h (not_lt.mpr hvisible)
    · rw [isBlocked_mono hsub h] at hopen
      cases hopen

/-- A message that is spent is not received. -/
theorem visit_spent (hs : s.receivedMessages = []) (hsub : r.blockedGroups ⊆ s.blockedGroups)
    (h : IsSpent parameters m) : (s.visit parameters now 1 m).receivedMessages = [] ∧
      r.blockedGroups ⊆ (s.visit parameters now 1 m).blockedGroups := by
  obtain ⟨options, hoptions, hcount⟩ := h
  unfold Receiving.visit
  dsimp only
  rw [hoptions]
  split
  · exact ⟨hs, hsub⟩
  · split
    · exact ⟨hs, hsub⟩
    · split
      · exact ⟨hs, fun _ hmem => List.mem_append_left _ (hsub hmem)⟩
      · dsimp only
        rw [if_pos hcount]
        exact ⟨hs, hsub⟩

/-- What a receive with no room left keeps. -/
theorem visitAll_full {messages : List StoredMessage} (hfull : max ≤ r.receivedMessages.length) :
    (visitAll parameters now max messages r).queue.messages = r.queue.messages ++ messages := by
  induction messages generalizing r with
  | nil => exact (List.append_nil _).symm
  | cons m rest ih =>
    have hkeep : r.visit parameters now max m = r.keep m := if_pos hfull
    have hrest : visitAll parameters now max (m :: rest) r =
        visitAll parameters now max rest (r.keep m) := by
      rw [← hkeep]
      rfl
    rw [hrest, ih (r := r.keep m) hfull]
    simp [Receiving.keep]

/-- Messages none of which is received are not received either where more groups are blocked,
nor later while none becomes visible. -/
theorem visitAll_none {later : Rat} {messages : List StoredMessage}
    (hlater : ∀ m ∈ messages, m.visibleAt > now → m.visibleAt > later)
    (hopen : r.receivedMessages.length < max)
    (hnone : (visitAll parameters now max messages r).receivedMessages.length ≤
      r.receivedMessages.length)
    (hs : s.receivedMessages = []) (hsub : r.blockedGroups ⊆ s.blockedGroups) :
    (visitAll parameters later 1 messages s).receivedMessages = [] := by
  induction messages generalizing r s with
  | nil => exact hs
  | cons m rest ih =>
    obtain ⟨hm, hlater⟩ := List.forall_mem_cons.mp hlater
    have hrest : visitAll parameters now max (m :: rest) r =
        visitAll parameters now max rest (r.visit parameters now max m) := rfl
    rw [hrest] at hnone
    have hturn := turn_visit parameters now max m r
    generalize r.visit parameters now max m = t at hturn hnone
    cases hturn with
    | full hfull => exact absurd hopen (Nat.not_lt.mpr hfull)
    | blocked hblocked =>
      obtain ⟨hs', hmore, -⟩ := visit_hidden hs hsub
        (.inr hblocked : m.visibleAt > later ∨ _)
      exact ih (r := r.keep m) hlater hopen hnone hs' hmore
    | invisible _ hinvisible =>
      obtain ⟨hs', hmore, hgroup⟩ := visit_hidden hs hsub (.inl (hm hinvisible))
      refine ih (r := (r.keep m).block (orderedGroup parameters m)) hlater hopen hnone hs' ?_
      intro group hmem
      exact (List.mem_append.mp hmem).elim (fun h => hmore h) fun h => hgroup (hm hinvisible) h
    | moved retention hfree hvisible hspent =>
      exact (visit_spent hs hsub hspent).elim fun hs' hmore =>
        ih (r := r.moveToDeadLetter parameters m now retention) hlater hopen hnone hs' hmore
    | delivered =>
      -- the message is received
      have hle : (r.deliver parameters m now).receivedMessages.length ≤ (visitAll parameters now
          max rest (r.deliver parameters m now)).receivedMessages.length := length_visitAll_le rest _
      have hlonger : (r.deliver parameters m now).receivedMessages.length =
          r.receivedMessages.length + 1 := List.length_append
      omega

/-- A receive that gets fewer messages than it may gets no more where it may get more. -/
theorem visitAll_larger {messages : List StoredMessage}
    (hless : (visitAll parameters now max messages r).receivedMessages.length < max) :
    visitAll parameters now (max + 1) messages r = visitAll parameters now max messages r := by
  induction messages generalizing r with
  | nil => rfl
  | cons m rest ih =>
    have hle : r.receivedMessages.length ≤
        (visitAll parameters now max (m :: rest) r).receivedMessages.length :=
      length_visitAll_le _ _
    have hsame : r.visit parameters now (max + 1) m = r.visit parameters now max m := by
      unfold Receiving.visit
      rw [if_neg (by omega : ¬ max + 1 ≤ _), if_neg (by omega : ¬ max ≤ _)]
    have hrest : visitAll parameters now (max + 1) (m :: rest) r =
        visitAll parameters now (max + 1) rest (r.visit parameters now max m) := by
      rw [← hsame]
      rfl
    rw [hrest]
    exact ih hless

/-- Where as many messages may be received as are visible, the messages that stay are all
hidden. -/
theorem visitAll_again (hvisibility : 0 < parameters.visibilityTimeout)
    {messages : List StoredMessage}
    (hall : (visitAll parameters now (max + 1) messages r).receivedMessages.length ≤ max)
    (hs : s.receivedMessages = []) (hsub : r.blockedGroups ⊆ s.blockedGroups) :
    ∃ left, (visitAll parameters now max messages r).queue.messages = r.queue.messages ++ left ∧
      (visitAll parameters now 1 left s).receivedMessages = [] := by
  induction messages generalizing r s with
  | nil => exact ⟨[], (List.append_nil _).symm, hs⟩
  | cons m rest ih =>
    have hle : r.receivedMessages.length ≤
        (visitAll parameters now (max + 1) (m :: rest) r).receivedMessages.length :=
      length_visitAll_le _ _
    by_cases hfull : max ≤ r.receivedMessages.length
    · have hopen : r.receivedMessages.length < max + 1 := by omega
      exact ⟨m :: rest, visitAll_full hfull,
        visitAll_none (fun _ _ h => h) hopen (Nat.le_trans hall hfull) hs hsub⟩
    have hsame : r.visit parameters now (max + 1) m = r.visit parameters now max m := by
      unfold Receiving.visit
      rw [if_neg (by omega : ¬ max + 1 ≤ _), if_neg hfull]
    have hlarger : visitAll parameters now (max + 1) (m :: rest) r =
        visitAll parameters now (max + 1) rest (r.visit parameters now max m) := by
      rw [← hsame]
      rfl
    have hrest : visitAll parameters now max (m :: rest) r =
        visitAll parameters now max rest (r.visit parameters now max m) := rfl
    rw [hlarger] at hall
    rw [hrest]
    have hturn := turn_visit parameters now max m r
    generalize r.visit parameters now max m = t at hturn hall ⊢
    cases hturn with
    | full hfull' => exact absurd hfull' hfull
    | blocked hblocked =>
      obtain ⟨hnone, hmore, -⟩ := visit_hidden hs hsub (.inr hblocked)
      obtain ⟨left, hleft, hlast⟩ := ih hall hnone hmore
      exact ⟨m :: left, by rw [hleft]; simp [Receiving.keep], hlast⟩
    | invisible _ hinvisible =>
      obtain ⟨hnone, hmore, hgroup⟩ := visit_hidden hs hsub (.inl hinvisible)
      have hmore' : ((r.keep m).block (orderedGroup parameters m)).blockedGroups ⊆
          (s.visit parameters now 1 m).blockedGroups := by
        intro group hmem
        exact (List.mem_append.mp hmem).elim (fun h => hmore h) fun h => hgroup hinvisible h
      obtain ⟨left, hleft, hlast⟩ := ih hall hnone hmore'
      exact ⟨m :: left, by rw [hleft]; simp [Receiving.keep, Receiving.block], hlast⟩
    | moved retention =>
      obtain ⟨left, hleft, hlast⟩ := ih hall hs hsub
      exact ⟨left, hleft, hlast⟩
    | delivered =>
      -- it is invisible from now on
      have hinvisible : (delivered parameters m r.queue.nextUuid now).visibleAt > now := by
        change now < now + parameters.visibilityTimeout * 1000
        linarith
      obtain ⟨hnone, hmore, -⟩ := visit_hidden hs hsub (.inl hinvisible)
      obtain ⟨left, hleft, hlast⟩ := ih hall hnone hmore
      exact ⟨delivered parameters m r.queue.nextUuid now :: left,
        by rw [hleft]; simp [Receiving.deliver], hlast⟩

/-- What a turn keeps of the queue, and the messages that stay. -/
theorem Turn.kept (h : Turn parameters now max m r s) : s.queue.clock = r.queue.clock ∧
    ∃ left, s.queue.messages = r.queue.messages ++ left ∧
      (∀ after ∈ left, after.sentAt = m.sentAt) ∧ (m.visibleAt > now → m ∈ left) := by
  cases h with
  | full | blocked | invisible => exact ⟨rfl, [m], rfl, by simp, by simp⟩
  | moved retention _ hvisible =>
    exact ⟨rfl, [], (List.append_nil _).symm, by simp, fun h => absurd hvisible (not_le.mpr h)⟩
  | delivered _ hvisible =>
    refine ⟨rfl, _, rfl, fun after hmem => ?_, fun h => absurd hvisible (not_le.mpr h)⟩
    rw [List.mem_singleton.mp hmem]
    rfl

theorem visitAll_kept (messages : List StoredMessage) (r : Receiving) :
    (visitAll parameters now max messages r).queue.clock = r.queue.clock ∧
    ∃ left, (visitAll parameters now max messages r).queue.messages = r.queue.messages ++ left ∧
      (∀ after ∈ left, ∃ m ∈ messages, after.sentAt = m.sentAt) ∧
      ∀ m ∈ messages, m.visibleAt > now → m ∈ left := by
  induction messages generalizing r with
  | nil => exact ⟨rfl, [], (List.append_nil _).symm, by simp, by simp⟩
  | cons m rest ih =>
    obtain ⟨hclock, first, hfirst, hsent, hstays⟩ := (turn_visit parameters now max m r).kept
    obtain ⟨hclock', left, hleft, hsent', hstays'⟩ := ih (r.visit parameters now max m)
    refine ⟨hclock'.trans hclock, first ++ left, ?_, fun after hmem => ?_, fun other hmem hlater => ?_⟩
    · rw [← List.append_assoc, ← hfirst]
      exact hleft
    · rcases List.mem_append.mp hmem with hmem | hmem
      · exact ⟨m, List.mem_cons_self, hsent after hmem⟩
      · obtain ⟨other, hother, hsame⟩ := hsent' after hmem
        exact ⟨other, List.mem_cons_of_mem _ hother, hsame⟩
    · rcases List.mem_cons.mp hmem with rfl | hmem
      · exact List.mem_append_left _ (hstays hlater)
      · exact List.mem_append_right _ (hstays' other hmem hlater)

/-! ## A receive -/

section
variable (parameters) (q : LocalQueue)

/-- The messages a receive goes through. -/
def unexpired : List StoredMessage := (q.dropExpiredMessages parameters q.clock).messages

end

section
variable {q : LocalQueue}

theorem receiveMessages_eq (parameters : Parameters) (q : LocalQueue) (max : Nat) :
    q.receiveMessages parameters max =
      ((visitAll parameters q.clock max (unexpired parameters q) (q.startReceiving parameters)).queue,
        (visitAll parameters q.clock max (unexpired parameters q)
          (q.startReceiving parameters)).receivedMessages) := rfl

theorem clock_receiveMessages (max : Nat) :
    (q.receiveMessages parameters max).1.clock = q.clock :=
  (visitAll_kept (unexpired parameters q) (q.startReceiving parameters)).1

theorem length_receiveMessages_le (max : Nat) :
    (q.receiveMessages parameters max).2.length ≤ max :=
  length_visitAll_le_max (Nat.zero_le _)

theorem receiveMessages_eq_nil_iff {other : Nat} (hmax : 1 ≤ max) (hother : 1 ≤ other) :
    (q.receiveMessages parameters max).2 = [] ↔ (q.receiveMessages parameters other).2 = [] :=
  visitAll_eq_nil_iff hmax hother _ rfl

theorem unexpired_of_sentAt {messages : List StoredMessage}
    (h : ∀ m ∈ messages, ∃ other ∈ unexpired parameters q, m.sentAt = other.sentAt) :
    messages.filter (fun m => ¬ getExpireTime parameters m ≤ q.clock) = messages := by
  rw [List.filter_eq_self]
  intro m hm
  obtain ⟨other, hother, hsame⟩ := h m hm
  have hkeeps := (List.mem_filter.mp hother).2
  rwa [getExpireTime, ← hsame] at hkeeps

/-- **A receive of as many messages as are visible leaves nothing to receive.** -/
theorem receiveMessages_again (hvisibility : 0 < parameters.visibilityTimeout)
    (hall : (q.receiveMessages parameters (max + 1)).2.length ≤ max) :
    ((q.receiveMessages parameters max).1.receiveMessages parameters 1).2 = [] := by
  obtain ⟨hclock, left, hmessages, hsent, hstays⟩ := @visitAll_kept parameters q.clock max
    (unexpired parameters q) (q.startReceiving parameters)
  generalize hafter : (q.receiveMessages parameters max).1 = after
  have hqueue : (visitAll parameters q.clock max (unexpired parameters q)
      (q.startReceiving parameters)).queue = after := hafter
  rw [hqueue] at hclock hmessages
  have hclock : after.clock = q.clock := hclock
  have hmessages : after.messages = left := hmessages
  have hunexpired : unexpired parameters after = left := by
    have hkeeps := unexpired_of_sentAt hsent
    rw [← hmessages, ← hclock] at hkeeps
    exact hkeeps.trans hmessages
  -- the groups that were blocked still are
  have hsub : (q.startReceiving parameters).blockedGroups ⊆
      (after.startReceiving parameters).blockedGroups := by
    have hleft : (after.dropExpiredMessages parameters after.clock).messages = left := hunexpired
    change LocalQueue.inFlightGroups parameters (q.dropExpiredMessages parameters q.clock) q.clock ⊆
      LocalQueue.inFlightGroups parameters (after.dropExpiredMessages parameters after.clock)
        after.clock
    rw [inFlightGroups, inFlightGroups, hleft, hclock]
    split
    · intro group hmem
      obtain ⟨m, hm, hgroup⟩ := List.mem_filterMap.mp hmem
      obtain ⟨hm, hflight⟩ := List.mem_filter.mp hm
      have hlater : m.visibleAt > q.clock := by
        rw [isInFlight, Bool.and_eq_true] at hflight
        exact of_decide_eq_true hflight.2
      exact List.mem_filterMap.mpr ⟨m, List.mem_filter.mpr ⟨hstays m hm hlater, hflight⟩, hgroup⟩
    · exact List.Subset.refl _
  obtain ⟨left', hleft, hlast⟩ := visitAll_again (s := after.startReceiving parameters)
    hvisibility hall rfl hsub
  have hleft : after.messages = left' := by
    rw [← hqueue]
    exact hleft
  have hsame : left' = left := hleft.symm.trans hmessages
  rw [receiveMessages_eq, hunexpired, hclock, ← hsame]
  exact hlast

/-- Nothing becomes visible while no message does, and none expires. -/
theorem receiveMessages_later {later : LocalQueue} (hmessages : later.messages = q.messages)
    (hclock : q.clock ≤ later.clock)
    (hvisible : ∀ m ∈ q.messages, m.visibleAt > q.clock → m.visibleAt > later.clock)
    (hexpires : ∀ m ∈ q.messages, getExpireTime parameters m > q.clock →
      getExpireTime parameters m > later.clock)
    (hnone : (q.receiveMessages parameters 1).2 = []) :
    (later.receiveMessages parameters 1).2 = [] := by
  have hunexpired : unexpired parameters later = unexpired parameters q := by
    change later.messages.filter _ = q.messages.filter _
    rw [hmessages]
    refine List.filter_congr fun m hm => ?_
    rw [decide_eq_decide, not_le, not_le]
    exact ⟨fun h => lt_of_le_of_lt hclock h, hexpires m hm⟩
  have hmem : ∀ m ∈ unexpired parameters q, m ∈ q.messages := fun m hm => (List.mem_filter.mp hm).1
  have hsub : (q.startReceiving parameters).blockedGroups ⊆
      (later.startReceiving parameters).blockedGroups := by
    have hleft : (later.dropExpiredMessages parameters later.clock).messages =
        (q.dropExpiredMessages parameters q.clock).messages := hunexpired
    change LocalQueue.inFlightGroups parameters (q.dropExpiredMessages parameters q.clock) q.clock ⊆
      LocalQueue.inFlightGroups parameters (later.dropExpiredMessages parameters later.clock)
        later.clock
    rw [inFlightGroups, inFlightGroups, hleft]
    split
    · intro group hgroup
      obtain ⟨m, hm, hgroup⟩ := List.mem_filterMap.mp hgroup
      obtain ⟨hm, hflight⟩ := List.mem_filter.mp hm
      rw [isInFlight, Bool.and_eq_true, decide_eq_true_eq] at hflight
      have hstill : isInFlight m later.clock = true := by
        rw [isInFlight, Bool.and_eq_true, decide_eq_true_eq]
        exact ⟨hflight.1, hvisible m (hmem m hm) hflight.2⟩
      exact List.mem_filterMap.mpr ⟨m, List.mem_filter.mpr ⟨hm, hstill⟩, hgroup⟩
    · exact List.Subset.refl _
  rw [receiveMessages_eq] at hnone ⊢
  rw [hunexpired]
  exact visitAll_none (fun m hm => hvisible m (hmem m hm)) Nat.zero_lt_one
    (Nat.le_of_eq (congrArg List.length hnone)) rfl hsub

/-- A receive that returns fewer messages than it may returns no more where it may. -/
theorem receiveMessages_larger
    (hless : (q.receiveMessages parameters max).2.length < max) :
    (q.receiveMessages parameters (max + 1)).2.length ≤ max := by
  have hsame : (q.receiveMessages parameters (max + 1)).2 = (q.receiveMessages parameters max).2 :=
    congrArg Receiving.receivedMessages (visitAll_larger hless)
  rw [hsame]
  exact Nat.le_of_lt hless

end

end Ez4.Local.Queue

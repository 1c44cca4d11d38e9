import Ez4.PgClient.TransactionOrder

/-! # One operation of a transaction at a time

What the map of tails and the calls keep of each other, and from it that the
operations of a transaction follow one another in the order of the calls. -/
namespace Ez4.PgClient.TransactionOrder
open Ez4.Library Ez4.PgClient.Transaction

variable {α ω ρ : Type} {R : Repertoire α ω ρ} {s t : OrderState α ω ρ} {c d p : Nat}
  {call call' : Call α ω} {id : String}

/-- A call of the transaction. -/
def In (s : OrderState α ω ρ) (id : String) (c : Nat) : Prop :=
  ∃ call, s.calls[c]? = some call ∧ call.transaction = some id

def Finished (s : OrderState α ω ρ) (c : Nat) : Prop :=
  ∃ call, s.calls[c]? = some call ∧ call.status = .finished

/-- Every call of the transaction before this one has finished. -/
def Alone (s : OrderState α ω ρ) (id : String) (c : Nat) : Prop :=
  ∀ d, In s id d → d < c → Finished s d

/-- The tails are those of the last calls, and what is resolved is of calls that
have finished, with all before them. -/
structure Ordered (s : OrderState α ω ρ) : Prop where
  tail : ∀ id p, s.queues id = some p → In s id p ∧ ¬Finished s p ∧ ∀ d, In s id d → d ≤ p
  free : ∀ id, s.queues id = none → ∀ d, In s id d → Finished s d
  /-- A call waits for the last call before it, unless all before it had finished. -/
  previous : ∀ (c : Nat) (call : Call α ω) (id : String), s.calls[c]? = some call → call.transaction = some id →
    match call.previous with
    | none => Alone s id c
    | some p => p < c ∧ In s id p ∧ ∀ d, In s id d → d < c → d ≤ p
  passed : ∀ (c : Nat) (call : Call α ω) (id : String), s.calls[c]? = some call → call.transaction = some id →
    call.passed = true → ∀ d, In s id d → d ≤ c → Finished s d
  started : ∀ (c : Nat) (call : Call α ω) (id : String), s.calls[c]? = some call → call.transaction = some id →
    call.status ≠ .waiting → Alone s id c
  /-- Without a transaction the operation runs at once, and nothing follows it. -/
  unqueued : ∀ (c : Nat) (call : Call α ω), s.calls[c]? = some call → call.transaction = none →
    (∃ awaited : ω, call.status = .running awaited) ∨ call.status = .finished

/-! ## Steps -/

/-- One call is in another state. -/
structure Changes (s t : OrderState α ω ρ) (c : Nat) (call call' : Call α ω) : Prop where
  found : s.calls[c]? = some call
  calls : t.calls = s.calls.set c call'
  transaction : call'.transaction = call.transaction
  operation : call'.operation = call.operation
  previous : call'.previous = call.previous
  /-- A call that has finished stays so. -/
  finished : call.status = .finished → call'.status = .finished

namespace Changes

variable (h : Changes s t c call call')
include h

theorem get (d : Nat) : t.calls[d]? = if d = c then some call' else s.calls[d]? := by
  have hlength : c < s.calls.length := (List.getElem?_eq_some_iff.mp h.found).1
  rw [h.calls, List.getElem?_set]
  by_cases hd : d = c
  · rw [if_pos hd.symm, if_pos hlength, if_pos hd]
  · rw [if_neg (Ne.symm hd), if_neg hd]

theorem in_iff : In t id d ↔ In s id d := by
  unfold In
  rw [h.get]
  by_cases hd : d = c
  · subst hd
    rw [if_pos rfl, h.found]
    constructor
    · intro ⟨found, hfound, hid⟩
      obtain rfl := Option.some.inj hfound
      exact ⟨call, rfl, h.transaction ▸ hid⟩
    · intro ⟨found, hfound, hid⟩
      obtain rfl := Option.some.inj hfound
      exact ⟨call', rfl, h.transaction.trans hid⟩
  · rw [if_neg hd]

theorem mono (hd : Finished s d) : Finished t d := by
  obtain ⟨found, hfound, hstatus⟩ := hd
  unfold Finished
  rw [h.get]
  by_cases hdc : d = c
  · subst hdc
    obtain rfl := Option.some.inj (h.found.symm.trans hfound)
    exact ⟨call', if_pos rfl, h.finished hstatus⟩
  · exact ⟨found, (if_neg hdc).trans hfound, hstatus⟩

theorem not_finished (hd : ¬Finished s d) (hc : d = c → call'.status ≠ .finished) : ¬Finished t d := by
  intro ⟨found, hfound, hstatus⟩
  rw [h.get] at hfound
  by_cases hdc : d = c
  · rw [if_pos hdc] at hfound
    exact hc hdc (Option.some.inj hfound ▸ hstatus)
  · rw [if_neg hdc] at hfound
    exact hd ⟨found, hfound, hstatus⟩

/-- The calls keep their order if the changed one does. -/
theorem ordered (hs : Ordered s)
    (htail : ∀ id p, t.queues id = some p → s.queues id = some p ∧ ¬Finished t p)
    (hfree : ∀ id, t.queues id = none → ∀ d, In s id d → Finished t d)
    (hpassed : ∀ id, call.transaction = some id → call'.passed = true →
      ∀ d, In s id d → d ≤ c → Finished t d)
    (hstarted : ∀ id, call.transaction = some id → call'.status ≠ .waiting → Alone s id c)
    (hunqueued : call.transaction = none →
      (∃ awaited : ω, call'.status = .running awaited) ∨ call'.status = .finished) : Ordered t := by
  have halone : ∀ {id d}, Alone s id d → Alone t id d := fun ha e he hlt =>
    h.mono (ha e (h.in_iff.mp he) hlt)
  refine ⟨?_, ?_, ?_, ?_, ?_, ?_⟩
  · intro id p hp
    obtain ⟨hp, hfinished⟩ := htail id p hp
    obtain ⟨hin, -, hlast⟩ := hs.tail id p hp
    exact ⟨h.in_iff.mpr hin, hfinished, fun d hd => hlast d (h.in_iff.mp hd)⟩
  · exact fun id hid d hd => hfree id hid d (h.in_iff.mp hd)
  · intro d found id hfound hid
    have hprevious : ∀ {call : Call α ω}, s.calls[d]? = some call → call.transaction = some id →
        match call.previous with
        | none => Alone t id d
        | some p => p < d ∧ In t id p ∧ ∀ e, In t id e → e < d → e ≤ p := by
      intro call hcall hid
      have hold := hs.previous d call id hcall hid
      cases hp : call.previous with
      | none =>
        rw [hp] at hold
        exact halone hold
      | some p =>
        rw [hp] at hold
        exact ⟨hold.1, h.in_iff.mpr hold.2.1, fun e he => hold.2.2 e (h.in_iff.mp he)⟩
    rw [h.get] at hfound
    split at hfound
    · rename_i hdc
      obtain rfl := Option.some.inj hfound
      subst hdc
      rw [h.previous]
      exact hprevious h.found (h.transaction ▸ hid)
    · exact hprevious hfound hid
  · intro d found id hfound hid hset e he hle
    rw [h.get] at hfound
    split at hfound
    · rename_i hdc
      obtain rfl := Option.some.inj hfound
      exact hpassed id (h.transaction ▸ hid) hset e (h.in_iff.mp he) (hdc ▸ hle)
    · exact h.mono (hs.passed d found id hfound hid hset e (h.in_iff.mp he) hle)
  · intro d found id hfound hid hstatus
    rw [h.get] at hfound
    split at hfound
    · rename_i hdc
      obtain rfl := Option.some.inj hfound
      exact halone (hdc ▸ hstarted id (h.transaction ▸ hid) hstatus)
    · exact halone (hs.started d found id hfound hid hstatus)
  · intro d found hfound hid
    rw [h.get] at hfound
    split at hfound
    · obtain rfl := Option.some.inj hfound
      exact hunqueued (h.transaction ▸ hid)
    · exact hs.unqueued d found hfound hid

end Changes

section Goes

variable {before : Happening ω ρ} {awaited : Option ω}

theorem goOn_not_waiting : (call.goOn awaited).status ≠ .waiting := by
  unfold Call.goOn
  cases awaited with
  | some awaited => exact nofun
  | none => cases call.transaction.isSome <;> exact nofun

theorem goOn_transaction : (call.goOn awaited).transaction = call.transaction := rfl

/-- Only an operation without a transaction is at its end at once. -/
theorem goOn_not_finished (h : call.transaction = some id) : (call.goOn awaited).status ≠ .finished := by
  unfold Call.goOn
  cases awaited with
  | some awaited => exact nofun
  | none =>
    rw [h]
    exact nofun

theorem goOn_unqueued (h : call.transaction = none) :
    (∃ next : ω, (call.goOn awaited).status = .running next) ∨ (call.goOn awaited).status = .finished := by
  unfold Call.goOn
  rw [h]
  cases awaited with
  | some awaited => exact .inl ⟨awaited, rfl⟩
  | none => exact .inr rfl

theorem changes_goOn (h : s.calls[c]? = some call) (hc : call.status ≠ .finished) :
    Changes s (s.goOn c call before awaited) c call (call.goOn awaited) :=
  ⟨h, rfl, rfl, rfl, rfl, fun hfinished => absurd hfinished hc⟩

end Goes

theorem In.unique {id' : String} (h : In s id c) (h' : In s id' c) : id = id' := by
  obtain ⟨call, hcall, hid⟩ := h
  obtain ⟨call', hcall', hid'⟩ := h'
  obtain rfl := Option.some.inj (hcall.symm.trans hcall')
  exact Option.some.inj (hid.symm.trans hid')

theorem In.lt (h : In s id c) : c < s.calls.length := by
  obtain ⟨call, hcall, -⟩ := h
  exact (List.getElem?_eq_some_iff.mp hcall).1

namespace Ordered

variable (hs : Ordered s)
include hs

/-- A resolved tail is that of calls that have finished. -/
theorem finished_of_resolved (h : s.calls[c]? = some call) (hid : call.transaction = some id)
    (hresolved : call.isTailResolved = true) : ∀ d, In s id d → d ≤ c → Finished s d := by
  intro d hd hle
  unfold Call.isTailResolved at hresolved
  have hprevious := hs.previous c call id h hid
  cases hp : call.previous with
  | none =>
    rw [hp] at hresolved hprevious
    rcases Nat.lt_or_eq_of_le hle with hlt | heq
    · exact hprevious d hd hlt
    · rw [Option.isNone_none, if_pos rfl, Call.isFinished] at hresolved
      subst heq
      refine ⟨call, h, ?_⟩
      split at hresolved
      · assumption
      · cases hresolved
  | some p =>
    rw [hp, Option.isNone_some, if_neg Bool.false_ne_true] at hresolved
    exact hs.passed c call id h hid hresolved d hd hle

/-- Once what it awaits is resolved, a call is alone. -/
theorem alone_of_resolved (h : s.calls[c]? = some call) (hid : call.transaction = some id)
    (hresolved : s.isPreviousResolved call = true) : Alone s id c := by
  unfold OrderState.isPreviousResolved at hresolved
  have hprevious := hs.previous c call id h hid
  cases hp : call.previous with
  | none =>
    rw [hp] at hprevious
    exact hprevious
  | some p =>
    rw [hp] at hprevious
    obtain ⟨-, ⟨tail, htail, htailId⟩, hlast⟩ := hprevious
    simp only [hp, htail] at hresolved
    intro d hd hlt
    exact hs.finished_of_resolved htail htailId hresolved d hd (hlast d hd hlt)

/-- The last call of a transaction hasn't finished, so that a call that goes on
leaves the map as it is. -/
theorem of_goOn {before : Happening ω ρ} {awaited : Option ω} (h : s.calls[c]? = some call)
    (hc : call.status ≠ .finished) (halone : ∀ id, call.transaction = some id → Alone s id c) :
    Ordered (s.goOn c call before awaited) := by
  have hchanges : Changes s (s.goOn c call before awaited) c call (call.goOn awaited) :=
    changes_goOn h hc
  refine hchanges.ordered hs ?_ ?_ ?_ ?_ ?_
  · intro id p hp
    obtain ⟨⟨last, hlast, hid⟩, hfinished, -⟩ := hs.tail id p hp
    refine ⟨hp, hchanges.not_finished hfinished fun heq => ?_⟩
    subst heq
    obtain rfl := Option.some.inj (h.symm.trans hlast)
    exact goOn_not_finished hid
  · exact fun id hid d hd => hchanges.mono (hs.free id hid d hd)
  · exact fun id hid hpassed d hd hle => hchanges.mono (hs.passed c call id h hid hpassed d hd hle)
  · exact fun id hid _ => halone id hid
  · exact goOn_unqueued

/-- A call that finishes takes its own tail out of the map, and no other. -/
theorem of_finish (h : s.calls[c]? = some call) (hid : call.transaction = some id)
    (hc : call.status = .settled) (hcalls : t.calls = s.calls.set c { call with status := .finished })
    (hqueues : t.queues = if s.queues id = some c then Function.update s.queues id none else s.queues) :
    Ordered t := by
  have hin : In s id c := ⟨call, h, hid⟩
  have hchanges : Changes s t c call { call with status := .finished } :=
    ⟨h, hcalls, rfl, rfl, rfl, fun _ => rfl⟩
  have halone : Alone s id c := hs.started c call id h hid (hc ▸ nofun)
  have hdone : Finished t c := ⟨_, (hchanges.get c).trans (if_pos rfl), rfl⟩
  refine hchanges.ordered hs ?_ ?_ ?_ ?_ ?_
  · intro other p hp
    have hold : s.queues other = some p ∧ ¬(other = id ∧ s.queues id = some c) := by
      rw [hqueues] at hp
      split at hp
      · by_cases hother : other = id
        · rw [hother, Function.update_self] at hp
          cases hp
        · rw [Function.update_of_ne hother] at hp
          exact ⟨hp, fun h => hother h.1⟩
      · rename_i hlast
        exact ⟨hp, fun h => hlast h.2⟩
    obtain ⟨hother, hfinished, -⟩ := hs.tail other p hold.1
    refine ⟨hold.1, hchanges.not_finished hfinished fun heq => ?_⟩
    subst heq
    obtain rfl := hother.unique hin
    exact absurd ⟨rfl, hold.1⟩ hold.2
  · intro other hfree d hd
    by_cases hold : s.queues other = none
    · exact hchanges.mono (hs.free other hold d hd)
    · -- the map had the tail of this call, the last of its transaction
      rw [hqueues] at hfree
      split at hfree
      · rename_i hlast
        by_cases hother : other = id
        · subst hother
          obtain ⟨-, -, hle⟩ := hs.tail other c hlast
          rcases Nat.lt_or_eq_of_le (hle d hd) with hlt | rfl
          · exact hchanges.mono (halone d hd hlt)
          · exact hdone
        · rw [Function.update_of_ne hother] at hfree
          exact absurd hfree hold
      · exact absurd hfree hold
  · intro other hother hpassed d hd hle
    exact hchanges.mono (hs.passed c call other h hother hpassed d hd hle)
  · exact fun other hother _ => Option.some.inj (hid.symm.trans hother) ▸ halone
  · intro hnone
    rw [hid] at hnone
    cases hnone

/-- A tail is resolved after those before it. -/
theorem of_pass (h : s.calls[c]? = some call) (hc : call.isFinished = true)
    (hresolved : s.isPreviousResolved call = true) :
    Ordered (s.setCall c { call with passed := true }) := by
  have hfinished : call.status = .finished := by
    unfold Call.isFinished at hc
    split at hc
    · assumption
    · cases hc
  have hchanges : Changes s (s.setCall c { call with passed := true }) c call
    { call with passed := true } := ⟨h, rfl, rfl, rfl, rfl, id⟩
  refine hchanges.ordered hs ?_ ?_ ?_ ?_ ?_
  · intro id p hp
    obtain ⟨-, hlast, -⟩ := hs.tail id p hp
    refine ⟨hp, hchanges.not_finished hlast fun heq => ?_⟩
    exact absurd ⟨call, heq ▸ h, hfinished⟩ hlast
  · exact fun id hid d hd => hchanges.mono (hs.free id hid d hd)
  · intro id hid _ d hd hle
    rcases Nat.lt_or_eq_of_le hle with hlt | rfl
    · exact hchanges.mono (hs.alone_of_resolved h hid hresolved d hd hlt)
    · exact hchanges.mono ⟨call, h, hfinished⟩
  · exact fun id hid hstarted => hs.started c call id h hid hstarted
  · exact fun hnone => hs.unqueued c call h hnone

end Ordered

/-! ## Calls that are made -/

section Push

variable (hcalls : t.calls = s.calls ++ [call])
include hcalls

theorem get_push (d : Nat) :
    t.calls[d]? = if d = s.calls.length then some call else s.calls[d]? := by
  rw [hcalls]
  by_cases hd : d = s.calls.length
  · rw [if_pos hd, hd, List.getElem?_concat_length]
  · rw [if_neg hd]
    rcases Nat.lt_or_gt_of_ne hd with hlt | hgt
    · exact List.getElem?_append_left hlt
    · rw [List.getElem?_eq_none (by rw [List.length_append]; exact hgt), List.getElem?_eq_none (Nat.le_of_lt hgt)]

theorem get_push_of_some {found : Call α ω} (h : s.calls[d]? = some found) :
    t.calls[d]? = some found := by
  have hlt : d < s.calls.length := (List.getElem?_eq_some_iff.mp h).1
  rw [get_push hcalls, if_neg (Nat.ne_of_lt hlt), h]

theorem in_push : In t id d ↔ In s id d ∨ d = s.calls.length ∧ call.transaction = some id := by
  unfold In
  rw [get_push hcalls]
  by_cases hd : d = s.calls.length
  · rw [if_pos hd, hd, List.getElem?_eq_none (Nat.le_refl _)]
    simp
  · rw [if_neg hd]
    simp [hd]

theorem finished_push (h : Finished s d) : Finished t d := by
  obtain ⟨found, hfound, hstatus⟩ := h
  exact ⟨found, get_push_of_some hcalls hfound, hstatus⟩

theorem alone_push (h : Alone s id d) (hd : d ≤ s.calls.length) : Alone t id d := by
  intro e he hlt
  rcases (in_push hcalls).mp he with he | ⟨heq, -⟩
  · exact finished_push hcalls (h e he hlt)
  · omega

/-- A call that is made comes after the others. -/
theorem Ordered.of_push (hs : Ordered s)
    (htail : ∀ id p, t.queues id = some p → In t id p ∧ ¬Finished t p ∧ ∀ d, In t id d → d ≤ p)
    (hfree : ∀ id, t.queues id = none → ∀ d, In t id d → Finished t d)
    (hprevious : ∀ id, call.transaction = some id → match call.previous with
      | none => Alone s id s.calls.length
      | some p => p < s.calls.length ∧ In s id p ∧ ∀ d, In s id d → d ≤ p)
    (hpassed : call.passed = false)
    (hstarted : ∀ id, call.transaction = some id → call.status = .waiting)
    (hunqueued : call.transaction = none →
      (∃ awaited : ω, call.status = .running awaited) ∨ call.status = .finished) : Ordered t := by
  have hlt : ∀ {d : Nat} {found : Call α ω}, s.calls[d]? = some found → d < s.calls.length :=
    fun h => (List.getElem?_eq_some_iff.mp h).1
  refine ⟨htail, hfree, ?_, ?_, ?_, ?_⟩
  · intro d found id hfound hid
    rw [get_push hcalls] at hfound
    split at hfound
    · rename_i hd
      obtain rfl := Option.some.inj hfound
      have hold := hprevious id hid
      cases hp : call.previous with
      | none =>
        rw [hp] at hold
        exact hd ▸ alone_push hcalls hold (Nat.le_refl _)
      | some p =>
        rw [hp] at hold
        obtain ⟨hplt, hin, hlast⟩ := hold
        refine ⟨hd ▸ hplt, (in_push hcalls).mpr (.inl hin), fun e he hed => ?_⟩
        rcases (in_push hcalls).mp he with he | ⟨heq, -⟩
        · exact hlast e he
        · omega
    · have hold := hs.previous d found id hfound hid
      cases hp : found.previous with
      | none =>
        rw [hp] at hold
        exact alone_push hcalls hold (Nat.le_of_lt (hlt hfound))
      | some p =>
        rw [hp] at hold
        obtain ⟨hplt, hin, hlast⟩ := hold
        refine ⟨hplt, (in_push hcalls).mpr (.inl hin), fun e he hed => ?_⟩
        rcases (in_push hcalls).mp he with he | ⟨heq, -⟩
        · exact hlast e he hed
        · have := hlt hfound
          omega
  · intro d found id hfound hid hset e he hle
    rw [get_push hcalls] at hfound
    split at hfound
    · obtain rfl := Option.some.inj hfound
      rw [hpassed] at hset
      cases hset
    · rcases (in_push hcalls).mp he with he | ⟨heq, -⟩
      · exact finished_push hcalls (hs.passed d found id hfound hid hset e he hle)
      · have := hlt hfound
        omega
  · intro d found id hfound hid hstatus
    rw [get_push hcalls] at hfound
    split at hfound
    · obtain rfl := Option.some.inj hfound
      exact absurd (hstarted id hid) hstatus
    · exact alone_push hcalls (hs.started d found id hfound hid hstatus) (Nat.le_of_lt (hlt hfound))
  · intro d found hfound hnone
    rw [get_push hcalls] at hfound
    split at hfound
    · obtain rfl := Option.some.inj hfound
      exact hunqueued hnone
    · exact hs.unqueued d found hfound hnone

theorem not_finished_push (hd : d < s.calls.length) (h : ¬Finished s d) : ¬Finished t d := by
  intro ⟨found, hfound, hstatus⟩
  rw [get_push hcalls, if_neg (Nat.ne_of_lt hd)] at hfound
  exact h ⟨found, hfound, hstatus⟩

/-- A call without a transaction is in no queue. -/
theorem Ordered.of_unqueued (hs : Ordered s) (hqueues : t.queues = s.queues)
    (hnone : call.transaction = none) (hpassed : call.passed = false)
    (hunqueued : (∃ awaited : ω, call.status = .running awaited) ∨ call.status = .finished) :
    Ordered t := by
  have hin : ∀ {id d}, In t id d ↔ In s id d := by
    intro id d
    rw [in_push hcalls, hnone]
    exact or_iff_left nofun
  refine hs.of_push hcalls ?_ ?_ ?_ hpassed ?_ fun _ => hunqueued
  · intro id p hp
    obtain ⟨hp, hfinished, hlast⟩ := hs.tail id p (hqueues ▸ hp)
    exact ⟨hin.mpr hp, not_finished_push hcalls hp.lt hfinished, fun d hd => hlast d (hin.mp hd)⟩
  · exact fun id hid d hd => finished_push hcalls (hs.free id (hqueues ▸ hid) d (hin.mp hd))
  · intro id hid
    rw [hnone] at hid
    cases hid
  · intro id hid
    rw [hnone] at hid
    cases hid

/-- A call of a transaction is the last of it, and its tail replaces the one before. -/
theorem Ordered.of_queued (hs : Ordered s)
    (hqueues : t.queues = Function.update s.queues id (some s.calls.length))
    (hid : call.transaction = some id) (hprevious : call.previous = s.queues id)
    (hpassed : call.passed = false) (hwaiting : call.status = .waiting) : Ordered t := by
  have hn : t.calls[s.calls.length]? = some call := (get_push hcalls _).trans (if_pos rfl)
  refine hs.of_push hcalls ?_ ?_ ?_ hpassed (fun _ _ => hwaiting) ?_
  · intro other p hp
    rw [hqueues] at hp
    by_cases hother : other = id
    · rw [hother, Function.update_self] at hp
      obtain rfl := Option.some.inj hp
      refine ⟨⟨call, hn, hother ▸ hid⟩, ?_, fun d hd => ?_⟩
      · intro ⟨found, hfound, hstatus⟩
        obtain rfl := Option.some.inj (hn.symm.trans hfound)
        rw [hwaiting] at hstatus
        cases hstatus
      · rcases (in_push hcalls).mp hd with hd | ⟨heq, -⟩
        · exact Nat.le_of_lt hd.lt
        · exact Nat.le_of_eq heq
    · rw [Function.update_of_ne hother] at hp
      obtain ⟨hin, hfinished, hlast⟩ := hs.tail other p hp
      refine ⟨(in_push hcalls).mpr (.inl hin), not_finished_push hcalls hin.lt hfinished, fun d hd => ?_⟩
      rcases (in_push hcalls).mp hd with hd | ⟨-, hnew⟩
      · exact hlast d hd
      · exact absurd (Option.some.inj (hnew.symm.trans hid)) hother
  · intro other hfree d hd
    rw [hqueues] at hfree
    by_cases hother : other = id
    · rw [hother, Function.update_self] at hfree
      cases hfree
    · rw [Function.update_of_ne hother] at hfree
      rcases (in_push hcalls).mp hd with hd | ⟨-, hnew⟩
      · exact finished_push hcalls (hs.free other hfree d hd)
      · exact absurd (Option.some.inj (hnew.symm.trans hid)) hother
  · intro other hother
    obtain rfl := Option.some.inj (hid.symm.trans hother)
    rw [hprevious]
    cases hq : s.queues id with
    | none => exact fun d hd _ => hs.free id hq d hd
    | some p =>
      obtain ⟨hin, -, hlast⟩ := hs.tail id p hq
      exact ⟨hin.lt, hin, hlast⟩
  · intro hnone
    rw [hid] at hnone
    cases hnone

end Push

/-! ## Steps -/

/-- What each event does, and when it can happen. -/
inductive Stepped (R : Repertoire α ω ρ) (s : OrderState α ω ρ) :
    OrderEvent α ρ → OrderState α ω ρ → Prop
  | unqueued {transactionId : Option String} {operation : α} {call : Call α ω}
      (made : call = { transaction := none, operation, previous := none, status := .waiting })
      (missing : transactionId.filter (· ≠ "") = none) :
      Stepped R s (.call transactionId operation)
        ({ s with calls := s.calls ++ [call.goOn (R.first false operation)] }.record s.calls.length
          [.started, .upTo (R.first false operation)])
  | queued {transactionId : Option String} {operation : α} {call : Call α ω} {id : String}
      (made : call = { transaction := some id, operation, previous := s.queues id, status := .waiting })
      (given : transactionId.filter (· ≠ "") = some id) :
      Stepped R s (.call transactionId operation)
        { s with
          calls := s.calls ++ [call]
          queues := Function.update s.queues id (some s.calls.length) }
  | start {c : Nat} {call : Call α ω} (found : s.calls[c]? = some call)
      (waiting : call.status = .waiting) (resolved : s.isPreviousResolved call = true) :
      Stepped R s (.start c)
        (s.goOn c call .started (R.first call.transaction.isSome call.operation))
  | answer {c : Nat} {call : Call α ω} {awaited : ω} {answer : ρ} (found : s.calls[c]? = some call)
      (running : call.status = .running awaited) :
      Stepped R s (.answer c answer)
        (s.goOn c call (.answered answer) (R.next call.transaction.isSome awaited answer))
  | finish {c : Nat} {call : Call α ω} {id : String} (found : s.calls[c]? = some call)
      (settled : call.status = .settled) (queued : call.transaction = some id) :
      Stepped R s (.finish c)
        { s.setCall c { call with status := .finished } with
          queues := if s.queues id = some c then Function.update s.queues id none else s.queues }
  | pass {c : Nat} {call : Call α ω} (found : s.calls[c]? = some call)
      (finished : call.isFinished = true) (queued : call.previous.isSome = true)
      (unresolved : call.passed = false) (resolved : s.isPreviousResolved call = true) :
      Stepped R s (.pass c) (s.setCall c { call with passed := true })

theorem step_iff {e : OrderEvent α ρ} : s.step R e = some t ↔ Stepped R s e t := by
  constructor
  · intro h
    cases e with
    | call transactionId operation =>
      cases hid : transactionId.filter (· ≠ "") with
      | none =>
        simp only [OrderState.step, hid] at h
        exact Option.some.inj h ▸ .unqueued rfl hid
      | some id =>
        simp only [OrderState.step, hid] at h
        exact Option.some.inj h ▸ .queued rfl hid
    | start c =>
      obtain ⟨call, hcall, h⟩ := Option.bind_eq_some_iff.mp h
      split at h
      · rename_i hstatus
        split at h
        · exact Option.some.inj h ▸ .start hcall hstatus (by assumption)
        · cases h
      · cases h
    | answer c answer =>
      obtain ⟨call, hcall, h⟩ := Option.bind_eq_some_iff.mp h
      split at h
      · rename_i awaited hstatus
        exact Option.some.inj h ▸ .answer hcall hstatus
      · cases h
    | finish c =>
      obtain ⟨call, hcall, h⟩ := Option.bind_eq_some_iff.mp h
      split at h
      · rename_i id hstatus hid
        exact Option.some.inj h ▸ .finish hcall hstatus hid
      · cases h
    | pass c =>
      obtain ⟨call, hcall, h⟩ := Option.bind_eq_some_iff.mp h
      split at h
      · rename_i hcan
        obtain ⟨hfinished, hqueued, hpassed, hresolved⟩ := hcan
        exact Option.some.inj h ▸ .pass hcall hfinished hqueued (by simpa using hpassed) hresolved
      · cases h
  · intro h
    cases h with
    | unqueued made missing => simp only [OrderState.step, missing, made]
    | queued made given => simp only [OrderState.step, given, made]
    | start found waiting resolved => simp [OrderState.step, found, waiting, resolved]
    | answer found running => simp [OrderState.step, found, running]
    | finish found settled queued => simp [OrderState.step, found, settled, queued]
    | pass found finished queued unresolved resolved =>
      simp [OrderState.step, found, finished, queued, unresolved, resolved]

theorem ordered_step {e : OrderEvent α ρ} (hs : Ordered s) (h : s.step R e = some t) : Ordered t := by
  cases step_iff.mp h with
  | unqueued made missing =>
    exact hs.of_unqueued rfl rfl (by rw [made]; rfl) (by rw [made]; rfl) (goOn_unqueued (by rw [made]))
  | queued made given =>
    exact hs.of_queued rfl rfl (by rw [made]) (by rw [made]) (by rw [made]) (by rw [made])
  | @start c call found waiting resolved =>
    exact hs.of_goOn found (waiting ▸ nofun) fun id hid => hs.alone_of_resolved found hid resolved
  | @answer c call awaited answer found running =>
    exact hs.of_goOn found (running ▸ nofun) fun id hid => hs.started c call id found hid (running ▸ nofun)
  | finish found settled queued => exact hs.of_finish found queued settled rfl rfl
  | pass found finished queued unresolved resolved => exact hs.of_pass found finished resolved

theorem ordered_init : Ordered (transactionOrder R).init := by
  have hnone : ∀ {c : Nat} {call : Call α ω}, (transactionOrder R).init.calls[c]? ≠ some call :=
    fun h => nomatch h
  refine ⟨fun _ _ h => (nomatch h), fun _ _ _ h => ?_, fun _ _ _ h => absurd h hnone,
    fun _ _ _ h => absurd h hnone, fun _ _ _ h => absurd h hnone, fun _ _ h => absurd h hnone⟩
  obtain ⟨call, h, -⟩ := h
  exact absurd h hnone

/-- Every order of the events keeps the calls in order. -/
theorem ordered_of_reachable (h : (transactionOrder R).Reachable s) : Ordered s :=
  h.invariant ordered_init fun _ _ _ hs hstep => ordered_step hs hstep

end Ez4.PgClient.TransactionOrder

import Ez4.PgClient.TransactionTurns

/-! # What the operations of a transaction do

The log of a run: what each operation did, from its start to its end, and that
the operations of one transaction do it one after the other. -/
namespace Ez4.PgClient.TransactionOrder
open Ez4.Library Ez4.PgClient.Transaction

variable {α ω ρ : Type} {R : Repertoire α ω ρ} {s t : OrderState α ω ρ} {c d : Nat}
  {call call' : Call α ω} {id : String} {done : List (Happening ω ρ)}

/-- What an operation does up to an await, or to its end. -/
inductive Does (R : Repertoire α ω ρ) (inTransaction : Bool) (operation : α) :
    List (Happening ω ρ) → Option ω → Prop
  | started : Does R inTransaction operation
      [.started, .upTo (R.first inTransaction operation)] (R.first inTransaction operation)
  | answered {done : List (Happening ω ρ)} {awaited : ω} (answer : ρ)
      (before : Does R inTransaction operation done (some awaited)) :
      Does R inTransaction operation
        (done ++ [.answered answer, .upTo (R.next inTransaction awaited answer)])
        (R.next inTransaction awaited answer)

/-- What a call has done is what its state says. -/
def Did (R : Repertoire α ω ρ) (call : Call α ω) (done : List (Happening ω ρ)) : Prop :=
  match call.status with
  | .waiting => done = []
  | .running awaited => Does R call.transaction.isSome call.operation done (some awaited)
  | .settled | .finished => Does R call.transaction.isSome call.operation done none

theorem did_goOn {awaited : Option ω}
    (h : Does R call.transaction.isSome call.operation done awaited) :
    Did R (call.goOn awaited) done := by
  unfold Did Call.goOn
  cases awaited with
  | some awaited => exact h
  | none =>
    cases hid : call.transaction.isSome with
    | true => simpa only [hid, if_true] using h
    | false => simpa only [hid, Bool.false_eq_true, if_false] using h

/-- What the log has of a call. -/
def OrderState.did (s : OrderState α ω ρ) (c : Nat) : List (Happening ω ρ) :=
  s.log.filterMap fun entry => if entry.1 = c then some entry.2 else none

/-- Two entries of one transaction come in the order of their calls. -/
def InTurn (s : OrderState α ω ρ) (a b : Nat × Happening ω ρ) : Prop :=
  ∀ id, In s id a.1 → In s id b.1 → a.1 ≤ b.1

structure Logged (R : Repertoire α ω ρ) (s : OrderState α ω ρ) : Prop where
  turns : s.log.Pairwise (InTurn s)
  begun : ∀ entry ∈ s.log, ∃ call, s.calls[entry.1]? = some call ∧ call.status ≠ .waiting
  did : ∀ (c : Nat) (call : Call α ω), s.calls[c]? = some call → Did R call (s.did c)

theorem did_record (s : OrderState α ω ρ) (happenings : List (Happening ω ρ)) :
    (s.record c happenings).did d = s.did d ++ if c = d then happenings else [] := by
  unfold OrderState.did OrderState.record
  rw [List.filterMap_append, List.filterMap_map]
  congr 1
  by_cases h : c = d
  · simp [h]
  · simp [h]

/-- Entries of one call after entries of calls that are not after it. -/
theorem turns_record {happenings : List (Happening ω ρ)} (h : s.log.Pairwise (InTurn s))
    (hin : ∀ {id d}, d < s.calls.length → (In t id d ↔ In s id d))
    (hbegun : ∀ entry ∈ s.log, entry.1 < s.calls.length)
    (hlast : ∀ entry ∈ s.log, InTurn t entry (c, .started))
    (hlog : t.log = s.log ++ happenings.map (c, ·)) : t.log.Pairwise (InTurn t) := by
  rw [hlog, List.pairwise_append]
  refine ⟨?_, ?_, ?_⟩
  · refine h.imp_of_mem fun ha hb hturn id hida hidb => ?_
    exact hturn id ((hin (hbegun _ ha)).mp hida) ((hin (hbegun _ hb)).mp hidb)
  · exact List.pairwise_map.mpr (List.pairwise_of_forall fun _ _ _ _ _ => Nat.le_refl c)
  · intro a ha b hb
    obtain ⟨happening, -, rfl⟩ := List.mem_map.mp hb
    exact hlast a ha

namespace Logged

variable (hl : Logged R s)
include hl

theorem lt_of_mem {entry : Nat × Happening ω ρ} (h : entry ∈ s.log) : entry.1 < s.calls.length := by
  obtain ⟨call, hcall, -⟩ := hl.begun entry h
  exact (List.getElem?_eq_some_iff.mp hcall).1

/-- A call that isn't made did nothing. -/
theorem did_length : s.did s.calls.length = [] := by
  unfold OrderState.did
  rw [List.filterMap_eq_nil_iff]
  intro entry hentry
  exact if_neg (Nat.ne_of_lt (hl.lt_of_mem hentry))

/-- An operation that goes on is the last of its transaction that began. -/
theorem of_goOn (hs : Ordered s) (h : s.calls[c]? = some call) (hc : call.status ≠ .finished)
    {before : Happening ω ρ} {awaited : Option ω}
    (hdoes : Does R call.transaction.isSome call.operation (s.did c ++ [before, .upTo awaited]) awaited) :
    Logged R (s.goOn c call before awaited) := by
  have hchanges : Changes s (s.goOn c call before awaited) c call (call.goOn awaited) :=
    changes_goOn h hc
  refine ⟨turns_record hl.turns (fun _ => hchanges.in_iff) (fun _ => hl.lt_of_mem) ?_ rfl, ?_, ?_⟩
  · intro entry hentry id hid hidc
    obtain ⟨found, hfound, hbegun⟩ := hl.begun entry hentry
    obtain ⟨found', hfound', hid⟩ := hchanges.in_iff.mp hid
    obtain rfl := Option.some.inj (hfound.symm.trans hfound')
    -- a call after this one would only have begun once this one had finished
    by_contra hlt
    obtain ⟨found', hfound', hfinished⟩ := hs.started entry.1 found id hfound hid hbegun c
      (hchanges.in_iff.mp hidc) (Nat.lt_of_not_le hlt)
    obtain rfl := Option.some.inj (h.symm.trans hfound')
    exact hc hfinished
  · intro entry hentry
    rw [hchanges.get]
    by_cases hec : entry.1 = c
    · exact ⟨_, if_pos hec, goOn_not_waiting⟩
    · rw [if_neg hec]
      rcases List.mem_append.mp hentry with hentry | hentry
      · exact hl.begun entry hentry
      · obtain ⟨happening, -, rfl⟩ := List.mem_map.mp hentry
        exact absurd rfl hec
  · intro d found hfound
    rw [hchanges.get] at hfound
    have hdid : (s.goOn c call before awaited).did d = s.did d ++
        if c = d then [before, .upTo awaited] else [] := did_record _ _
    rw [hdid]
    split at hfound
    · rename_i hd
      subst hd
      obtain rfl := Option.some.inj hfound
      rw [if_pos rfl]
      exact did_goOn hdoes
    · rename_i hd
      rw [if_neg (Ne.symm hd), List.append_nil]
      exact hl.did d found hfound

/-- A call whose operation does nothing changes no entry. -/
theorem of_change (h : Changes s t c call call') (hlog : t.log = s.log)
    (hdid : ∀ done, Did R call done → Did R call' done)
    (hbegun : call.status ≠ .waiting → call'.status ≠ .waiting) : Logged R t := by
  have hdidEq : ∀ d, t.did d = s.did d := fun d => by rw [OrderState.did, hlog, OrderState.did]
  refine ⟨?_, ?_, ?_⟩
  · rw [hlog]
    exact hl.turns.imp fun hturn id ha hb => hturn id (h.in_iff.mp ha) (h.in_iff.mp hb)
  · intro entry hentry
    obtain ⟨found, hfound, hstatus⟩ := hl.begun entry (hlog ▸ hentry)
    rw [h.get]
    by_cases hec : entry.1 = c
    · obtain rfl := Option.some.inj (h.found.symm.trans (hec ▸ hfound))
      exact ⟨call', if_pos hec, hbegun hstatus⟩
    · exact ⟨found, (if_neg hec).trans hfound, hstatus⟩
  · intro d found hfound
    rw [hdidEq]
    rw [h.get] at hfound
    split at hfound
    · rename_i hd
      obtain rfl := Option.some.inj hfound
      exact hdid _ (hd ▸ hl.did c call h.found)
    · exact hl.did d found hfound

/-- A call that is made, and what its operation does at once. -/
theorem of_push {happenings : List (Happening ω ρ)} (hcalls : t.calls = s.calls ++ [call])
    (hlog : t.log = s.log ++ happenings.map (s.calls.length, ·)) (hdid : Did R call happenings)
    (hbegun : happenings ≠ [] → call.status ≠ .waiting) : Logged R t := by
  have hdidEq : ∀ d, t.did d = s.did d ++ if s.calls.length = d then happenings else [] := fun d => by
    rw [← did_record]
    unfold OrderState.did OrderState.record
    rw [hlog]
  refine ⟨turns_record hl.turns ?_ (fun _ => hl.lt_of_mem) ?_ hlog, ?_, ?_⟩
  · intro id d hd
    rw [in_push hcalls]
    exact or_iff_left fun h => Nat.ne_of_lt hd h.1
  · exact fun entry hentry _ _ _ => Nat.le_of_lt (hl.lt_of_mem hentry)
  · intro entry hentry
    rw [hlog] at hentry
    rcases List.mem_append.mp hentry with hentry | hentry
    · obtain ⟨found, hfound, hstatus⟩ := hl.begun entry hentry
      exact ⟨found, get_push_of_some hcalls hfound, hstatus⟩
    · obtain ⟨happening, hhappening, rfl⟩ := List.mem_map.mp hentry
      exact ⟨call, (get_push hcalls _).trans (if_pos rfl), hbegun (List.ne_nil_of_mem hhappening)⟩
  · intro d found hfound
    rw [hdidEq]
    rw [get_push hcalls] at hfound
    split at hfound
    · rename_i hd
      obtain rfl := Option.some.inj hfound
      rw [hd, hl.did_length, if_pos rfl]
      exact hdid
    · rename_i hd
      rw [if_neg (Ne.symm hd), List.append_nil]
      exact hl.did d found hfound

end Logged

theorem logged_step {e : OrderEvent α ρ} (hs : Ordered s) (hl : Logged R s)
    (h : s.step R e = some t) : Logged R t := by
  cases step_iff.mp h with
  | unqueued made missing =>
    refine hl.of_push rfl rfl (did_goOn ?_) fun _ => goOn_not_waiting
    rw [made]
    exact .started
  | queued made given =>
    refine hl.of_push rfl (List.append_nil _).symm ?_ fun h => absurd rfl h
    rw [made]
    exact rfl
  | @start c call found waiting resolved =>
    refine hl.of_goOn hs found (waiting ▸ nofun) ?_
    have hdid := hl.did c call found
    rw [Did, waiting] at hdid
    rw [hdid]
    exact .started
  | @answer c call awaited answer found running =>
    refine hl.of_goOn hs found (running ▸ nofun) ?_
    have hdid := hl.did c call found
    rw [Did, running] at hdid
    exact .answered answer hdid
  | @finish c call id found settled queued =>
    have hchanges : ∀ {t : OrderState α ω ρ}, t.calls = s.calls.set c { call with status := .finished } →
        Changes s t c call { call with status := .finished } :=
      fun hcalls => ⟨found, hcalls, rfl, rfl, rfl, fun _ => rfl⟩
    refine hl.of_change (hchanges rfl) rfl ?_ fun _ => nofun
    intro done hdid
    rw [Did, settled] at hdid
    exact hdid
  | @pass c call found finished queued unresolved resolved =>
    have hchanges : Changes s (s.setCall c { call with passed := true }) c call
      { call with passed := true } := ⟨found, rfl, rfl, rfl, rfl, id⟩
    exact hl.of_change hchanges rfl (fun _ => id) id

theorem logged_init : Logged R (transactionOrder R).init :=
  ⟨.nil, nofun, fun _ _ h => nomatch h⟩

theorem logged_of_reachable (h : (transactionOrder R).Reachable s) : Logged R s := by
  have hboth := h.invariant (I := fun s => Ordered s ∧ Logged R s) ⟨ordered_init, logged_init⟩
    fun _ _ _ hs hstep => ⟨ordered_step hs.1 hstep, logged_step hs.1 hs.2 hstep⟩
  exact hboth.2

end Ez4.PgClient.TransactionOrder

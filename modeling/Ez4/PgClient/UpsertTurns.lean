import Ez4.PgClient.TransactionProgress

/-! # The savepoint of an upsert

What `sendUpsertStatement` has sent when it ends, and the turns that the
statements and upserts of a transaction take. -/
namespace Ez4.PgClient.TransactionOrder
open Ez4.Library Ez4.PgClient.Transaction

/-! ## What an upsert sends -/

theorem onward_true (work : Work) : onward true work = some work := by
  cases work <;> rfl

theorem statements_next_true (work : Work) (reply : Reply Failure) :
    statements.next true work reply = work.after reply := by
  show (work.after reply).bind (onward true) = work.after reply
  cases work.after reply with
  | none => rfl
  | some next => exact onward_true next

theorem after_upsert {statement : Statement} {step : UpsertStep} {reply : Reply Failure} {next : Work}
    (h : (Work.upsert statement step).after reply = some next) :
    ∃ step', next = .upsert statement step' := by
  cases step with
  | rollbackTo attempt =>
    cases reply with
    | ok =>
      simp only [Work.after] at h
      split at h <;> exact ⟨_, (Option.some.inj h).symm⟩
    | failed | refused | lost => cases h
  | savepoint | statement | release | giveUp =>
    rcases reply with _ | ⟨_ | _⟩ | _ | _ <;> cases h <;> exact ⟨_, rfl⟩

/-- An upsert ends with its release, or with a query that failed otherwise than
the statement does for a duplicate key. -/
def EndsWith (statement : Statement) (query : Command Statement) (reply : Reply Failure) : Prop :=
  query = .release ∧ reply = .ok ∨
    reply ≠ .ok ∧ (query = .run statement → reply ≠ .failed .duplicateUniqueKey)

theorem endsWith_of_after_none {statement : Statement} {step : UpsertStep} {reply : Reply Failure}
    (h : (Work.upsert statement step).after reply = none) :
    EndsWith statement (Work.upsert statement step).query reply := by
  by_cases hok : reply = .ok
  · subst hok
    cases step with
    | savepoint | statement => cases h
    | release | giveUp => exact .inl ⟨rfl, rfl⟩
    | rollbackTo attempt =>
      simp only [Work.after] at h
      split at h <;> cases h
  · refine .inr ⟨hok, fun hquery hduplicate => ?_⟩
    subst hduplicate
    cases step with
    | statement => cases h
    | savepoint | release | rollbackTo | giveUp => cases hquery

/-- The last query of an upsert that is over, and its answer. -/
def LastQuery (statement : Statement) (done : List (Happening Work (Reply Failure))) : Prop :=
  ∃ before work reply, done = before ++ [.sent work, .answered reply, .ended] ∧
    EndsWith statement work.query reply

/-- Where an upsert is: it sent its last query, or awaits the answer to one. -/
def Upserting (statement : Statement) (done : List (Happening Work (Reply Failure))) :
    Option Work → Prop
  | some work => (∃ step, work = .upsert statement step) ∧ ∃ before, done = before ++ [.sent work]
  | none => LastQuery statement done

theorem does_upsert {statement : Statement} {done : List (Happening Work (Reply Failure))}
    {awaited : Option Work} (h : Does statements true (sendUpsertStatement statement) done awaited) :
    Upserting statement done awaited := by
  induction h with
  | started => exact ⟨⟨.savepoint, rfl⟩, [.started], rfl⟩
  | @answered done work reply _ ih =>
    obtain ⟨⟨step, rfl⟩, before, rfl⟩ := ih
    rw [statements_next_true, List.append_assoc]
    cases hnext : (Work.upsert statement step).after reply with
    | none => exact ⟨before, _, reply, rfl, endsWith_of_after_none hnext⟩
    | some next =>
      refine ⟨after_upsert hnext, before ++ [.sent (.upsert statement step), .answered reply], ?_⟩
      rw [List.append_assoc]
      rfl

/-- Without a transaction only statements are sent. -/
theorem onward_false {work next : Work} (h : onward false work = some next) :
    ∃ statement, next.query = .run statement := by
  cases work with
  | statements statement rest => exact ⟨statement, Option.some.inj h ▸ rfl⟩
  | upsert statement step =>
    cases step with
    | savepoint | statement => exact ⟨statement, Option.some.inj h ▸ rfl⟩
    | release | giveUp => cases h
    | rollbackTo attempt =>
      simp only [onward, Bool.false_eq_true, if_false] at h
      split at h
      · cases h
      · exact ⟨statement, Option.some.inj h ▸ rfl⟩

theorem sent_of_upTo {work : Work} {awaited : Option Work}
    (h : (Happening.upTo awaited : Happening Work (Reply Failure)) = .sent work) : awaited = some work := by
  cases awaited with
  | none => cases h
  | some awaited => exact congrArg some (Happening.sent.inj h)

theorem does_unqueued {operation : Option Work} {done : List (Happening Work (Reply Failure))}
    {awaited : Option Work} (h : Does statements false operation done awaited) {work : Work}
    (hw : .sent work ∈ done) : ∃ statement, work.query = .run statement := by
  have hbind : ∀ {before : Option Work}, before.bind (onward false) = some work →
      ∃ statement, work.query = .run statement := fun h => by
    obtain ⟨before, -, hbefore⟩ := Option.bind_eq_some_iff.mp h
    exact onward_false hbefore
  induction h with
  | started =>
    rcases List.mem_cons.mp hw with hw | hw
    · cases hw
    · exact hbind (sent_of_upTo (List.mem_singleton.mp hw).symm)
  | answered reply _ ih =>
    rcases List.mem_append.mp hw with hw | hw
    · exact ih hw
    · rcases List.mem_cons.mp hw with hw | hw
      · cases hw
      · exact hbind (sent_of_upTo (List.mem_singleton.mp hw).symm)

/-! ## Turns -/

section Turns

variable {α ω ρ : Type}

def Running (s : OrderState α ω ρ) (c : Nat) : Prop :=
  ∃ call awaited, s.calls[c]? = some call ∧ call.status = .running awaited

/-- How the calls of a process take turns, whatever their operations are. -/
structure TakesTurns (R : Repertoire α ω ρ) (s : OrderState α ω ρ) : Prop where
  exclusive : ∀ id c d, In s id c → In s id d → Running s c → Running s d → c = d
  /-- What the operations of a transaction do follows the order of the calls. -/
  turns : s.log.Pairwise (InTurn s)
  /-- An operation does what it does alone, from its start, and to its end once it is over. -/
  does : ∀ (c : Nat) (call : Call α ω), s.calls[c]? = some call → Did R call (s.did c)
  cleared : (∀ (c : Nat) (call : Call α ω), s.calls[c]? = some call → call.status = .finished) →
    ∀ id, s.queues id = none
  /-- Without a transaction an operation waits for nothing. -/
  atOnce : ∀ (c : Nat) (call : Call α ω), s.calls[c]? = some call → call.transaction = none →
    call.status ≠ .waiting
  /-- Calls of its own transaction bring a call to its end: it waits for no other. -/
  finishes : ∀ (c : Nat) (call : Call α ω), s.calls[c]? = some call →
    ∃ events t, (∀ e ∈ events, ∃ d, OrderEvent.goesOn e = some d ∧ Together s c d) ∧
      (transactionOrder R).run events s = some t ∧ Finished t c
  /-- Once nothing goes on, every call has finished. -/
  ends : (∀ e d, OrderEvent.goesOn e = some d → s.step R e = none) →
    ∀ (c : Nat) (call : Call α ω), s.calls[c]? = some call → call.status = .finished

theorem takesTurns [Nonempty ρ] {R : Repertoire α ω ρ} {s : OrderState α ω ρ} (hs : Ordered s)
    (hl : Logged R s) : TakesTurns R s where
  exclusive := by
    have hle : ∀ {id c d}, In s id c → In s id d → Running s c → Running s d → c ≤ d := by
      intro id c d hc hd ⟨call, awaited, hcall, hrunning⟩ ⟨other, next, hother, hnext⟩
      by_contra hlt
      obtain ⟨found, hfound, hid⟩ := hc
      obtain rfl := Option.some.inj (hcall.symm.trans hfound)
      obtain ⟨found, hfound, hfinished⟩ :=
        hs.started c call id hcall hid (hrunning ▸ nofun) d hd (Nat.lt_of_not_le hlt)
      obtain rfl := Option.some.inj (hother.symm.trans hfound)
      rw [hnext] at hfinished
      cases hfinished
    exact fun id c d hc hd hrc hrd => Nat.le_antisymm (hle hc hd hrc hrd) (hle hd hc hrd hrc)
  turns := hl.turns
  does := hl.did
  cleared := by
    intro hall id
    cases hq : s.queues id with
    | none => rfl
    | some p =>
      obtain ⟨⟨call, hcall, -⟩, hunfinished, -⟩ := hs.tail id p hq
      exact absurd ⟨call, hcall, hall p call hcall⟩ hunfinished
  atOnce := by
    intro c call h hid
    rcases hs.unqueued c call h hid with ⟨awaited, hstatus⟩ | hstatus
    · exact hstatus ▸ nofun
    · exact hstatus ▸ nofun
  finishes := fun _ _ h => finishes hs h
  ends := by
    intro hfinal c call h
    by_contra hstatus
    obtain ⟨e, d, t, he, -, ht⟩ := together_goesOn (R := R) hs h (c := c) fun ⟨found, hfound, hfinished⟩ =>
      hstatus (Option.some.inj (h.symm.trans hfound) ▸ hfinished)
    rw [hfinal e d he] at ht
    cases ht

end Turns

/-- How an upsert holds its savepoint. -/
structure HoldsSavepoint (s : OrderState (Option Work) Work (Reply Failure)) : Prop where
  /-- Between an upsert's `SAVEPOINT` and its `RELEASE` no other operation of the
  transaction does anything. -/
  alone : ∀ c work release before between after, work.query = .savepoint → release.query = .release →
    s.log = before ++ (c, .sent work) :: (between ++ (c, .sent release) :: after) →
    ∀ entry ∈ between, ∀ id, In s id c → In s id entry.1 → entry.1 = c
  /-- The last query of an upsert is its `RELEASE`, unless a query failed. -/
  released : ∀ (c : Nat) (call : Call (Option Work) Work) (statement : Statement),
    s.calls[c]? = some call → call.transaction.isSome = true →
    call.operation = sendUpsertStatement statement →
    call.status = .settled ∨ call.status = .finished → LastQuery statement (s.did c)
  /-- No savepoint is sent without a transaction. -/
  unsent : ∀ (c : Nat) (call : Call (Option Work) Work) (work : Work), s.calls[c]? = some call →
    call.transaction = none → .sent work ∈ s.did c → ∃ statement, work.query = .run statement

theorem holdsSavepoint {s : OrderState (Option Work) Work (Reply Failure)}
    (hl : Logged statements s) : HoldsSavepoint s where
  alone := by
    intro c work release before between after _ _ hlog entry hentry id hc hid
    have hturns := hl.turns
    rw [hlog, List.pairwise_append, List.pairwise_cons, List.pairwise_append] at hturns
    obtain ⟨-, ⟨hfirst, -, -, hlast⟩, -⟩ := hturns
    have hge := hfirst entry (List.mem_append_left _ hentry) id hc hid
    have hle := hlast entry hentry _ List.mem_cons_self id hid hc
    exact Nat.le_antisymm hle hge
  released := by
    intro c call statement h hid hoperation hstatus
    have hdid := hl.did c call h
    have hdoes : Does statements true (sendUpsertStatement statement) (s.did c) none := by
      rw [← hid, ← hoperation]
      rcases hstatus with hstatus | hstatus <;> rw [Did, hstatus] at hdid <;> exact hdid
    exact does_upsert hdoes
  unsent := by
    intro c call work h hid hwork
    have hdid := hl.did c call h
    unfold Did at hdid
    split at hdid
    · rw [hdid] at hwork
      cases hwork
    all_goals
      rw [hid] at hdid
      exact does_unqueued hdid hwork

/-- **Operations of a transaction take turns**, whatever they are and however
their awaits interleave, and an upsert holds its savepoint alone. -/
theorem operations_take_turns :
    (∀ (α ω ρ : Type) [Nonempty ρ] (R : Repertoire α ω ρ) (s : OrderState α ω ρ),
      (transactionOrder R).Reachable s → TakesTurns R s) ∧
    ∀ s : OrderState (Option Work) Work (Reply Failure),
      (transactionOrder statements).Reachable s → HoldsSavepoint s :=
  ⟨fun _ _ _ _ _ _ h => takesTurns (ordered_of_reachable h) (logged_of_reachable h),
    fun _ h => holdsSavepoint (logged_of_reachable h)⟩

namespace Sample

/-- The `SAVEPOINT` of an upsert fails. -/
def savepointFails : List (OrderEvent (Option Work) (Reply Failure)) :=
  [.call (some "tx") (sendUpsertStatement 0), .start 0, .answer 0 (.failed .other), .finish 0]

/-- A statement called while an upsert runs whose statement meets a duplicate key. -/
def overlapping : List (OrderEvent (Option Work) (Reply Failure)) :=
  [.call (some "tx") (sendUpsertStatement 0), .start 0, .call (some "tx") (some (.statements 1 [])),
    .call none (some (.statements 2 [])), .answer 0 .ok, .answer 0 (.failed .duplicateUniqueKey),
    .answer 2 .ok, .answer 0 .ok, .answer 0 .ok, .answer 0 .ok, .finish 0, .start 1,
    .answer 1 (.failed .other), .finish 1]

theorem overlapping_takes_turns : (∃ s, (transactionOrder statements).run overlapping {} = some s ∧
    TakesTurns statements s) ∧
    ∃ s, (transactionOrder statements).run overlapping {} = some s ∧ HoldsSavepoint s := by
  have : Nonempty (Reply Failure) := ⟨.ok⟩
  exact ⟨⟨_, rfl, operations_take_turns.1 _ _ _ statements _ ⟨overlapping, rfl⟩⟩,
    _, rfl, operations_take_turns.2 _ ⟨overlapping, rfl⟩⟩

/-- A `SAVEPOINT` that was sent has its `RELEASE`, unless the statement failed
otherwise than for a duplicate key. -/
def ReleasedUnlessFailed (statement : Statement) (done : List (Happening Work (Reply Failure))) : Prop :=
  (∃ work, .sent work ∈ done ∧ work.query = .savepoint) →
    (∃ work, .sent work ∈ done ∧ work.query = .release) ∨
    ∃ before work reply after, done = before ++ .sent work :: .answered reply :: after ∧
      work.query = .run statement ∧ reply ≠ .ok ∧ reply ≠ .failed .duplicateUniqueKey

/-- A `SAVEPOINT` that fails is not released, and its statement is not sent. -/
theorem failed_savepoint_not_released : ¬∀ s : OrderState (Option Work) Work (Reply Failure),
    (transactionOrder statements).Reachable s →
      ∀ (c : Nat) (call : Call (Option Work) Work) (statement : Statement), s.calls[c]? = some call →
        call.transaction.isSome = true → call.operation = sendUpsertStatement statement →
        call.status = .finished → ReleasedUnlessFailed statement (s.did c) := by
  intro h
  have hdone := h _ ⟨savepointFails, rfl⟩ 0 _ 0 rfl rfl rfl rfl
  have hsent : ∀ {work : Work}, Happening.sent work ∈ ([.started, .sent (.upsert 0 .savepoint),
      .answered (.failed .other), .ended] : List (Happening Work (Reply Failure))) →
      work = .upsert 0 .savepoint := by
    intro work hwork
    simpa using hwork
  rcases hdone ⟨.upsert 0 .savepoint, List.mem_cons_of_mem _ List.mem_cons_self, rfl⟩ with
    ⟨work, hwork, hquery⟩ | ⟨before, work, reply, after, heq, hquery, -⟩
  · obtain rfl := hsent hwork
    cases hquery
  · obtain rfl := hsent (heq ▸ List.mem_append_right _ List.mem_cons_self)
    cases hquery

end Sample

end Ez4.PgClient.TransactionOrder

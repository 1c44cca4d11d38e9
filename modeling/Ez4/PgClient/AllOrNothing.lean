import Ez4.PgClient.Transaction

/-! # A transaction is all or nothing

`COMMIT` and `ROLLBACK` are sent without taking a turn. As long as no turn has
a query left to send then, nothing comes after them on the connection. When one
has, it's sent behind the `ROLLBACK` and takes effect on its own. -/
namespace Ez4.PgClient.Transaction
open Ez4.Library TransactionState

/-! ## What is left to send -/

/-- The operation of a turn may send another query after the one it sent. -/
def Work.maySendMore : Work → Bool
  | .statements _ rest => !rest.isEmpty
  | .upsert _ .giveUp => false
  | .upsert _ _ => true

/-- The turn may send a query. -/
def Turn.maySend : Turn → Bool
  | .waiting work => work.isSome
  | .awaiting work setting => setting || work.maySendMore
  | .answered _ true reply => reply == .ok || reply == .refused
  | .answered work false reply => (work.after reply).isSome

theorem Work.after_eq_none {work : Work} (h : work.maySendMore = false) (reply : Reply Failure) :
    work.after reply = none := by
  cases work with
  | statements statement rest =>
    cases rest with
    | nil => cases reply <;> rfl
    | cons => cases h
  | upsert statement step =>
    cases step with
    | giveUp => rfl
    | _ => cases h

/-- No turn has a query left when `COMMIT` or `ROLLBACK` is sent, and none is
taken until that is answered. -/
def SentBeforeEnd (s : TransactionState) : TransactionEvent → Prop
  | .endOperation _ => ∀ turn ∈ s.turns, turn.maySend = false
  | .takeTurn _ => ∀ threw, s.phase ≠ .ending threw
  | _ => True

instance decidableSentBeforeEnd (s : TransactionState) :
    ∀ event, Decidable (SentBeforeEnd s event)
  | .endOperation _ => inferInstanceAs (Decidable (∀ turn ∈ s.turns, turn.maySend = false))
  | .takeTurn _ => inferInstanceAs (Decidable (∀ threw, s.phase ≠ .ending threw))
  | .answer _ | .beginTurn | .resume => .isTrue trivial

/-! ## The property -/

/-- A query of a call: it neither begins nor ends the transaction. -/
def OfCall (query : Command Statement) : Prop := query ≠ .begin ∧ query.isEnd = false

/-- Nothing is sent but between the `BEGIN` and the end. An operation that
threw leaves no effect, and the pool gets no connection with a query pending. -/
structure AllOrNothing (s : TransactionState) : Prop where
  inside : ∃ body, (∀ query ∈ body, OfCall query) ∧ (s.sent = .begin :: body ∨
    ∃ threw, (s.phase = .ending threw ∨ s.phase = .ended threw) ∧
      s.sent = .begin :: body ++ [if threw then .rollback else .commit])
  noEffect : s.phase = .ended true → s.session.effects = []
  idle : s.released = true → s.pending = []

/-! ## The invariant -/

/-- What holds of a transaction in each of its phases. -/
inductive Sound (s : TransactionState) : Prop
  | beginning (hphase : s.phase = .beginning) (hregistered : s.registered = false)
      (hreleased : s.released = false) (hturns : s.turns = []) (hpending : s.pending = [.begin])
      (hsent : s.sent = [.begin]) (htransaction : s.session.transaction = none)
      (hclosed : s.session.closed = false) (heffects : s.session.effects = [])
  | notBegun (hphase : s.phase = .notBegun) (hregistered : s.registered = false)
      (hturns : s.turns = []) (hpending : s.pending = []) (hsent : s.sent = [.begin])
  | running {body : List (Command Statement)} (hphase : s.phase = .running)
      (hregistered : s.registered = true) (hreleased : s.released = false)
      (hbody : ∀ query ∈ body, OfCall query) (hsent : s.sent = .begin :: body)
      (hpending : ∀ query ∈ s.pending, OfCall query) (hheld : s.session.Held)
      (heffects : s.session.effects = [])
  | ending {body pending : List (Command Statement)} {threw : Bool}
      (hphase : s.phase = .ending threw)
      (hreleased : s.released = false) (hbody : ∀ query ∈ body, OfCall query)
      (hsent : s.sent = .begin :: body ++ [if threw then .rollback else .commit])
      (hpending : ∀ query ∈ pending, OfCall query)
      (hend : s.pending = pending ++ [if threw then .rollback else .commit])
      (hturns : ∀ turn ∈ s.turns, turn.maySend = false) (hheld : s.session.Held)
      (heffects : s.session.effects = [])
  | ended {body : List (Command Statement)} {threw : Bool} (hphase : s.phase = .ended threw)
      (hregistered : s.registered = false) (hbody : ∀ query ∈ body, OfCall query)
      (hsent : s.sent = .begin :: body ++ [if threw then .rollback else .commit])
      (hpending : s.pending = [])
      (hturns : ∀ turn ∈ s.turns, ∀ work reply, turn = .answered work true reply →
        turn.maySend = false)
      (heffects : threw = true → s.session.effects = [])

theorem Sound.allOrNothing {s : TransactionState} (h : Sound s) : AllOrNothing s := by
  cases h with
  | beginning hphase _ hreleased _ _ hsent =>
    refine ⟨⟨[], fun _ h => absurd h List.not_mem_nil, .inl hsent⟩, fun h => ?_, fun h => ?_⟩
    · rw [hphase] at h
      cases h
    · rw [hreleased] at h
      cases h
  | notBegun hphase _ _ hpending hsent =>
    refine ⟨⟨[], fun _ h => absurd h List.not_mem_nil, .inl hsent⟩, fun h => ?_, fun _ => hpending⟩
    rw [hphase] at h
    cases h
  | running hphase _ hreleased hbody hsent =>
    refine ⟨⟨_, hbody, .inl hsent⟩, fun h => ?_, fun h => ?_⟩
    · rw [hphase] at h
      cases h
    · rw [hreleased] at h
      cases h
  | ending hphase hreleased hbody hsent =>
    refine ⟨⟨_, hbody, .inr ⟨_, .inl hphase, hsent⟩⟩, fun h => ?_, fun h => ?_⟩
    · rw [hphase] at h
      cases h
    · rw [hreleased] at h
      cases h
  | ended hphase _ hbody hsent hpending _ heffects =>
    refine ⟨⟨_, hbody, .inr ⟨_, .inr hphase, hsent⟩⟩, fun h => ?_, fun _ => hpending⟩
    rw [hphase, Phase.ended.injEq] at h
    exact heffects h

/-! ## Steps -/

variable {dataApi : Bool} {s t : TransactionState}

theorem ofCall_query (work : Work) : OfCall work.query := by
  unfold Work.query
  split <;> exact ⟨by simp, rfl⟩

theorem ofCall_append {queries : List (Command Statement)} {query : Command Statement}
    (h : ∀ other ∈ queries, OfCall other) (hq : OfCall query) :
    ∀ other ∈ queries ++ [query], OfCall other := by
  intro other hother
  rcases List.mem_append.mp hother with hother | hother
  · exact h other hother
  · exact (List.mem_singleton.mp hother).symm ▸ hq

/-- A turn that goes on in a running transaction. -/
theorem sound_sent {query : Command Statement} {turns : List Turn} (hs : Sound s)
    (hphase : s.phase = .running) (hq : OfCall query) :
    Sound { s.send query with turns } := by
  cases hs with
  | @running body _ hregistered hreleased hbody hsent hpending hheld heffects =>
    have hsent : (s.send query).sent = .begin :: (body ++ [query]) := by simp [send, hsent]
    have hpending : ∀ q ∈ (s.send query).pending, OfCall q := ofCall_append hpending hq
    exact .running hphase hregistered hreleased (ofCall_append hbody hq) hsent hpending hheld
      heffects
  | beginning h | notBegun h | ending h | ended h => rw [hphase] at h; cases h

/-- A transaction that's only turns shorter. -/
theorem sound_finished {turn : Turn} {rest : List Turn} (hs : Sound s)
    (hturns : s.turns = turn :: rest) : Sound { s with turns := rest } := by
  have hrest : ∀ turn ∈ rest, turn ∈ s.turns := fun turn h => by
    rw [hturns]
    exact List.mem_cons_of_mem _ h
  cases hs with
  | beginning _ _ _ hnil => rw [hturns] at hnil; cases hnil
  | notBegun _ _ hnil => rw [hturns] at hnil; cases hnil
  | running hphase hregistered hreleased hbody hsent hpending hheld heffects =>
    exact .running hphase hregistered hreleased hbody hsent hpending hheld heffects
  | ending hphase hreleased hbody hsent hpending hend hquiet hheld heffects =>
    exact .ending hphase hreleased hbody hsent hpending hend
      (fun turn h => hquiet turn (hrest turn h)) hheld heffects
  | ended hphase hregistered hbody hsent hpending hquiet heffects =>
    exact .ended hphase hregistered hbody hsent hpending
      (fun turn h => hquiet turn (hrest turn h)) heffects

theorem Sound.running_of_registered (hs : Sound s) (h : s.registered = true)
    (hending : ∀ threw, s.phase ≠ .ending threw) : s.phase = .running := by
  cases hs with
  | running hphase => exact hphase
  | ending hphase => exact absurd hphase (hending _)
  | beginning _ hregistered | notBegun _ hregistered | ended _ hregistered =>
    rw [hregistered] at h
    cases h

theorem sound_startStatement {work : Work} {turn : Turn} {rest : List Turn} (hs : Sound s)
    (hturns : s.turns = turn :: rest) (hending : ∀ threw, s.phase ≠ .ending threw) :
    Sound (s.startStatement dataApi work rest) := by
  unfold TransactionState.startStatement
  split
  · rename_i hregistered
    refine sound_sent hs (hs.running_of_registered hregistered hending) ?_
    split
    · exact ⟨by simp, rfl⟩
    · exact ofCall_query work
  · exact sound_finished hs hturns

/-- The turn of an ending transaction has nothing to send. -/
theorem Sound.not_ending_of_maySend {turn : Turn} (hs : Sound s) (h : turn ∈ s.turns)
    (hsend : turn.maySend = true) (threw : Bool) : s.phase ≠ .ending threw := by
  intro hphase
  cases hs with
  | ending _ _ _ _ _ _ hquiet =>
    rw [hquiet turn h] at hsend
    cases hsend
  | beginning h | notBegun h | running h | ended h => rw [hphase] at h; cases h

theorem sound_goOn {work : Option Work} {turn : Turn} {rest : List Turn} (hs : Sound s)
    (hturns : s.turns = turn :: rest) (hsend : work.isSome = true → turn.maySend = true) :
    Sound (s.goOn dataApi work rest) := by
  unfold TransactionState.goOn
  split
  · exact sound_finished hs hturns
  · exact sound_startStatement hs hturns
      (hs.not_ending_of_maySend (hturns ▸ List.mem_cons_self) (hsend rfl))

theorem sound_resumeSetting {work : Work} {reply : Reply Failure} {rest : List Turn}
    (hs : Sound s) (hturns : s.turns = .answered work true reply :: rest) :
    Sound (s.resumeSetting work reply rest) := by
  have hmem : .answered work true reply ∈ s.turns := hturns ▸ List.mem_cons_self
  have hsends : (Turn.answered work true reply).maySend = true → s.phase = .running := by
    intro hsend
    have hending := hs.not_ending_of_maySend hmem hsend
    cases hs with
    | beginning _ _ _ hnil => rw [hturns] at hnil; cases hnil
    | notBegun _ _ hnil => rw [hturns] at hnil; cases hnil
    | running hphase => exact hphase
    | ending hphase => exact absurd hphase (hending _)
    | ended _ _ _ _ _ hquiet =>
      rw [hquiet _ hmem work reply rfl] at hsend
      cases hsend
  unfold TransactionState.resumeSetting
  split
  · exact sound_sent hs (hsends rfl) (ofCall_query work)
  · exact sound_sent hs (hsends rfl) (ofCall_query work)
  · exact sound_finished hs hturns
  · exact sound_finished hs hturns

theorem maySend_answerTurn {reply : Reply Failure} {turns : List Turn}
    (h : ∀ turn ∈ turns, turn.maySend = false) :
    ∀ turn ∈ answerTurn reply turns, turn.maySend = false := by
  unfold TransactionState.answerTurn
  split
  · rename_i work setting rest
    intro turn hturn
    rcases List.mem_cons.mp hturn with rfl | hturn
    · have hfirst := h _ List.mem_cons_self
      simp only [Turn.maySend, Bool.or_eq_false_iff] at hfirst
      rw [hfirst.1]
      simp only [Turn.maySend, Work.after_eq_none hfirst.2 reply, Option.isSome_none]
    · exact h turn (List.mem_cons_of_mem _ hturn)
  · exact h

/-- A query of a call is answered. -/
theorem answered_ofCall {query : Command Statement} {reply : Reply Failure} (hq : OfCall query) :
    s.answered query reply = { s with turns := TransactionState.answerTurn reply s.turns } := by
  obtain ⟨hbegin, hend⟩ := hq
  unfold TransactionState.answered
  split
  · exact absurd rfl hbegin
  · cases hend
  · cases hend
  · rfl

theorem sound_answer {verdict : Verdict Failure} (hs : Sound s)
    (h : s.step dataApi (.answer verdict) = some t) : Sound t := by
  cases hs with
  | beginning hphase hregistered hreleased hturns hpending hsent htransaction hclosed heffects =>
    simp only [step, hpending, Option.some.injEq] at h
    subst h
    simp only [answered, hphase]
    split
    · rename_i hok
      obtain ⟨hheld, hsame⟩ := Session.held_begin htransaction hclosed hok
      exact .running rfl rfl hreleased (fun _ h => absurd h List.not_mem_nil) hsent
        (fun _ h => absurd h List.not_mem_nil) hheld (hsame.trans heffects)
    · exact .notBegun rfl hregistered hturns rfl hsent
  | notBegun _ _ _ hpending => simp only [step, hpending, reduceCtorEq] at h
  | running hphase hregistered hreleased hbody hsent hpending hheld heffects =>
    simp only [step] at h
    split at h
    · cases h
    · rename_i query rest heq
      cases h
      have hq : OfCall query := hpending query (heq ▸ List.mem_cons_self)
      rw [answered_ofCall hq]
      obtain ⟨hheld, hsame⟩ : (s.session.run query verdict).1.Held ∧
          (s.session.run query verdict).1.effects = s.session.effects := hheld.run hq.2
      exact .running hphase hregistered hreleased hbody hsent
        (fun other hother => hpending other (heq ▸ List.mem_cons_of_mem _ hother)) hheld
        (hsame.trans heffects)
  | @ending body pending threw hphase hreleased hbody hsent hpending hend hquiet hheld heffects =>
    cases pending with
    | nil =>
      simp only [step, hend, List.nil_append, Option.some.injEq] at h
      subst h
      cases threw with
      | false =>
        simp only [answered, hphase, Bool.false_eq_true, if_false]
        exact .ended rfl rfl hbody hsent rfl (fun turn hturn _ _ _ => hquiet turn hturn) nofun
      | true =>
        simp only [answered, hphase, if_true]
        exact .ended rfl rfl hbody hsent rfl (fun turn hturn _ _ _ => hquiet turn hturn)
          fun _ => hheld.rollback.trans heffects
    | cons query rest =>
      have hq : OfCall query := hpending query List.mem_cons_self
      simp only [step, hend, List.cons_append, Option.some.injEq] at h
      subst h
      rw [answered_ofCall hq]
      obtain ⟨hheld, hsame⟩ : (s.session.run query verdict).1.Held ∧
          (s.session.run query verdict).1.effects = s.session.effects := hheld.run hq.2
      exact .ending hphase hreleased hbody hsent
        (fun other hother => hpending other (List.mem_cons_of_mem _ hother)) rfl
        (maySend_answerTurn hquiet) hheld (hsame.trans heffects)
  | ended _ _ _ _ hpending => simp only [step, hpending, reduceCtorEq] at h

theorem sound_takeTurn {work : Option Work} (hs : Sound s)
    (hending : ∀ threw, s.phase ≠ .ending threw)
    (h : s.step dataApi (.takeTurn work) = some t) : Sound t := by
  simp only [step] at h
  split at h
  · rename_i hclient
    cases h
    cases hs with
    | beginning hphase => simp [hasClient, hphase] at hclient
    | notBegun hphase => simp [hasClient, hphase] at hclient
    | running hphase hregistered hreleased hbody hsent hpending hheld heffects =>
      exact .running hphase hregistered hreleased hbody hsent hpending hheld heffects
    | ending hphase => exact absurd hphase (hending _)
    | ended hphase hregistered hbody hsent hpending hquiet heffects =>
      refine .ended hphase hregistered hbody hsent hpending (fun turn hturn => ?_) heffects
      rcases List.mem_append.mp hturn with hturn | hturn
      · exact hquiet turn hturn
      · rw [List.mem_singleton.mp hturn]
        exact fun _ _ h => by cases h
  · cases h

theorem sound_endOperation {threw : Bool} (hs : Sound s)
    (hquiet : ∀ turn ∈ s.turns, turn.maySend = false)
    (h : s.step dataApi (.endOperation threw) = some t) : Sound t := by
  simp only [step] at h
  split at h
  · rename_i hphase
    cases h
    cases hs with
    | @running body _ hregistered hreleased hbody hsent hpending hheld heffects =>
      have hsent : (s.send (if threw then .rollback else .commit)).sent =
          .begin :: body ++ [if threw then .rollback else .commit] := by simp [send, hsent]
      exact .ending rfl hreleased hbody hsent hpending rfl hquiet hheld heffects
    | beginning h | notBegun h | ending h | ended h => rw [hphase] at h; cases h
  · cases h

/-- **A step that leaves nothing to send behind the end keeps the phases sound.** -/
theorem sound_step {event : TransactionEvent} (hs : Sound s) (hok : SentBeforeEnd s event)
    (h : s.step dataApi event = some t) : Sound t := by
  cases event with
  | answer verdict => exact sound_answer hs h
  | takeTurn work => exact sound_takeTurn hs hok h
  | beginTurn =>
    simp only [step] at h
    split at h
    · rename_i work rest hturns
      cases h
      exact sound_goOn hs hturns fun hwork => hwork
    · cases h
  | resume =>
    simp only [step] at h
    split at h
    · rename_i work reply rest hturns
      cases h
      exact sound_resumeSetting hs hturns
    · rename_i work reply rest hturns
      cases h
      exact sound_goOn hs hturns fun hwork => hwork
    · cases h
  | endOperation threw => exact sound_endOperation hs hok h

/-- **A transaction is all or nothing as long as nothing is sent behind its end.** -/
theorem transaction_allOrNothing {events : List TransactionEvent}
    (hok : (transaction dataApi).Meets SentBeforeEnd events (transaction dataApi).init)
    (h : (transaction dataApi).run events (transaction dataApi).init = some s) :
    AllOrNothing s := by
  have hinit : Sound (transaction dataApi).init :=
    .beginning rfl rfl rfl rfl rfl rfl rfl rfl rfl
  exact (Machine.run_invariant_of_meets (I := Sound)
    (fun s event t hs hok hstep => sound_step hs hok hstep) hinit hok h).allOrNothing

/-- Two calls that are awaited one after the other, before the operation throws. -/
def awaitedCalls : List TransactionEvent :=
  [.answer .succeeds, .takeTurn (some (.statements 1 [])), .beginTurn, .answer .succeeds, .resume,
    .takeTurn (some (.upsert 2 .savepoint)), .beginTurn, .answer .succeeds, .resume,
    .answer .succeeds, .resume, .answer .succeeds, .resume, .endOperation true, .answer .succeeds]

def rolledBack : TransactionState :=
  ((transaction false).run awaitedCalls (transaction false).init).getD {}

theorem awaitedCalls_allOrNothing : rolledBack.sent =
      [.begin, .run 1, .savepoint, .run 2, .release, .rollback] ∧ AllOrNothing rolledBack := by
  have hok : (transaction false).Meets SentBeforeEnd awaitedCalls (transaction false).init := by
    decide
  exact ⟨by decide, transaction_allOrNothing hok rfl⟩

/-- Two raw queries that are started together, before the operation throws. The
second one takes its turn once the first one was answered, the `ROLLBACK`
being sent and not answered yet. -/
def overlappingCalls : List TransactionEvent :=
  [.answer .succeeds, .takeTurn (some (.statements 1 [])), .takeTurn (some (.statements 2 [])),
    .beginTurn, .endOperation true, .answer .succeeds, .resume, .beginTurn, .answer .succeeds,
    .answer .succeeds]

def lateStatement : TransactionState :=
  ((transaction false).run overlappingCalls (transaction false).init).getD {}

theorem overlappingCalls_not_allOrNothing :
    (transaction false).Reachable lateStatement ∧ lateStatement.phase = .ended true ∧
      lateStatement.sent = [.begin, .run 1, .rollback, .run 2] ∧
      lateStatement.session.effects = [2] ∧ ¬ AllOrNothing lateStatement := by
  refine ⟨⟨overlappingCalls, rfl⟩, by decide, by decide, by decide, fun h => ?_⟩
  have heffects := h.noEffect (by decide)
  revert heffects
  decide

end Ez4.PgClient.Transaction

import Mathlib.Data.Nat.Init
import Ez4.PgClient.TransactionLog

/-! # The calls of a transaction all finish

A call awaits calls of its own transaction only, and there is always one of them
that goes on. What is left to do grows smaller with each event that goes on. -/
namespace Ez4.PgClient.TransactionOrder
open Ez4.Library Ez4.PgClient.Transaction

variable {α ω ρ : Type} {R : Repertoire α ω ρ} {s t : OrderState α ω ρ} {c d p : Nat}
  {call call' : Call α ω} {id : String}

/-! ## What is left -/

def awaitedRank (R : Repertoire α ω ρ) : Option ω → Nat
  | some awaited => R.rank awaited + 1
  | none => 0

/-- How many events a call may still go on with. -/
def Call.left (R : Repertoire α ω ρ) (call : Call α ω) : Nat :=
  match call.status with
  | .waiting => awaitedRank R (R.first call.transaction.isSome call.operation) + 3
  | .running awaited => R.rank awaited + 3
  | .settled => 2
  | .finished => if call.passed then 0 else 1

def OrderState.left (R : Repertoire α ω ρ) (s : OrderState α ω ρ) : Nat :=
  (s.calls.map (Call.left R)).sum

theorem left_goOn (call : Call α ω) (awaited : Option ω) : (call.goOn awaited).left R ≤ awaitedRank R awaited + 2 := by
  unfold Call.left Call.goOn awaitedRank
  cases awaited with
  | some awaited => exact Nat.le_refl _
  | none =>
    cases call.transaction.isSome with
    | true => exact Nat.le_refl _
    | false =>
      cases call.passed with
      | true => exact Nat.zero_le _
      | false => exact Nat.le_succ 1

theorem sum_set_lt {β : Type} {f : β → Nat} {l : List β} {b b' : β} (h : l[c]? = some b)
    (hlt : f b' < f b) : ((l.set c b').map f).sum < (l.map f).sum := by
  induction l generalizing c with
  | nil => cases h
  | cons first rest ih =>
    cases c with
    | zero =>
      obtain rfl := Option.some.inj h
      simp only [List.set_cons_zero, List.map_cons, List.sum_cons]
      omega
    | succ c =>
      have := ih h
      simp only [List.set_cons_succ, List.map_cons, List.sum_cons]
      omega

/-- An event that goes on changes one call, which has less left. -/
theorem changes_of_goesOn {e : OrderEvent α ρ} (he : e.goesOn = some c) (h : s.step R e = some t) :
    ∃ call call', Changes s t c call call' ∧ call'.left R < call.left R := by
  cases step_iff.mp h with
  | unqueued made missing => cases he
  | queued made given => cases he
  | @start _ call found waiting resolved =>
    obtain rfl := Option.some.inj he
    refine ⟨call, _, changes_goOn found (waiting ▸ nofun), ?_⟩
    have hleft : call.left R =
        awaitedRank R (R.first call.transaction.isSome call.operation) + 3 := by
      rw [Call.left, waiting]
    have := left_goOn (R := R) call (R.first call.transaction.isSome call.operation)
    omega
  | @answer _ call awaited answer found running =>
    obtain rfl := Option.some.inj he
    refine ⟨call, _, changes_goOn found (running ▸ nofun), ?_⟩
    have hleft : call.left R = R.rank awaited + 3 := by rw [Call.left, running]
    have hrank : awaitedRank R (R.next call.transaction.isSome awaited answer) ≤ R.rank awaited := by
      unfold awaitedRank
      split
      · rename_i hnext
        exact R.rank_next hnext
      · exact Nat.zero_le _
    have := left_goOn (R := R) call (R.next call.transaction.isSome awaited answer)
    omega
  | @finish _ call id found settled queued =>
    obtain rfl := Option.some.inj he
    refine ⟨call, { call with status := .finished }, ⟨found, rfl, rfl, rfl, rfl, fun _ => rfl⟩, ?_⟩
    have hleft : call.left R = 2 := by rw [Call.left, settled]
    rw [hleft]
    show (if call.passed then 0 else 1) < 2
    split <;> decide
  | @pass _ call found finished queued unresolved resolved =>
    obtain rfl := Option.some.inj he
    refine ⟨call, { call with passed := true }, ⟨found, rfl, rfl, rfl, rfl, fun h => h⟩, ?_⟩
    unfold Call.isFinished at finished
    split at finished
    · rename_i hstatus
      simp only [Call.left, hstatus, unresolved]
      decide
    · cases finished

theorem left_of_goesOn {e : OrderEvent α ρ} (he : e.goesOn = some c) (h : s.step R e = some t) :
    t.left R < s.left R := by
  obtain ⟨call, call', hchanges, hlt⟩ := changes_of_goesOn he h
  unfold OrderState.left
  rw [hchanges.calls]
  exact sum_set_lt hchanges.found hlt

/-! ## Some call goes on -/

/-- A call of the transaction goes on. -/
def GoesOn (R : Repertoire α ω ρ) (s : OrderState α ω ρ) (id : String) : Prop :=
  ∃ e c t, e.goesOn = some c ∧ In s id c ∧ s.step R e = some t

/-- Among calls that have finished, the first unresolved tail can resolve. -/
theorem goesOn_of_unresolved (hs : Ordered s) (h : s.calls[p]? = some call)
    (hid : call.transaction = some id) (hfinished : ∀ d, In s id d → d ≤ p → Finished s d)
    (hresolved : call.isTailResolved = false) : GoesOn R s id := by
  induction p using Nat.strong_induction_on generalizing call with
  | _ p ih =>
    have hin : In s id p := ⟨call, h, hid⟩
    obtain ⟨found, hfound, hstatus⟩ := hfinished p hin (Nat.le_refl p)
    obtain rfl := Option.some.inj (h.symm.trans hfound)
    have hcall : call.isFinished = true := by rw [Call.isFinished, hstatus]
    have hprevious := hs.previous p call id h hid
    unfold Call.isTailResolved at hresolved
    cases hq : call.previous with
    | none =>
      rw [hq, Option.isNone_none, if_pos rfl, hcall] at hresolved
      cases hresolved
    | some q =>
      rw [hq] at hprevious
      rw [hq, Option.isNone_some, if_neg Bool.false_ne_true] at hresolved
      obtain ⟨hqp, ⟨tail, htail, htailId⟩, -⟩ := hprevious
      cases hbefore : tail.isTailResolved with
      | true =>
        have hgo : s.isPreviousResolved call = true := by
          simp only [OrderState.isPreviousResolved, hq, htail, hbefore]
        exact ⟨.pass p, p, _, rfl, hin, step_iff.mpr (.pass h hcall (hq ▸ rfl) hresolved hgo)⟩
      | false =>
        exact ih q hqp htail htailId (fun d hd hle => hfinished d hd (by omega)) hbefore

/-- A transaction with a call that hasn't finished has one that goes on. -/
theorem goesOn_of_unfinished [Nonempty ρ] (hs : Ordered s) (hin : In s id c)
    (hc : ¬Finished s c) : GoesOn R s id := by
  induction c using Nat.strong_induction_on with
  | _ c ih =>
    by_cases halone : Alone s id c
    · obtain ⟨call, h, hid⟩ := hin
      have hcall : In s id c := ⟨call, h, hid⟩
      cases hstatus : call.status with
      | waiting =>
        cases hgo : s.isPreviousResolved call with
        | true => exact ⟨.start c, c, _, rfl, hcall, step_iff.mpr (.start h hstatus hgo)⟩
        | false =>
          have hprevious := hs.previous c call id h hid
          unfold OrderState.isPreviousResolved at hgo
          cases hp : call.previous with
          | none =>
            rw [hp] at hgo
            cases hgo
          | some p =>
            rw [hp] at hprevious
            obtain ⟨hpc, ⟨tail, htail, htailId⟩, -⟩ := hprevious
            simp only [hp, htail] at hgo
            exact goesOn_of_unresolved hs htail htailId (fun d hd hle => halone d hd (by omega)) hgo
      | running awaited =>
        have answer : ρ := Classical.choice inferInstance
        exact ⟨.answer c answer, c, _, rfl, hcall, step_iff.mpr (.answer h hstatus)⟩
      | settled => exact ⟨.finish c, c, _, rfl, hcall, step_iff.mpr (.finish h hstatus hid)⟩
      | finished => exact absurd ⟨call, h, hstatus⟩ hc
    · simp only [Alone, not_forall] at halone
      obtain ⟨d, hd, hlt, hunfinished⟩ := halone
      exact ih d hlt hd hunfinished

/-- The calls that one may wait for. -/
def Together (s : OrderState α ω ρ) (c d : Nat) : Prop := d = c ∨ ∃ id, In s id c ∧ In s id d

/-- A call that hasn't finished goes on, or one of its own transaction does. -/
theorem together_goesOn [Nonempty ρ] (hs : Ordered s) (h : s.calls[c]? = some call)
    (hc : ¬Finished s c) : ∃ e d t, e.goesOn = some d ∧ Together s c d ∧ s.step R e = some t := by
  cases hid : call.transaction with
  | some id =>
    obtain ⟨e, d, t, he, hd, ht⟩ := goesOn_of_unfinished (R := R) hs ⟨call, h, hid⟩ hc
    exact ⟨e, d, t, he, .inr ⟨id, ⟨call, h, hid⟩, hd⟩, ht⟩
  | none =>
    rcases hs.unqueued c call h hid with ⟨awaited, hstatus⟩ | hstatus
    · have answer : ρ := Classical.choice inferInstance
      exact ⟨.answer c answer, c, _, rfl, .inl rfl, step_iff.mpr (.answer h hstatus)⟩
    · exact absurd ⟨call, h, hstatus⟩ hc

/-- A call is brought to its end by calls of its own transaction. -/
theorem finishes [Nonempty ρ] (hs : Ordered s) (h : s.calls[c]? = some call) :
    ∃ events t, (∀ e ∈ events, ∃ d, OrderEvent.goesOn e = some d ∧ Together s c d) ∧
      (transactionOrder R).run events s = some t ∧ Finished t c := by
  induction hn : s.left R using Nat.strong_induction_on generalizing s call with
  | _ n ih =>
    by_cases hc : Finished s c
    · exact ⟨[], s, nofun, rfl, hc⟩
    · obtain ⟨e, d, u, he, hd, hu⟩ := together_goesOn (R := R) hs h hc
      obtain ⟨before, after, hchanges, -⟩ := changes_of_goesOn he hu
      have hfound : ∃ found, u.calls[c]? = some found := by
        rw [hchanges.get]
        by_cases hcd : c = d
        · exact ⟨after, if_pos hcd⟩
        · exact ⟨call, (if_neg hcd).trans h⟩
      obtain ⟨found, hfound⟩ := hfound
      obtain ⟨events, t, hevents, hrun, hfinished⟩ :=
        ih _ (hn ▸ left_of_goesOn he hu) (ordered_step hs hu) hfound rfl
      refine ⟨e :: events, t, ?_, Machine.run_cons.mpr ⟨u, hu, hrun⟩, hfinished⟩
      rw [List.forall_mem_cons]
      refine ⟨⟨d, he, hd⟩, fun e' he' => ?_⟩
      obtain ⟨d', hd', htogether⟩ := hevents e' he'
      refine ⟨d', hd', htogether.imp_right fun ⟨id, hc, hd⟩ => ?_⟩
      exact ⟨id, hchanges.in_iff.mp hc, hchanges.in_iff.mp hd⟩

end Ez4.PgClient.TransactionOrder

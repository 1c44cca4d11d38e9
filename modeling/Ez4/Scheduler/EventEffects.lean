import Ez4.Scheduler.EventKept

/-! # Every action keeps the invariant

One lemma for each effect of an action, and from them what holds of every state
that the scheduler reaches. -/
namespace Ez4.Scheduler.Events
open Ez4.Library Ez4.Utils

variable {T : Type} {p : Parameters T} {s : State T}

namespace Kept

theorem start (p : Parameters T) (time : Int) : Kept p ({ now := time } : State T) where
  slots :=
    { handles := List.nodup_nil
      slot := fun t ht => absurd ht (List.not_mem_nil)
      slot_lt := fun _ _ h => absurd h (by simp)
      slot_inj := fun _ _ _ h => absurd h (by simp)
      slot_event := fun _ _ h => absurd h (by simp)
      active := fun t ht => absurd ht (List.not_mem_nil) }
  filed :=
    { events_eq := fun _ => rfl
      object_lt := fun _ _ h => absurd h (List.not_mem_nil)
      object_inj := fun _ _ _ _ h => absurd h (List.not_mem_nil)
      written := fun _ h => absurd h (List.not_mem_nil)
      run_lt := fun _ h => absurd h (List.not_mem_nil) }
  attended := fun _ _ h => absurd h (by simp)
  lives := ⟨fun _ => .over,
    { life := fun _ _ h => absurd h (List.not_mem_nil)
      waiting := fun _ h => absurd h (List.not_mem_nil)
      runs := fun _ h => absurd h (List.not_mem_nil)
      activation_lt := fun _ h => absurd h (List.not_mem_nil)
      activations := List.nodup_nil
      objects := List.nodup_nil }⟩
  punctual := ⟨fun _ h => absurd h (List.not_mem_nil), fun _ h => absurd h (List.not_mem_nil)⟩

theorem idle (h : Kept p s) {now : Int} {next : Nat} (hnow : s.now ≤ now) (hnext : s.next ≤ next) :
    Kept p { s with now, next } where
  slots := h.slots.fewer (List.Sublist.refl _) rfl rfl hnext
  filed := h.filed.same rfl rfl hnext fun r hr => ⟨r, hr, rfl⟩
  attended := h.attended
  lives := by
    obtain ⟨phase, hlives⟩ := h.lives
    exact ⟨phase,
      { hlives with
        activation_lt := fun r hr => Nat.lt_of_lt_of_le (hlives.activation_lt r hr) hnext }⟩
  punctual :=
    { pending := h.punctual.pending
      running := fun r hr => le_trans (h.punctual.running r hr) hnow }

/-- A timeout waits while its event is not run. -/
theorem timerId_ne (h : Kept p s) {r : Running T} (hr : r ∈ s.running)
    (hactive : r.run.isActive s = true) {t : Timeout T} (ht : t ∈ s.pending) :
    t.run.timerId ≠ r.run.timerId := by
  intro heq
  obtain ⟨phase, hlives⟩ := h.lives
  have hevent := h.slots.active t ht
  rw [heq, h.filed.event_of_active hr hactive] at hevent
  obtain ⟨due, -, hwaiting⟩ := hlives.waiting t ht
  rw [← Option.some.inj hevent, hlives.runs r hr] at hwaiting
  exact absurd hwaiting (by simp)

/-- The event whose timeout waits is not run. -/
theorem object_ne (h : Kept p s) {r : Running T} (hr : r ∈ s.running) {t : Timeout T}
    (ht : t ∈ s.pending) : r.run.input.object ≠ t.run.input.object := by
  intro heq
  obtain ⟨phase, hlives⟩ := h.lives
  obtain ⟨due, -, hwaiting⟩ := hlives.waiting t ht
  rw [← heq, hlives.runs r hr] at hwaiting
  exact absurd hwaiting (by simp)

end Kept

/-! ## An event is written or deleted -/

/-- The timeout of an event that is written. -/
def firstTimeout (s : State T) (name : String) (input : ScheduledEvent T) : Timeout T where
  handle := s.next + 1
  due := s.now + min (max (input.date - s.now) 0) maxTimeoutDelay
  rest := max (input.date - s.now) 0 - min (max (input.date - s.now) 0) maxTimeoutDelay
  run := ⟨name, input⟩
  attempt := 0
  firstTime := none

theorem write_pending (s : State T) (name : String) (input : ScheduledEvent T) :
    (s.fresh.write name input).pending =
      (s.fresh.unset name).pending ++ [firstTimeout s name input] := by
  unfold State.write State.setTimer State.file firstTimeout
  simp only [unset_now, unset_next]
  rfl

theorem write_timers (s : State T) (name : String) (input : ScheduledEvent T) :
    (s.fresh.write name input).timers = put s.timers name (some (s.next + 1)) := by
  unfold State.write State.setTimer State.file
  simp only [unset_timers, unset_next]
  rfl

theorem write_events (s : State T) (name : String) (input : ScheduledEvent T) :
    (s.fresh.write name input).events = put s.events name (some input) := by
  unfold State.write State.setTimer State.file
  simp only [unset_events]
  rfl

theorem write_log (s : State T) (name : String) (input : ScheduledEvent T) :
    (s.fresh.write name input).log = .written name input :: s.log := by
  unfold State.write State.setTimer State.file
  simp only [unset_log]
  rfl

theorem write_next (s : State T) (name : String) (input : ScheduledEvent T) :
    (s.fresh.write name input).next = s.next + 2 := by
  unfold State.write State.setTimer State.file
  simp only [unset_next]
  rfl

theorem write_running (s : State T) (name : String) (input : ScheduledEvent T) :
    (s.fresh.write name input).running = s.running := by
  unfold State.write State.setTimer State.file
  simp only [unset_running]
  rfl

theorem write_now (s : State T) (name : String) (input : ScheduledEvent T) :
    (s.fresh.write name input).now = s.now := by
  unfold State.write State.setTimer State.file
  simp only [unset_now]
  rfl

namespace Kept

theorem fresh (h : Kept p s) : Kept p s.fresh := h.idle (le_refl _) (Nat.le_succ _)

theorem mem_write (h : Kept p s) {name : String} {input : ScheduledEvent T} {t : Timeout T} :
    t ∈ (s.fresh.write name input).pending ↔
      (t ∈ s.pending ∧ t.run.timerId ≠ name) ∨ t = firstTimeout s name input := by
  rw [write_pending, List.mem_append, List.mem_singleton, h.fresh.slots.mem_unset]
  rfl

theorem written (h : Kept p s) {name : String} {input : ScheduledEvent T}
    (hobject : input.object = s.next) (hdate : s.now ≤ input.date) :
    Kept p (s.fresh.write name input) where
  slots := by
    have hunset : Slots (s.fresh.unset name) :=
      h.fresh.slots.fewer (unset_pending_sublist _ _) (unset_timers _ _) (unset_events _ _)
        (by rw [unset_next])
    refine hunset.armed (t := s.fresh.write name input) (fun t ht => ?_) ?_
      (write_pending s name input) ?_ ?_ ?_
    · exact (h.fresh.slots.mem_unset.mp ht).2
    · rw [unset_next]
      rfl
    · rw [write_timers, unset_timers]
      rfl
    · rw [write_events, unset_events]
      rfl
    · rw [write_next, unset_next]
      exact Nat.lt_succ_self _
  filed := h.filed.wrote (write_log s name input) (write_events s name input) hobject
    (by rw [write_next]; omega) (write_running s name input)
  attended := by
    intro other input' hevent
    rw [write_events, put_apply] at hevent
    rw [write_running]
    split at hevent
    · rename_i hother
      refine .inl ⟨firstTimeout s name input, h.mem_write.mpr (.inr rfl), ?_⟩
      rw [hother, ← Option.some.inj hevent]
      rfl
    · rename_i hother
      rcases h.attended other input' hevent with ⟨t, ht, hrun⟩ | hrunning
      · refine .inl ⟨t, h.mem_write.mpr (.inl ⟨ht, ?_⟩), hrun⟩
        rw [hrun]
        exact hother
      · exact .inr hrunning
  lives := by
    obtain ⟨phase, hlives⟩ := h.lives
    -- no run of an earlier event has the new object
    have hwritten : ∀ name input', .written name input' ∈ s.log → input'.object ≠ input.object := by
      intro name input' hmem
      have := h.filed.object_lt name input' hmem
      omega
    have hruns : ∀ object, runsOf object (s.fresh.write name input).log = runsOf object s.log := by
      intro object
      rw [write_log]
      rfl
    refine ⟨Function.update phase input.object (.waiting 0 none input.date), ?_⟩
    exact
      { life := fun other input' hmem => by
          rw [hruns]
          rw [write_log, List.mem_cons, Entry.written.injEq] at hmem
          rcases hmem with ⟨rfl, rfl⟩ | hmem
          · rw [Function.update_self, h.filed.runsOf_eq_nil hobject.ge]
            exact .written
          · rw [Function.update_of_ne (hwritten other input' hmem)]
            exact hlives.life other input' hmem
        waiting := fun t ht => by
          rcases h.mem_write.mp ht with ⟨ht, -⟩ | rfl
          · rw [Function.update_of_ne (hwritten _ _ (h.filed.written_of_event (h.slots.active t ht)))]
            exact hlives.waiting t ht
          · refine ⟨input.date, ?_, Function.update_self _ _ _⟩
            show input.date ≤ s.now + min (max (input.date - s.now) 0) maxTimeoutDelay +
              (max (input.date - s.now) 0 - min (max (input.date - s.now) 0) maxTimeoutDelay)
            omega
        runs := fun r hr => by
          rw [write_running] at hr
          rw [Function.update_of_ne (hwritten _ _ (h.filed.written r hr))]
          exact hlives.runs r hr
        activation_lt := fun r hr => by
          rw [write_running] at hr
          rw [write_next]
          have := hlives.activation_lt r hr
          omega
        activations := by
          rw [write_running]
          exact hlives.activations
        objects := by
          rw [write_running]
          exact hlives.objects }
  punctual :=
    { pending := fun t ht => by
        rcases h.mem_write.mp ht with ⟨ht, -⟩ | rfl
        · exact h.punctual.pending t ht
        · show input.date ≤ s.now + min (max (input.date - s.now) 0) maxTimeoutDelay +
            (max (input.date - s.now) 0 - min (max (input.date - s.now) 0) maxTimeoutDelay)
          omega
      running := fun r hr => by
        rw [write_running] at hr
        rw [write_now]
        exact h.punctual.running r hr }

/-- The event of a name is gone, with its slot, and no timeout of the name is left. -/
theorem forgotten (h : Kept p s) {t : State T} {name : String}
    (hpending : t.pending.Sublist s.pending)
    (hmem : ∀ u ∈ s.pending, u ∈ t.pending ↔ u.run.timerId ≠ name)
    (htimers : t.timers = put s.timers name none) (hevents : t.events = put s.events name none)
    (hlog : t.log = .removed name :: s.log) (hrunning : t.running = s.running)
    (hnext : t.next = s.next) (hnow : t.now = s.now) : Kept p t where
  slots := h.slots.without hpending
    (fun u hu => (hmem u (hpending.subset hu)).mp hu) htimers hevents hnext.ge
  filed := h.filed.removed hlog hevents hnext.ge hrunning
  attended := by
    intro other input hevent
    rw [hevents, put_apply] at hevent
    rw [hrunning]
    split at hevent
    · exact absurd hevent (by simp)
    · rename_i hother
      rcases h.attended other input hevent with ⟨u, hu, hrun⟩ | hrunning
      · refine .inl ⟨u, (hmem u hu).mpr ?_, hrun⟩
        rw [hrun]
        exact hother
      · exact .inr hrunning
  lives := by
    obtain ⟨phase, hlives⟩ := h.lives
    refine ⟨phase, ?_⟩
    exact
      { life := fun other input hwritten => by
          rw [hlog] at hwritten ⊢
          exact hlives.life other input ((List.mem_cons.mp hwritten).resolve_left (by simp))
        waiting := fun u hu => hlives.waiting u (hpending.subset hu)
        runs := fun r hr => hlives.runs r (hrunning ▸ hr)
        activation_lt := fun r hr => hnext ▸ hlives.activation_lt r (hrunning ▸ hr)
        activations := hrunning ▸ hlives.activations
        objects := hrunning ▸ hlives.objects }
  punctual :=
    { pending := fun u hu => h.punctual.pending u (hpending.subset hu)
      running := fun r hr => hnow ▸ h.punctual.running r (hrunning ▸ hr) }

theorem deleted (h : Kept p s) (name : String) : Kept p (s.delete name) := by
  have hmem : ∀ u ∈ s.pending, u ∈ (s.delete name).pending ↔ u.run.timerId ≠ name := by
    intro u hu
    show u ∈ (s.unset name).pending ↔ _
    rw [h.slots.mem_unset, and_iff_right hu]
  have htimers : (s.delete name).timers = put s.timers name none := by
    show put (s.unset name).timers name none = _
    rw [unset_timers]
  have hevents : (s.delete name).events = put s.events name none := by
    show put (s.unset name).events name none = _
    rw [unset_events]
  have hlog : (s.delete name).log = .removed name :: s.log := by
    show .removed name :: (s.unset name).log = _
    rw [unset_log]
  exact h.forgotten (unset_pending_sublist s name) hmem htimers hevents hlog
    (unset_running s name) (unset_next s name) (unset_now s name)

theorem inherited (h : Kept p s) {name : String} (hname : s.events name = none) :
    Kept p (s.unset name) := by
  rw [h.slots.unset_eq hname]
  exact h

/-! ## A timeout fires -/

theorem chunk (h : Kept p s) {t : Timeout T} (ht : t ∈ s.pending) (hdue : t.due ≤ s.now) :
    Kept p (s.rearm t) where
  slots := h.slots.rearm ht
  filed := h.filed.same rfl rfl (Nat.le_refl _) fun r hr => ⟨r, hr, rfl⟩
  attended := by
    intro name input hevent
    rcases h.attended name input hevent with ⟨u, hu, hrun⟩ | hrunning
    · obtain ⟨t', ht', hrun'⟩ := exists_rearm h.slots ht hu
      exact .inl ⟨t', ht', hrun'.trans hrun⟩
    · exact .inr hrunning
  lives := by
    obtain ⟨phase, hlives⟩ := h.lives
    refine ⟨phase, { hlives with waiting := fun t' ht' => ?_ }⟩
    obtain ⟨u, hu, hrun, -, hattempt, hfirst, hle⟩ := mem_rearm h.slots ht ht'
    obtain ⟨due, hue, hphase⟩ := hlives.waiting u hu
    rw [← hrun, ← hattempt, ← hfirst]
    exact ⟨due, le_trans hue (hle hdue), hphase⟩
  punctual :=
    { pending := fun t' ht' => by
        obtain ⟨u, hu, hrun, -, -, -, hle⟩ := mem_rearm h.slots ht ht'
        rw [← hrun]
        exact le_trans (h.punctual.pending u hu) (hle hdue)
      running := h.punctual.running }

theorem started (h : Kept p s) {t : Timeout T} (ht : t ∈ s.pending) (hdue : t.due ≤ s.now)
    (hrest : t.rest ≤ 0) :
    Kept p (runHandler (s.clear t.handle) t.run t.attempt (t.firstTime.getD s.now)) := by
  have hsub : (s.clear t.handle).pending.Sublist s.pending := List.filter_sublist
  have hmem : ∀ u ∈ s.pending, u ∉ (s.clear t.handle).pending → u = t := by
    intro u hu hnot
    refine h.slots.eq_of_handle hu ht ?_
    by_contra hne
    exact hnot (List.mem_filter.mpr ⟨hu, decide_eq_true hne⟩)
  have hother : ∀ u ∈ (s.clear t.handle).pending,
      u ∈ s.pending ∧ u.run.timerId ≠ t.run.timerId := by
    intro u hu
    obtain ⟨hmem, hne⟩ := List.mem_filter.mp hu
    refine ⟨hmem, fun heq => of_decide_eq_true hne ?_⟩
    rw [h.slots.eq_of_timerId hmem ht heq]
  have hwritten := h.filed.written_of_event (h.slots.active t ht)
  obtain ⟨phase, hlives⟩ := h.lives
  obtain ⟨due, hue, hphase⟩ := hlives.waiting t ht
  -- the other timeouts are of other objects
  have hobject : ∀ u ∈ (s.clear t.handle).pending, u.run.input.object ≠ t.run.input.object := by
    intro u hu heq
    obtain ⟨hu', hne⟩ := hother u hu
    exact hne (h.filed.object_inj _ _ _ _ (h.filed.written_of_event (h.slots.active u hu'))
      hwritten heq).1
  exact
    { slots := h.slots.fewer hsub rfl rfl (Nat.le_succ _)
      filed := by
        have hentry : (Entry.started t.run t.attempt s.now).isRunOf t.run.input.object = true :=
          decide_eq_true rfl
        refine h.filed.run rfl hentry (h.filed.object_lt _ _ hwritten) rfl (Nat.le_succ _)
          fun r hr => ?_
        rcases List.mem_append.mp hr with hr | hr
        · exact h.filed.written r hr
        · rw [List.mem_singleton.mp hr]
          exact hwritten
      attended := by
        intro name input hevent
        rcases h.attended name input hevent with ⟨u, hu, hrun⟩ | ⟨r, hr, hrun⟩
        · by_cases hkept : u ∈ (s.clear t.handle).pending
          · exact .inl ⟨u, hkept, hrun⟩
          · rw [hmem u hu hkept] at hrun
            exact .inr ⟨_, List.mem_append_right _ (List.mem_singleton.mpr rfl), hrun⟩
        · exact .inr ⟨r, List.mem_append_left _ hr, hrun⟩
      lives := by
        refine ⟨Function.update phase t.run.input.object
          (.running t.attempt (t.firstTime.getD s.now)), ?_⟩
        have hlife := hlives.life _ _ hwritten
        rw [hphase] at hlife
        have hstart := hlife.start (le_trans hue (show t.due + t.rest ≤ s.now by omega))
        have hentry : (Entry.started t.run t.attempt s.now).isRunOf t.run.input.object = true :=
          decide_eq_true rfl
        have hlives' := life_update h.filed hlives.life hwritten hentry hstart
        exact
          { life := hlives'
            waiting := fun u hu => by
              rw [Function.update_of_ne (hobject u hu)]
              exact hlives.waiting u (hother u hu).1
            runs := fun r hr => by
              rcases List.mem_append.mp hr with hr | hr
              · rw [Function.update_of_ne (h.object_ne hr ht)]
                exact hlives.runs r hr
              · rw [List.mem_singleton.mp hr]
                exact Function.update_self _ _ _
            activation_lt := fun r hr => by
              rcases List.mem_append.mp hr with hr | hr
              · exact Nat.lt_succ_of_lt (hlives.activation_lt r hr)
              · rw [List.mem_singleton.mp hr]
                exact Nat.lt_succ_self _
            activations := by
              show ((s.running ++ [_]).map _).Nodup
              rw [List.map_append, List.map_singleton, List.nodup_append]
              refine ⟨hlives.activations, List.nodup_singleton _, fun n hn m hm => ?_⟩
              obtain ⟨r, hr, rfl⟩ := List.mem_map.mp hn
              rw [List.mem_singleton.mp hm]
              exact Nat.ne_of_lt (hlives.activation_lt r hr)
            objects := by
              show ((s.running ++ [_]).map _).Nodup
              rw [List.map_append, List.map_singleton, List.nodup_append]
              refine ⟨hlives.objects, List.nodup_singleton _, fun n hn m hm => ?_⟩
              obtain ⟨r, hr, rfl⟩ := List.mem_map.mp hn
              rw [List.mem_singleton.mp hm]
              exact h.object_ne hr ht }
      punctual :=
        { pending := fun u hu => h.punctual.pending u (hsub.subset hu)
          running := fun r hr => by
            rcases List.mem_append.mp hr with hr | hr
            · exact h.punctual.running r hr
            · rw [List.mem_singleton.mp hr]
              have := h.punctual.pending t ht
              show t.run.input.date ≤ s.now
              omega } }

/-! ## A handler answers -/

/-- The entry of an answer. -/
def answerEntry (s : State T) (r : Running T) (success : Bool) : Entry T :=
  if success then .succeeded r.run s.now else .failed r.run s.now

theorem isRunOf_answerEntry (s : State T) (r : Running T) (success : Bool) :
    (answerEntry s r success).isRunOf r.run.input.object = true := by
  cases success <;> exact decide_eq_true rfl

theorem mem_ended (h : Kept p s) {r u : Running T} (hr : r ∈ s.running) (success : Bool) :
    u ∈ (s.ended r success).running ↔
      u ∈ s.running ∧ u.run.input.object ≠ r.run.input.object := by
  obtain ⟨phase, hlives⟩ := h.lives
  show u ∈ s.running.filter _ ↔ _
  rw [List.mem_filter, decide_eq_true_iff]
  refine and_congr_right fun hu => not_congr ?_
  constructor
  · intro heq
    rw [List.inj_on_of_nodup_map hlives.activations hu hr heq]
  · intro heq
    rw [List.inj_on_of_nodup_map hlives.objects hu hr heq]

/-- The lives after an answer, when the one of the run goes on to a phase. -/
theorem lives_ended (h : Kept p s) {phase : Nat → Phase} (hlives : Lives p s phase)
    {r : Running T} (hr : r ∈ s.running) (success : Bool) {next : Phase}
    (hnext : Life p r.run (answerEntry s r success :: runsOf r.run.input.object s.log) next) :
    Lives p (s.ended r success) (Function.update phase r.run.input.object next) where
  life := by
    have hlife := life_update h.filed hlives.life (h.filed.written r hr)
      (isRunOf_answerEntry s r success) hnext
    exact hlife
  waiting u hu := by
    rw [Function.update_of_ne (h.object_ne hr hu).symm]
    exact hlives.waiting u hu
  runs u hu := by
    obtain ⟨hu, hne⟩ := (h.mem_ended hr success).mp hu
    rw [Function.update_of_ne hne]
    exact hlives.runs u hu
  activation_lt u hu := hlives.activation_lt u ((h.mem_ended hr success).mp hu).1
  activations := (List.filter_sublist.map _).nodup hlives.activations
  objects := (List.filter_sublist.map _).nodup hlives.objects

theorem filed_ended (h : Kept p s) {r : Running T} (hr : r ∈ s.running) (success : Bool) :
    Filed (s.ended r success) := by
  have hobject := h.filed.object_lt _ _ (h.filed.written r hr)
  refine h.filed.run rfl (isRunOf_answerEntry s r success) hobject rfl (Nat.le_refl _) ?_
  intro u hu
  exact h.filed.written u ((h.mem_ended hr success).mp hu).1

theorem slots_ended (h : Kept p s) (r : Running T) (success : Bool) :
    Slots (s.ended r success) :=
  h.slots.fewer (List.Sublist.refl _) rfl rfl (Nat.le_refl _)

theorem punctual_ended (h : Kept p s) (r : Running T) (success : Bool) :
    Punctual (s.ended r success) :=
  ⟨h.punctual.pending, fun u hu => h.punctual.running u (List.mem_filter.mp hu).1⟩

/-- The other events are attended as before. -/
theorem attended_ended (h : Kept p s) {r : Running T} (hr : r ∈ s.running) (success : Bool)
    {name : String} {input : ScheduledEvent T} (hevent : s.events name = some input)
    (hne : (⟨name, input⟩ : SchedulerRun T) ≠ r.run) :
    (∃ t ∈ (s.ended r success).pending, t.run = ⟨name, input⟩) ∨
      ∃ u ∈ (s.ended r success).running, u.run = ⟨name, input⟩ := by
  rcases h.attended name input hevent with ht | ⟨u, hu, hrun⟩
  · exact .inl ht
  · refine .inr ⟨u, (h.mem_ended hr success).mpr ⟨hu, fun hobject => hne ?_⟩, hrun⟩
    have hname := h.filed.object_inj _ _ _ _ (h.filed.written u hu) (h.filed.written r hr) hobject
    rw [← hrun]
    cases hu' : u.run
    cases hr' : r.run
    simp_all

/-- Every answer ends a life, unless a retry follows. -/
theorem life_over (h : Kept p s) {phase : Nat → Phase} (hlives : Lives p s phase)
    {r : Running T} (hr : r ∈ s.running) (success : Bool) :
    Life p r.run (answerEntry s r success :: runsOf r.run.input.object s.log) .over := by
  have hlife := hlives.life _ _ (h.filed.written r hr)
  rw [hlives.runs r hr] at hlife
  cases success with
  | true => exact hlife.success
  | false => exact hlife.failure

theorem stale (h : Kept p s) {r : Running T} (hr : r ∈ s.running)
    (hactive : r.run.isActive s = false) (success : Bool) : Kept p (s.ended r success) where
  slots := h.slots_ended r success
  filed := h.filed_ended hr success
  attended := by
    intro name input hevent
    refine h.attended_ended hr success hevent fun heq => ?_
    have hevent' : s.events r.run.timerId = some r.run.input := by
      rw [← heq]
      exact hevent
    rw [isActive_of_event hevent'] at hactive
    exact absurd hactive (by simp)
  lives := by
    obtain ⟨phase, hlives⟩ := h.lives
    exact ⟨_, h.lives_ended hlives hr success (h.life_over hlives hr success)⟩
  punctual := h.punctual_ended r success

theorem done (h : Kept p s) {r : Running T} (hr : r ∈ s.running)
    (hactive : r.run.isActive s = true) (success : Bool) :
    Kept p ((s.ended r success).forget r.run.timerId) where
  slots := by
    refine (h.slots_ended r success).without (List.Sublist.refl _) (fun t ht => ?_) rfl rfl
      (Nat.le_refl _)
    exact h.timerId_ne hr hactive ht
  filed := (h.filed_ended hr success).removed rfl rfl (Nat.le_refl _) rfl
  attended := by
    intro name input hevent
    have hevent' : put s.events r.run.timerId none name = some input := hevent
    rw [put_apply] at hevent'
    split at hevent'
    · exact absurd hevent' (by simp)
    · rename_i hname
      refine h.attended_ended hr success hevent' fun heq => hname ?_
      rw [← heq]
  lives := by
    obtain ⟨phase, hlives⟩ := h.lives
    have hended := h.lives_ended hlives hr success (h.life_over hlives hr success)
    refine ⟨_, { hended with life := fun name input hmem => ?_ }⟩
    exact hended.life name input ((List.mem_cons.mp hmem).resolve_left (by simp))
  punctual := ⟨(h.punctual_ended r success).pending, (h.punctual_ended r success).running⟩

theorem retryDelay_pos (attempt : Nat) : 0 < retryDelay attempt := by
  have : 0 < firstRetryDelay * 2 ^ attempt := Int.mul_pos (by decide) (Int.pow_pos (by decide))
  exact lt_min this (by decide)

theorem retried (h : Kept p s) {r : Running T} (hr : r ∈ s.running)
    (hactive : r.run.isActive s = true) (hretries : retries p s.now r = true) :
    Kept p ((s.ended r false).setTimer r.run (r.attempt + 1) (some r.firstTime)
      (retryDelay r.attempt)) := by
  have hevent := h.filed.event_of_active hr hactive
  have hpos := retryDelay_pos r.attempt
  obtain ⟨hlt, hage⟩ : r.attempt < r.run.maxRetries p ∧
      ((s.now + retryDelay r.attempt - r.firstTime : Int) : Rat) ≤ r.run.maxAge p * 1000 := by
    simpa [retries] using hretries
  obtain ⟨phase, hlives⟩ := h.lives
  have hlife := hlives.life _ _ (h.filed.written r hr)
  rw [hlives.runs r hr] at hlife
  have hended := h.lives_ended hlives hr false (hlife.retry hlt hage)
  have hdue : s.now + retryDelay r.attempt ≤
      s.now + min (max (retryDelay r.attempt) 0) maxTimeoutDelay +
        (max (retryDelay r.attempt) 0 - min (max (retryDelay r.attempt) 0) maxTimeoutDelay) := by
    omega
  exact
    { slots := by
        refine (h.slots_ended r false).armed (fun t ht => h.timerId_ne hr hactive ht) rfl rfl rfl
          ?_ (Nat.lt_succ_self _)
        show s.events = put s.events r.run.timerId (some r.run.input)
        rw [← hevent, put_eq_self]
      filed := (h.filed_ended hr false).same rfl rfl (Nat.le_succ _) fun u hu => ⟨u, hu, rfl⟩
      attended := by
        intro name input hevent'
        by_cases heq : (⟨name, input⟩ : SchedulerRun T) = r.run
        · exact .inl ⟨_, List.mem_append_right _ (List.mem_singleton.mpr rfl), heq.symm⟩
        · rcases h.attended_ended hr false hevent' heq with ⟨t, ht, hrun⟩ | hrunning
          · exact .inl ⟨t, List.mem_append_left _ ht, hrun⟩
          · exact .inr hrunning
      lives := by
        refine ⟨_, { hended with waiting := fun t ht => ?_, activation_lt := fun u hu => ?_ }⟩
        · rcases List.mem_append.mp ht with ht | ht
          · exact hended.waiting t ht
          · rw [List.mem_singleton.mp ht]
            exact ⟨_, hdue, Function.update_self _ _ _⟩
        · exact Nat.lt_succ_of_lt (hended.activation_lt u hu)
      punctual :=
        { pending := fun t ht => by
            rcases List.mem_append.mp ht with ht | ht
            · exact h.punctual.pending t ht
            · rw [List.mem_singleton.mp ht]
              have hdate := h.punctual.running r hr
              have hlater : r.run.input.date ≤ s.now + retryDelay r.attempt := by omega
              exact le_trans hlater hdue
          running := fun u hu => (h.punctual_ended r false).running u hu } }

/-- **Every effect keeps the invariant.** -/
theorem effect (h : Kept p s) {t : State T} (heffect : Effect p s t) : Kept p t := by
  cases heffect with
  | idle hnow hnext => exact h.idle hnow hnext
  | inherited hname => exact h.inherited hname
  | written hobject hdate => exact h.written hobject hdate
  | deleted hevent => exact h.deleted _
  | chunk ht hdue hrest => exact h.chunk ht hdue
  | started ht hdue hrest => exact h.started ht hdue hrest
  | stale hr hactive => exact h.stale hr hactive _
  | done hr hactive hdone => exact h.done hr hactive _
  | retried hr hactive hretries => exact h.retried hr hactive hretries

/-- What holds of every state that the scheduler reaches. -/
theorem run {start : Int} {actions : List (Action T)}
    (h : (scheduler p start).run actions (scheduler p start).init = some s) : Kept p s :=
  Machine.run_invariant (I := Kept p) (fun _ _ _ hs hstep => hs.effect (step_effect hstep))
    (Kept.start p start) h

end Kept

end Ez4.Scheduler.Events

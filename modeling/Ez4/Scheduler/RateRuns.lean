import Ez4.Scheduler.NextRate

/-! # Runs of a schedule with a rate

What is returned for a current date is the next run, or nothing after the end,
if and only if the unit is in small letters, the amount is not zero, the run
has a date, and the time since the start is not rounded up to it; otherwise if
the start or the end decides. The timer set for such runs moves forward. -/
namespace Ez4.Scheduler.Rate
open Ez4.Library

/-! ## The next run -/

namespace Schedule

variable {schedule : Schedule}

theorem isNext_nextTime (hpos : 0 < schedule.interval) (current : Int) :
    schedule.IsNext current (schedule.nextTime current) := by
  rw [IsNext, nextTime]
  cases schedule.startTime with
  | none => exact ⟨rfl, by simp only; omega⟩
  | some start =>
    have hinterval : (0 : Int) < schedule.interval := by exact_mod_cast hpos
    simp only
    split
    · rename_i hbefore
      refine ⟨⟨hbefore, 0, by simp⟩, ?_⟩
      rintro time ⟨-, k, rfl⟩
      have := Int.mul_nonneg (Int.natCast_nonneg k) hinterval.le
      omega
    · rename_i hstart
      have hcount := Int.ediv_nonneg (by omega : 0 ≤ current - start.1) hinterval.le
      refine ⟨⟨?_, ((current - start.1) / schedule.interval + 1).toNat, ?_⟩, ?_⟩
      · have := Int.lt_ediv_add_one_mul_self (current - start.1) hinterval
        omega
      · rw [Int.toNat_of_nonneg (by omega)]
      · rintro time ⟨hafter, k, rfl⟩
        have hlt : (current - start.1) / schedule.interval < k :=
          Int.ediv_lt_of_lt_mul hinterval (by omega)
        have := Int.mul_le_mul_of_nonneg_right (Int.add_one_le_of_lt hlt) hinterval.le
        omega

/-- Before the start, the start is the next run at any rate. -/
theorem isNext_start {current : Int} {start : Time} (hstart : schedule.startTime = some start)
    (hbefore : current < start.1) : schedule.IsNext current start.1 := by
  rw [IsNext, hstart]
  refine ⟨⟨hbefore, 0, by simp⟩, ?_⟩
  rintro time ⟨-, k, rfl⟩
  have := Int.mul_nonneg (Int.natCast_nonneg k) (Int.natCast_nonneg schedule.interval)
  omega

theorem IsNext.unique {current next other : Int} (h : schedule.IsNext current next)
    (hother : schedule.IsNext current other) : next = other := by
  rw [IsNext] at h hother
  cases hstart : schedule.startTime with
  | none =>
    rw [hstart] at h hother
    exact h.1.trans hother.1.symm
  | some start =>
    rw [hstart] at h hother
    exact IsLeast.unique h hother

/-- Without an interval nothing follows the start. -/
theorem start_of_isNext {current next : Int} (h : schedule.IsNext current next)
    (hzero : schedule.interval = 0) :
    ∃ start, schedule.startTime = some start ∧ current < start.1 := by
  rw [IsNext, hzero] at h
  cases hstart : schedule.startTime with
  | none =>
    rw [hstart] at h
    obtain ⟨rfl, hlt⟩ := h
    simp at hlt
  | some start =>
    rw [hstart] at h
    obtain ⟨hlt, k, rfl⟩ := h.1
    exact ⟨start, rfl, by simpa using hlt⟩

theorem IsNext.lt {current next : Int} (h : schedule.IsNext current next) : current < next := by
  rw [IsNext] at h
  cases hstart : schedule.startTime with
  | none => rw [hstart] at h; exact h.2
  | some start => rw [hstart] at h; exact h.1.1

/-- What is returned once the next run is known. -/
theorem forward_iff_of_isNext {current : Time} {next : Int} {result : Option JsDate}
    (hnext : schedule.IsNext current.1 next) : schedule.Forward current result ↔
      match result with
      | none => ∃ last, schedule.endTime = some last ∧ last.1 < next
      | some .invalid => False
      | some (.valid date) =>
        date.1 = next ∧ ∀ last, schedule.endTime = some last → next ≤ last.1 := by
  constructor
  · rintro ⟨other, hother, hresult⟩
    exact hnext.unique hother ▸ hresult
  · exact fun hresult => ⟨next, hnext, hresult⟩

theorem forward_boundedDate {current : Time} {next time : Int}
    (hnext : schedule.IsNext current.1 next) :
    schedule.Forward current (boundedDate time schedule.endTime) ↔
      (∃ last, schedule.endTime = some last ∧ last.1 < next ∧ last.1 < time) ∨
        time = next ∧ next ≤ maxTime := by
  have hlow := (abs_le.mp current.2).1
  have hlt := hnext.lt
  rw [forward_iff_of_isNext hnext, boundedDate]
  by_cases hafter : ∃ last, schedule.endTime = some last ∧ last.1 < time
  · obtain ⟨last, hend, hlast⟩ := hafter
    simp only [hend, Option.any_some, hlast, decide_true, if_true]
    constructor
    · rintro ⟨_, heq, hbefore⟩
      exact .inl ⟨last, rfl, Option.some.inj heq ▸ hbefore, hlast⟩
    · rintro (⟨_, heq, hbefore, -⟩ | ⟨rfl, -⟩)
      · exact ⟨last, rfl, Option.some.inj heq ▸ hbefore⟩
      · exact ⟨last, rfl, hlast⟩
  · have hany : (schedule.endTime.any fun last => decide (last.1 < time)) = false := by
      cases hend : schedule.endTime with
      | none => rfl
      | some last => exact decide_eq_false fun hlast => hafter ⟨last, hend, hlast⟩
    rw [hany, if_neg Bool.false_ne_true]
    have hleft : ¬ ∃ last, schedule.endTime = some last ∧ last.1 < next ∧ last.1 < time := by
      rintro ⟨last, hend, -, hlast⟩
      exact hafter ⟨last, hend, hlast⟩
    rw [or_iff_right hleft]
    by_cases hvalid : |time| ≤ maxTime
    · rw [dif_pos hvalid]
      constructor
      · rintro ⟨heq, -⟩
        exact ⟨heq, heq ▸ (le_abs_self _).trans hvalid⟩
      · rintro ⟨rfl, -⟩
        exact ⟨rfl, fun last hend => not_lt.mp fun hlast => hafter ⟨last, hend, hlast⟩⟩
    · rw [dif_neg hvalid]
      refine iff_of_false id ?_
      rintro ⟨rfl, hle⟩
      exact hvalid (abs_le.mpr ⟨by omega, hle⟩)

end Schedule

/-! ## What is returned -/

theorem getNextRateTime_of_lt {number : Binary64} {current start : Time}
    (h : current.1 < start.1) : getNextRateTime number current (some start) = getTime start :=
  if_pos h

/-- Without a number for the interval there is none for the next run. -/
theorem getNextRateTime_nan {current : Time} {startTime : Option Time}
    (h : ¬ ∃ start, startTime = some start ∧ current.1 < start.1) :
    getNextRateTime .nan current startTime = .nan := by
  cases startTime with
  | none => rfl
  | some start =>
    rw [getNextRateTime]
    simp only
    rw [if_neg fun hlt => h ⟨start, rfl, hlt⟩]
    generalize ((getTime current).sub (getTime start)) = difference
    cases difference <;> rfl

theorem forward_getBoundedDate_iff {schedule : Schedule} {digits : List Char}
    (hunit : lower schedule.unit ∈ rateUnits) (hdigits : parseDigits digits = schedule.amount)
    (current : Time) :
    schedule.Forward current (getBoundedDate (getNextRateTime
        (getInterval (parseInt digits) schedule.unit) current schedule.startTime) schedule.endTime) ↔
      schedule.MovesForward current := by
  by_cases hbefore : ∃ start, schedule.startTime = some start ∧ current.1 < start.1
  · obtain ⟨start, hstart, hlt⟩ := hbefore
    have hstands : Stands (getTime start) start.1 := .inl ⟨(lt_time start).2.le, rfl⟩
    rw [hstart, getNextRateTime_of_lt hlt, getBoundedDate_of_stands hstands,
      Schedule.forward_boundedDate (Schedule.isNext_start hstart hlt)]
    exact iff_of_true (.inr ⟨rfl, (abs_le.mp start.2).2⟩) (.inl ⟨start, hstart, hlt⟩)
  rw [Schedule.MovesForward, or_iff_right hbefore]
  obtain ⟨milliseconds, hlookup, hdvd, hmin⟩ := lookup_of_mem hunit
  have hinterval : schedule.interval = schedule.amount * milliseconds := by
    rw [Schedule.interval, hlookup]
    rfl
  rcases Nat.eq_zero_or_pos schedule.amount with hzero | hamount
  · refine iff_of_false (fun ⟨next, hnext, _⟩ => ?_) (fun h => by omega)
    exact hbefore (Schedule.start_of_isNext hnext (by rw [hinterval, hzero, Nat.zero_mul]))
  have hpos : 0 < schedule.interval := by
    rw [hinterval]
    exact Nat.mul_pos hamount (by omega)
  have hnext := schedule.isNext_nextTime hpos current.1
  rw [and_iff_right hamount]
  by_cases hlower : schedule.unit.map Char.toLower = schedule.unit
  · rw [and_iff_right hlower]
    have happrox : Approximates (getInterval (parseInt digits) schedule.unit) schedule.interval := by
      rw [hinterval, ← hdigits]
      refine approximates_interval hdvd hmin ?_
      rwa [lower, hlower] at hlookup
    obtain ⟨hexact, hrounded⟩ :=
      stands_getNextRateTime happrox (hinterval ▸ hdvd.mul_left _) hpos current
    by_cases hround : schedule.Rounded current.1
    · rw [getBoundedDate_of_stands (hrounded hround), Schedule.forward_boundedDate hnext]
      constructor
      · rintro (⟨last, hend, hlast, -⟩ | ⟨heq, -⟩)
        · exact .inl ⟨last, hend, hlast⟩
        · omega
      · rintro (⟨last, hend, hlast⟩ | ⟨-, hnot⟩)
        · exact .inl ⟨last, hend, hlast, by omega⟩
        · exact absurd hround hnot
    · rw [getBoundedDate_of_stands (hexact hround), Schedule.forward_boundedDate hnext]
      simp only [and_self, true_and, hround, not_false_eq_true, and_true]
  · have hnan : getInterval (parseInt digits) schedule.unit = .nan := by
      rw [getInterval, lookup_of_ne hlower]
    rw [hnan, getNextRateTime_nan hbefore, Schedule.forward_iff_of_isNext hnext,
      or_iff_left fun h => hlower h.1]
    cases hend : schedule.endTime with
    | none => exact iff_of_false id (by simp)
    | some last => exact Iff.rfl

/-! ## Expressions -/

variable {dateTime : String → Option Time} {input : String} {options : ExpressionOptions}
  {expression : ExpressionResult} {schedule : Schedule}

/-- What a text and its options say. -/
structure Denotes (dateTime : String → Option Time) (input : String) (options : ExpressionOptions)
    (schedule : Schedule) : Prop where
  text : ∃ digits, matchRate input = some (digits, schedule.unit) ∧
    schedule.amount = parseDigits digits
  starts : getOptionalTime dateTime options.startDate = .ok schedule.startTime
  ends : getOptionalTime dateTime options.endDate = .ok schedule.endTime

theorem Denotes.unique {other : Schedule} (h : Denotes dateTime input options schedule)
    (hother : Denotes dateTime input options other) : schedule = other := by
  obtain ⟨⟨digits, hmatch, hamount⟩, hstart, hend⟩ := h
  obtain ⟨⟨digits', hmatch', hamount'⟩, hstart', hend'⟩ := hother
  obtain ⟨rfl, hunit⟩ := Prod.mk.inj (Option.some.inj (hmatch.symm.trans hmatch'))
  cases schedule
  cases other
  simp only [Schedule.mk.injEq]
  exact ⟨hamount.trans hamount'.symm, hunit, Except.ok.inj (hstart.symm.trans hstart'),
    Except.ok.inj (hend.symm.trans hend')⟩

theorem matchRate_unit {digits unit : List Char} (h : matchRate input = some (digits, unit)) :
    lower unit ∈ rateUnits := by
  rw [matchRate] at h
  simp only [Option.ite_none_right_eq_some] at h
  obtain ⟨⟨-, -, -, hunit, -⟩, h⟩ := h
  exact (Prod.mk.inj (Option.some.inj h)).2 ▸ hunit

/-- An expression that is accepted says something, and makes its dates of that. -/
theorem exists_denotes (h : parseRateExpression dateTime input options = .ok (some expression)) :
    ∃ schedule, Denotes dateTime input options schedule ∧
      ∀ current, schedule.Forward current (expression.getNextDate current) ↔
        schedule.MovesForward current := by
  rw [parseRateExpression] at h
  cases hmatch : matchRate input with
  | none => rw [hmatch] at h; cases h
  | some groups =>
    obtain ⟨digits, unit⟩ := groups
    rw [hmatch] at h
    cases hstart : getOptionalTime dateTime options.startDate with
    | error => rw [hstart] at h; cases h
    | ok startTime =>
      cases hend : getOptionalTime dateTime options.endDate with
      | error => rw [hstart, hend] at h; cases h
      | ok endTime =>
        rw [hstart, hend] at h
        obtain rfl := Option.some.inj (Except.ok.inj h)
        let schedule : Schedule := ⟨parseDigits digits, unit, startTime, endTime⟩
        have hunit : lower schedule.unit ∈ rateUnits := matchRate_unit hmatch
        exact ⟨schedule, ⟨⟨digits, hmatch, rfl⟩, hstart, hend⟩,
          forward_getBoundedDate_iff hunit rfl⟩

/-! ## The timer -/

/-- Each run is after the one before it and after the time when it is set. -/
structure Ordered (s : TimerState) : Prop where
  increasing : (s.runs.map Prod.snd).Pairwise (· > ·)
  ahead : ∀ run ∈ s.runs, run.1 < run.2
  ready : s.stage ≠ .crashed ∧ s.stage ≠ .waiting .invalid

/-- What is returned for the current date of a step is right. -/
def StepForward (schedule : Schedule) (s : TimerState) (now : Time) : Prop :=
  ∀ current, nextCurrent s now = some current → schedule.MovesForward current

structure TimerKept (s : TimerState) : Prop extends Ordered s where
  /-- The run for which the timer is set is the last one. -/
  last : ∀ date, s.stage = .waiting (.valid date) → ∀ run ∈ s.runs, run.2 ≤ date
  fresh : s.stage = .idle → s.runs = []

theorem lt_of_forward {current date : Time}
    (h : schedule.Forward current (some (.valid date))) : current < date := by
  obtain ⟨next, hnext, heq, -⟩ := h
  exact Subtype.coe_lt_coe.mp (heq ▸ hnext.lt)

theorem timerKept_step (hforward : ∀ current,
      schedule.MovesForward current → schedule.Forward current (expression.getNextDate current))
    {s t : TimerState} {now : Time} (h : TimerKept s) (hok : StepForward schedule s now)
    (hstep : step expression s now = some t) : TimerKept t := by
  rw [step] at hstep
  cases hcurrent : nextCurrent s now with
  | none =>
    rw [hcurrent] at hstep
    split at hstep
    · rename_i heq
      cases heq
    · rename_i hstage _
      exact absurd hstage h.ready.2
    · cases hstep
  | some current =>
    rw [hcurrent] at hstep
    obtain rfl := Option.some.inj hstep
    have hnext := hforward current (hok current hcurrent)
    rw [scheduleTimerEvent]
    split
    · exact ⟨⟨h.increasing, h.ahead, by simp⟩, by simp, by simp⟩
    · rename_i hinvalid
      rw [hinvalid] at hnext
      exact hnext.elim fun _ h => h.2.elim
    · rename_i date hdate
      rw [hdate] at hnext
      have hlt := lt_of_forward hnext
      have hnow : now ≤ current := by
        rw [nextCurrent] at hcurrent
        split at hcurrent
        · exact (Option.some.inj hcurrent).le
        · exact Option.some.inj hcurrent ▸ le_max_right _ _
        · cases hcurrent
      have hruns : ∀ run ∈ s.runs, run.2 ≤ current := by
        intro run hrun
        rw [nextCurrent] at hcurrent
        split at hcurrent
        · rename_i hidle
          rw [h.fresh hidle] at hrun
          exact absurd hrun List.not_mem_nil
        · rename_i nextDate hwaiting
          exact (h.last nextDate hwaiting run hrun).trans
            (Option.some.inj hcurrent ▸ le_max_left _ _)
        · cases hcurrent
      refine ⟨⟨?_, ?_, by simp⟩, ?_, by simp⟩
      · refine List.pairwise_cons.mpr ⟨fun other hother => ?_, h.increasing⟩
        obtain ⟨run, hrun, rfl⟩ := List.mem_map.mp hother
        exact (hruns run hrun).trans_lt hlt
      · exact List.forall_mem_cons.mpr ⟨hnow.trans_lt hlt, h.ahead⟩
      · intro other hother
        obtain rfl : date = other := by simpa using hother
        exact List.forall_mem_cons.mpr ⟨le_rfl, fun run hrun => ((hruns run hrun).trans_lt hlt).le⟩

/-- What an accepted expression returns is the next run, or nothing when that is
after the end, if and only if the schedule moves forward from the current date.
Where it does at each step, the runs of the timer are strictly increasing, and
none is set for the present instant. -/
theorem rate_forward_iff (h : parseRateExpression dateTime input options = .ok (some expression)) :
    ∃ schedule, Denotes dateTime input options schedule ∧
      (∀ current, schedule.Forward current (expression.getNextDate current) ↔
        schedule.MovesForward current) ∧
      ∀ (times : List Time) (s : TimerState),
        (timer expression).run times (timer expression).init = some s →
        (timer expression).Meets (StepForward schedule) times (timer expression).init →
        Ordered s := by
  obtain ⟨schedule, hdenotes, hiff⟩ := exists_denotes h
  refine ⟨schedule, hdenotes, hiff, fun times s hrun hmeets => ?_⟩
  have hinit : TimerKept (timer expression).init :=
    ⟨⟨.nil, by simp [timer], by simp [timer]⟩, by simp [timer], fun _ => rfl⟩
  exact (Machine.run_invariant_of_meets (I := TimerKept)
    (fun _ _ _ hkept hok hstep => timerKept_step (fun current => (hiff current).mpr) hkept hok hstep)
    hinit hmeets hrun).toOrdered

namespace Sample

/-- 2026-09-29T00:00:00Z -/
def midnight : Time := ⟨1790640000000, by decide⟩

def inMinutes : Schedule := ⟨5, "minutes".toList, none, none⟩

def inCapitals : Schedule := ⟨5, "MINUTES".toList, none, none⟩

theorem denotes_inMinutes : Denotes (fun _ => none) "rate(5 minutes)" {} inMinutes :=
  ⟨⟨['5'], by decide, rfl⟩, rfl, rfl⟩

theorem denotes_inCapitals : Denotes (fun _ => none) "rate(5 MINUTES)" {} inCapitals :=
  ⟨⟨['5'], by decide, rfl⟩, rfl, rfl⟩

/-- Five minutes in small letters move forward. -/
theorem minutes_forward : ∃ expression,
    parseRateExpression (fun _ => none) "rate(5 minutes)" {} = .ok (some expression) ∧
      inMinutes.Forward midnight (expression.getNextDate midnight) := by
  have hmatch : matchRate "rate(5 minutes)" = some (['5'], "minutes".toList) := by decide
  obtain ⟨expression, hparse⟩ : ∃ expression,
      parseRateExpression (fun _ => none) "rate(5 minutes)" {} = .ok (some expression) := by
    rw [parseRateExpression, hmatch]
    exact ⟨_, rfl⟩
  obtain ⟨schedule, hdenotes, hiff, -⟩ := rate_forward_iff hparse
  obtain rfl := hdenotes.unique denotes_inMinutes
  refine ⟨expression, hparse, (hiff midnight).mpr (.inr ⟨by decide, .inr ⟨by decide, ?_, ?_⟩⟩)⟩
  · decide
  · rintro ⟨start, hstart, -⟩
    cases hstart

/-- Five minutes in capitals are accepted, and have no valid date. -/
theorem capitals_invalid : ∃ expression,
    parseRateExpression (fun _ => none) "rate(5 MINUTES)" {} = .ok (some expression) ∧
      Denotes (fun _ => none) "rate(5 MINUTES)" {} inCapitals ∧
      expression.getNextDate midnight = some .invalid ∧
      ¬ inCapitals.Forward midnight (expression.getNextDate midnight) := by
  have hmatch : matchRate "rate(5 MINUTES)" = some (['5'], "MINUTES".toList) := by decide
  obtain ⟨expression, hparse, hdate⟩ : ∃ expression,
      parseRateExpression (fun _ => none) "rate(5 MINUTES)" {} = .ok (some expression) ∧
        expression.getNextDate midnight = some .invalid := by
    rw [parseRateExpression, hmatch]
    exact ⟨_, rfl, rfl⟩
  refine ⟨expression, hparse, denotes_inCapitals, hdate, ?_⟩
  rw [hdate]
  exact fun ⟨_, _, hfalse⟩ => hfalse

end Sample

end Ez4.Scheduler.Rate

import Ez4.Scheduler.Rate

/-! # The next run of a schedule with a rate

The first run after the current date, in exact arithmetic, and what the code
computes for it with numbers of 64 bits: the same instant, or a later one at
the one place where a difference of dates has no number. -/
namespace Ez4.Scheduler.Rate
open Ez4.Library

/-- What an expression and its options say. The case of the unit does not count. -/
structure Schedule where
  amount : Nat
  unit : List Char
  startTime : Option Time
  endTime : Option Time

namespace Schedule

variable (schedule : Schedule)

def interval : Nat := schedule.amount * (timeUnits.lookup (lower schedule.unit)).getD 0

/-- The first run after the current date. -/
def IsNext (current next : Int) : Prop :=
  match schedule.startTime with
  | none => next = current + schedule.interval ∧ current < next
  | some start =>
    IsLeast {time : Int | current < time ∧ ∃ k : Nat, time = start.1 + k * schedule.interval} next

/-- What is returned is the next run, or nothing when that is after the end. -/
def Forward (current : Time) (result : Option JsDate) : Prop :=
  ∃ next, schedule.IsNext current.1 next ∧
    match result with
    | none => ∃ last, schedule.endTime = some last ∧ last.1 < next
    | some .invalid => False
    | some (.valid date) => date.1 = next ∧ ∀ last, schedule.endTime = some last → next ≤ last.1

/-- The next run, unless the amount is zero. -/
def nextTime (current : Int) : Int :=
  match schedule.startTime with
  | none => current + schedule.interval
  | some start =>
    if current < start.1 then start.1
    else start.1 + ((current - start.1) / schedule.interval + 1) * schedule.interval

/-- The time since the start has no number of its own, and is rounded up to the
next run. -/
def Rounded (current : Int) : Prop :=
  ∃ start, schedule.startTime = some start ∧ 2 ^ 53 < current - start.1 ∧
    (schedule.interval : Int) ∣ current - start.1 + 1

/-- When what is returned is right. -/
def MovesForward (current : Time) : Prop :=
  (∃ start, schedule.startTime = some start ∧ current.1 < start.1) ∨
  0 < schedule.amount ∧
    ((∃ last, schedule.endTime = some last ∧ last.1 < schedule.nextTime current.1) ∨
      schedule.unit.map Char.toLower = schedule.unit ∧ schedule.nextTime current.1 ≤ maxTime ∧
        ¬ schedule.Rounded current.1)

end Schedule

/-! ## Units -/

variable {unit : List Char}

theorem lookup_of_mem (h : lower unit ∈ rateUnits) :
    ∃ milliseconds : Nat, timeUnits.lookup (lower unit) = some milliseconds ∧ 32 ∣ milliseconds ∧
      60000 ≤ milliseconds := by
  generalize lower unit = name at h
  have hunits : ∀ name ∈ rateUnits, ∃ milliseconds ∈ [60000, 3600000, 86400000],
      timeUnits.lookup name = some milliseconds := by
    decide
  obtain ⟨milliseconds, hmem, hlookup⟩ := hunits name h
  have hvalues : ∀ milliseconds ∈ [60000, 3600000, 86400000],
      32 ∣ milliseconds ∧ 60000 ≤ milliseconds := by
    decide
  exact ⟨milliseconds, hlookup, hvalues milliseconds hmem⟩

/-- No unit with a capital letter is known. -/
theorem lookup_of_ne (h : unit.map Char.toLower ≠ unit) :
    timeUnits.lookup (String.ofList unit) = none := by
  have hlower : ∀ entry ∈ timeUnits, entry.1.toList.map Char.toLower = entry.1.toList := by decide
  rw [List.lookup_eq_none_iff]
  intro entry hmem
  rw [bne_iff_ne]
  rintro heq
  have := hlower entry hmem
  rw [← heq, String.toList_ofList] at this
  exact h this

/-! ## The interval -/

open Binary64

/-- A number is an integer where it matters for dates. -/
def Approximates (number : Binary64) (n : Nat) : Prop :=
  (n ≤ 2 ^ 58 → number = .finite n) ∧ (2 ^ 58 < n → AtLeast (2 ^ 58) number)

theorem approximates_interval {digits : List Char} {milliseconds : Nat} (hdvd : 32 ∣ milliseconds)
    (hmin : 60000 ≤ milliseconds) (hlookup : timeUnits.lookup (String.ofList unit) = milliseconds) :
    Approximates (getInterval (parseInt digits) unit) (parseDigits digits * milliseconds) := by
  have hinterval : getInterval (parseInt digits) unit =
      (ofRat (parseDigits digits)).mul (.finite milliseconds) := by
    rw [getInterval, hlookup]
    rfl
  rw [hinterval]
  generalize parseDigits digits = amount
  by_cases hamount : amount ≤ 2 ^ 53
  · have hfinite : ofRat (amount : ℚ) = .finite amount :=
      ofRat_intCast (n := amount) (by rw [Nat.abs_cast]; exact_mod_cast hamount)
    rw [hfinite, mul, ← Nat.cast_mul]
    constructor
    · intro hle
      obtain ⟨part, rfl⟩ := hdvd
      refine ofRat_of_eq (n := (amount * part : Nat)) (e := 5) ?_ ?_ (by norm_num) ?_
      · push_cast
        ring
      · rw [Nat.abs_cast]
        exact_mod_cast (by linarith : amount * part ≤ 2 ^ 53)
      · rw [Nat.abs_cast]
        have : ((amount * (32 * part) : ℕ) : ℚ) ≤ 2 ^ 58 := by exact_mod_cast hle
        exact this.trans_lt (pow_lt_pow_right₀ one_lt_two (by norm_num))
    · intro hlt
      exact ofRat_atLeast (by exact_mod_cast hlt.le)
  · have hlarge : 2 ^ 58 < amount * milliseconds :=
      calc 2 ^ 58 < (2 ^ 53 + 1) * 60000 := by norm_num
        _ ≤ amount * milliseconds := Nat.mul_le_mul (by omega) hmin
    refine ⟨fun hle => absurd hle (not_le.mpr hlarge), fun _ => ?_⟩
    have hpos : (0 : ℚ) < milliseconds := by exact_mod_cast (by omega : 0 < milliseconds)
    have hround : AtLeast (2 ^ 53) (ofRat (amount : ℚ)) :=
      ofRat_atLeast (by exact_mod_cast (by omega : 2 ^ 53 ≤ amount))
    cases hcase : ofRat (amount : ℚ) with
    | nan => rw [hcase] at hround; exact hround.elim
    | infinity negative =>
      rw [hcase] at hround
      obtain rfl : negative = false := hround
      rw [mul, if_neg hpos.ne', decide_eq_false hpos.le.not_gt]
      rfl
    | finite value =>
      rw [hcase] at hround
      have hvalue : (2 : ℚ) ^ 53 ≤ value := hround
      have hms : (60000 : ℚ) ≤ milliseconds := by exact_mod_cast hmin
      rw [mul]
      refine ofRat_atLeast ?_
      calc (2 : ℚ) ^ 58 ≤ 2 ^ 53 * 60000 := by norm_num
        _ ≤ value * milliseconds := mul_le_mul hvalue hms (by norm_num) (by linarith)

/-! ## The date -/

theorem maxTime_lt : maxTime < 2 ^ 53 := by decide

theorem two_mul_maxTime_lt : 2 * maxTime + 1 < 2 ^ 54 := by decide

/-- A number is an integer, or they are both too large for a date. -/
def Stands (time : Binary64) (n : Int) : Prop :=
  n ≤ 2 ^ 53 ∧ time = .finite n ∨ 2 ^ 53 < n ∧ AtLeast (2 ^ 53) time

theorem stands_ofRat {n : Int} (h : -2 ^ 53 ≤ n) : Stands (ofRat n) n := by
  rcases le_or_gt n (2 ^ 53) with hle | hlt
  · exact .inl ⟨hle, ofRat_intCast (abs_le.mpr ⟨h, hle⟩)⟩
  · exact .inr ⟨hlt, ofRat_atLeast (by exact_mod_cast hlt.le)⟩

/-- The date of an instant that is not after the end. -/
def boundedDate (time : Int) (endTime : Option Time) : Option JsDate :=
  if endTime.any fun last => last.1 < time then none
  else some (if h : |time| ≤ maxTime then .valid ⟨time, h⟩ else .invalid)

theorem newDate_intCast (n : Int) :
    newDate (.finite n) = if h : |n| ≤ maxTime then .valid ⟨n, h⟩ else .invalid := by
  have hdiv : Int.tdiv (n : ℚ).num (n : ℚ).den = n := by
    rw [Rat.num_intCast, Rat.den_intCast, Nat.cast_one, Int.tdiv_one]
  rw [newDate]
  simp only [hdiv]

theorem newDate_of_atLeast {time : Binary64} (h : AtLeast (2 ^ 53) time) :
    newDate time = .invalid := by
  cases time with
  | nan => exact h.elim
  | infinity negative => rfl
  | finite value =>
    have hvalue : (2 : ℚ) ^ 53 ≤ value := h
    have hnum : (2 : Int) ^ 53 * value.den ≤ value.num := by
      rw [← Rat.num_div_den value, le_div_iff₀ (by exact_mod_cast value.den_pos)] at hvalue
      exact_mod_cast hvalue
    have hdiv : 2 ^ 53 ≤ Int.tdiv value.num value.den := by
      rw [Int.tdiv_eq_ediv_of_nonneg (by omega)]
      exact (Int.le_ediv_iff_mul_le (by exact_mod_cast value.den_pos)).mpr hnum
    have hlarge : ¬ |Int.tdiv value.num value.den| ≤ maxTime := fun hle => by
      have := (le_abs_self _).trans hle
      have := maxTime_lt
      omega
    rw [newDate]
    exact dif_neg hlarge

theorem getBoundedDate_of_stands {time : Binary64} {n : Int} (h : Stands time n)
    (endTime : Option Time) : getBoundedDate time endTime = boundedDate n endTime := by
  rcases h with ⟨-, rfl⟩ | ⟨hlarge, htime⟩
  · cases endTime with
    | none => exact congrArg some (newDate_intCast n)
    | some last =>
      simp only [getBoundedDate, getTime, Binary64.le, decide_eq_true_eq, Int.cast_le, boundedDate,
        Option.any_some, newDate_intCast]
      split_ifs <;> first | rfl | omega
  · have hmax := maxTime_lt
    have hinvalid : ¬ |n| ≤ maxTime := fun hle => by
      have := (le_abs_self _).trans hle
      omega
    cases endTime with
    | none =>
      rw [getBoundedDate, newDate_of_atLeast htime, boundedDate, dif_neg hinvalid]
      rfl
    | some last =>
      have hlast := (abs_le.mp last.2).2
      have hle : time.le (getTime last) = false := by
        cases time with
        | nan => rfl
        | infinity negative => rw [show negative = false from htime]; rfl
        | finite value =>
          have hvalue : (2 : ℚ) ^ 53 ≤ value := htime
          have : (last.1 : ℚ) < 2 ^ 53 := by exact_mod_cast (by omega : last.1 < 2 ^ 53)
          exact decide_eq_false (by linarith)
      have hafter : (some last).any (fun last => decide (last.1 < n)) = true := by
        rw [Option.any_some, decide_eq_true_eq]
        omega
      rw [getBoundedDate, boundedDate, hafter]
      simp only [hle]
      rfl

/-! ## The run -/

theorem lt_time (time : Time) : -2 ^ 53 < time.1 ∧ time.1 < 2 ^ 53 := by
  have := abs_le.mp time.2
  have := maxTime_lt
  omega

theorem stands_add {number : Binary64} {n : Nat} (h : Approximates number n) (time : Time) :
    Stands ((getTime time).add number) (time.1 + n) := by
  have htime := lt_time time
  by_cases hn : n ≤ 2 ^ 58
  · rw [h.1 hn, getTime, add]
    exact_mod_cast stands_ofRat (n := time.1 + n) (by omega)
  · refine .inr ⟨by omega, ?_⟩
    have hlarge := h.2 (by omega)
    cases number with
    | nan => exact hlarge.elim
    | infinity negative => exact hlarge
    | finite value =>
      have hvalue : (2 : ℚ) ^ 58 ≤ value := hlarge
      have hlow : -(2 : ℚ) ^ 53 < time.1 := by exact_mod_cast htime.1
      refine ofRat_atLeast ?_
      norm_num at hvalue hlow ⊢
      linarith

/-- The difference of two dates, as a number. -/
def elapsed (difference : Int) : Int :=
  if difference ≤ 2 ^ 53 then difference
  else if difference % 4 = 3 then difference + 1
  else difference - difference % 2

theorem sub_getTime {current start : Time} (h : start.1 ≤ current.1) :
    (getTime current).sub (getTime start) = .finite (elapsed (current.1 - start.1)) := by
  have hcurrent := lt_time current
  have hstart := lt_time start
  have hsub : (getTime current).sub (getTime start) = ofRat (current.1 - start.1 : Int) := by
    rw [sub, getTime, getTime, neg, add, ← sub_eq_add_neg, Int.cast_sub]
  rw [hsub, elapsed]
  split
  · rename_i hsmall
    exact ofRat_intCast (abs_le.mpr ⟨by omega, hsmall⟩)
  · exact ofRat_intCast_of_le (by omega) (by omega)

theorem elapsed_nonneg {difference : Int} (h : 0 ≤ difference) : 0 ≤ elapsed difference := by
  rw [elapsed]
  split_ifs <;> omega

/-- The number of whole intervals since the start. -/
theorem floor_div {number : Binary64} {n : Nat} (h : Approximates number n) (hdvd : 32 ∣ n)
    (hpos : 0 < n) {difference : Int} (hnonneg : 0 ≤ difference)
    (hlt : difference + 1 < 2 ^ 54) :
    ((Binary64.finite (elapsed difference)).div number).floor =
      .finite (elapsed difference / n : Int) := by
  have helapsed := elapsed_nonneg hnonneg
  have hle : elapsed difference < 2 ^ 54 := by
    rw [elapsed]
    split_ifs <;> omega
  by_cases hn : n ≤ 2 ^ 58
  · have hn0 : (n : ℚ) ≠ 0 := by exact_mod_cast hpos.ne'
    have hfloor : ⌊roundRat (elapsed difference / (n : Int))⌋ = elapsed difference / n := by
      by_cases hsmall : elapsed difference < 2 ^ 53
      · exact floor_roundRat_div helapsed (by omega) (one_dvd _) (one_dvd _) (by omega)
      · have heven : (2 : Int) ∣ elapsed difference := by
          rw [elapsed] at hsmall ⊢
          split_ifs at hsmall ⊢ <;> omega
        exact floor_roundRat_div helapsed (by omega) heven (by omega) (by omega)
    have hcount := Int.ediv_le_self (n : Int) helapsed
    obtain ⟨hlow, hhigh⟩ := Int.floor_eq_iff.mp hfloor
    have hfinite : |roundRat (elapsed difference / (n : Int))| < 2 ^ 1024 := by
      have hbound : ((elapsed difference / n : Int) : ℚ) + 1 < 2 ^ 1024 :=
        calc ((elapsed difference / n : Int) : ℚ) + 1 ≤ 2 ^ 55 := by
              exact_mod_cast (by omega : elapsed difference / n + 1 ≤ 2 ^ 55)
          _ < 2 ^ 1024 := pow_lt_pow_right₀ one_lt_two (by norm_num)
      have hzero : (0 : ℚ) ≤ (elapsed difference / n : Int) := by
        exact_mod_cast Int.ediv_nonneg helapsed (by omega)
      rw [abs_of_nonneg (hzero.trans hlow)]
      exact hhigh.trans hbound
    rw [h.1 hn, div, if_pos hn0, ofRat]
    rw [Int.cast_natCast] at hfinite hfloor
    rw [if_pos hfinite, floor, hfloor]
  · have hlarge := h.2 (by omega)
    rw [Int.ediv_eq_zero_of_lt helapsed (by omega)]
    cases number with
    | nan => exact hlarge.elim
    | infinity negative => rfl
    | finite value =>
      have hvalue : (2 : ℚ) ^ 58 ≤ value := hlarge
      have hle' : (elapsed difference : ℚ) ≤ 2 ^ 54 := by exact_mod_cast hle.le
      have hzero : (0 : ℚ) ≤ elapsed difference := by exact_mod_cast helapsed
      have hpos' : (0 : ℚ) < value := lt_of_lt_of_le (by positivity) hvalue
      have hquot : (0 : ℚ) ≤ elapsed difference / value := div_nonneg hzero hpos'.le
      have hhalf : (elapsed difference : ℚ) / value ≤ 1 / 2 := by
        rw [div_le_div_iff₀ hpos' two_pos]
        norm_num at hvalue hle'
        linarith
      have hround := roundRat_le_half hquot hhalf
      have hround0 : ((0 : Int) : ℚ) ≤ roundRat (elapsed difference / value) :=
        intCast_le_roundRat (by rw [abs_of_nonneg hquot]; linarith) (by rwa [Int.cast_zero])
      have hfinite : |roundRat (elapsed difference / value)| < 2 ^ 1024 := by
        rw [Int.cast_zero] at hround0
        rw [abs_of_nonneg hround0]
        exact hround.trans_lt (one_half_lt_one.trans (one_lt_pow₀ one_lt_two (by norm_num)))
      rw [div, if_pos hpos'.ne', ofRat, if_pos hfinite, floor]
      exact congrArg (fun n : Int => Binary64.finite n)
        (Int.floor_eq_iff.mpr ⟨hround0, by rw [Int.cast_zero]; linarith⟩)

theorem approximates_mul {number : Binary64} {n count : Nat} (h : Approximates number n)
    (hdvd : 32 ∣ n) (hpos : 0 < n) (hcount : count * n < 2 ^ 54) :
    Approximates (((Binary64.finite count).add (.finite 1)).mul number) ((count + 1) * n) := by
  have hle : count * 32 ≤ count * n := Nat.mul_le_mul_left _ (Nat.le_of_dvd hpos hdvd)
  have hsum : (Binary64.finite count).add (.finite 1) = .finite (count + 1 : Nat) := by
    rw [add]
    exact_mod_cast ofRat_intCast (n := (count + 1 : Nat)) (by rw [Nat.abs_cast]; omega)
  rw [hsum]
  by_cases hn : n ≤ 2 ^ 58
  · have hprod : (count + 1) * n ≤ 2 ^ 58 := by
      rcases Nat.eq_zero_or_pos count with rfl | hsome
      · omega
      · have := Nat.le_mul_of_pos_left n hsome
        rw [Nat.succ_mul]
        omega
    refine ⟨fun _ => ?_, fun hlt => by omega⟩
    rw [h.1 hn, mul, ← Nat.cast_mul]
    obtain ⟨part, rfl⟩ := hdvd
    refine ofRat_of_eq (n := ((count + 1) * part : Nat)) (e := 5) ?_ ?_ (by norm_num) ?_
    · push_cast
      ring
    · rw [Nat.abs_cast]
      exact_mod_cast (by linarith : (count + 1) * part ≤ 2 ^ 53)
    · rw [Nat.abs_cast]
      have : (((count + 1) * (32 * part) : ℕ) : ℚ) ≤ 2 ^ 58 := by exact_mod_cast hprod
      exact this.trans_lt (pow_lt_pow_right₀ one_lt_two (by norm_num))
  · obtain rfl : count = 0 := by
      by_contra hsome
      have := Nat.le_mul_of_pos_left n (Nat.pos_of_ne_zero hsome)
      omega
    rw [Nat.zero_add, Nat.one_mul, Nat.cast_one]
    refine ⟨fun hle => absurd hle hn, fun hlt => ?_⟩
    have hlarge := h.2 hlt
    cases number with
    | nan => exact hlarge.elim
    | infinity negative =>
      obtain rfl : negative = false := hlarge
      rw [mul, if_neg one_ne_zero, decide_eq_false (by norm_num)]
      rfl
    | finite value =>
      rw [mul, one_mul]
      exact ofRat_atLeast hlarge

theorem ediv_elapsed {difference : Int} {n : Nat} (hdvd : 32 ∣ n) (hpos : 0 < n) :
    elapsed difference / n = difference / n +
      if 2 ^ 53 < difference ∧ (n : Int) ∣ difference + 1 then 1 else 0 := by
  have hn : (0 : Int) < n := by exact_mod_cast hpos
  have hmod : ∀ {a : Int}, ¬ (n : Int) ∣ a + 1 → (a + 1) / n = a / n := by
    intro a hnot
    have hlow := Int.emod_nonneg a hn.ne'
    have hhigh := Int.emod_lt_of_pos a hn
    have hsum := Int.emod_add_mul_ediv a n
    have hne : a % n + 1 ≠ n := fun heq => hnot ⟨a / n + 1, by rw [mul_add]; omega⟩
    exact ((Int.ediv_emod_unique hn).mpr ⟨by omega, by omega, by omega⟩ :
      (a + 1) / n = a / n ∧ (a + 1) % n = a % n + 1).1
  have heven : (32 : Int) ∣ n := by exact_mod_cast hdvd
  rw [elapsed]
  split_ifs with hsmall hround hround hlast hlast
  · omega
  · omega
  · obtain ⟨k, hk⟩ := hlast.2
    have hdiv := ((Int.ediv_emod_unique hn).mpr
      ⟨by rw [mul_sub]; omega, by omega, by omega⟩ :
        difference / n = k - 1 ∧ difference % n = n - 1).1
    rw [hk, Int.mul_ediv_cancel_left k hn.ne', hdiv]
    omega
  · rw [hmod fun hdiv => hlast ⟨by omega, hdiv⟩, add_zero]
  · have := heven.trans hlast.2
    omega
  · rcases Int.emod_two_eq_zero_or_one difference with hmod2 | hmod2
    · rw [hmod2, sub_zero, add_zero]
    · have hodd : ¬ (n : Int) ∣ difference - 1 + 1 := fun hdiv => by
        have := heven.trans hdiv
        omega
      rw [hmod2, ← hmod hodd, sub_add_cancel, add_zero]

/-- What the code computes is the next run, or the one after it where the time
since the start is rounded. -/
theorem stands_getNextRateTime {schedule : Schedule} {number : Binary64}
    (h : Approximates number schedule.interval) (hdvd : 32 ∣ schedule.interval)
    (hpos : 0 < schedule.interval) (current : Time) :
    (¬ schedule.Rounded current.1 →
      Stands (getNextRateTime number current schedule.startTime) (schedule.nextTime current.1)) ∧
    (schedule.Rounded current.1 →
      Stands (getNextRateTime number current schedule.startTime)
        (schedule.nextTime current.1 + schedule.interval)) := by
  cases hstart : schedule.startTime with
  | none =>
    constructor
    · intro _
      rw [Schedule.nextTime, hstart]
      exact stands_add h current
    · rintro ⟨start, heq, -⟩
      rw [hstart] at heq
      cases heq
  | some start =>
    have hrounded : schedule.Rounded current.1 ↔ 2 ^ 53 < current.1 - start.1 ∧
        (schedule.interval : Int) ∣ current.1 - start.1 + 1 := by
      rw [Schedule.Rounded, hstart]
      constructor
      · rintro ⟨_, heq, hround⟩
        exact Option.some.inj heq ▸ hround
      · exact fun hround => ⟨start, rfl, hround⟩
    rw [hrounded, Schedule.nextTime, hstart, getNextRateTime]
    simp only
    by_cases hbefore : current.1 < start.1
    · rw [if_pos hbefore, if_pos hbefore]
      exact ⟨fun _ => .inl ⟨(lt_time start).2.le, rfl⟩, fun hround => by omega⟩
    · have hcurrent := (abs_le.mp current.2).2
      have hstart := (abs_le.mp start.2).1
      have hmax := two_mul_maxTime_lt
      rw [if_neg hbefore, if_neg hbefore, sub_getTime (by omega),
        floor_div h hdvd hpos (by omega) (by omega)]
      have helapsed : 0 ≤ elapsed (current.1 - start.1) := elapsed_nonneg (by omega)
      have hlt : elapsed (current.1 - start.1) < 2 ^ 54 := by
        rw [elapsed]
        split_ifs <;> omega
      have hle := Int.ediv_mul_le (elapsed (current.1 - start.1))
        (by omega : (schedule.interval : Int) ≠ 0)
      have hcount : elapsed (current.1 - start.1) / schedule.interval = _ :=
        ediv_elapsed hdvd hpos
      obtain ⟨count, heq⟩ := Int.eq_ofNat_of_zero_le
        (Int.ediv_nonneg helapsed (Int.natCast_nonneg schedule.interval))
      rw [heq] at hle hcount ⊢
      have hstands := stands_add (approximates_mul h hdvd hpos
        (by exact_mod_cast hle.trans_lt hlt : count * schedule.interval < 2 ^ 54)) start
      rw [Int.cast_natCast]
      push_cast at hstands
      constructor
      · intro hround
        rw [if_neg hround, add_zero] at hcount
        rwa [← hcount]
      · intro hround
        rw [if_pos hround] at hcount
        rw [hcount] at hstands
        convert hstands using 1
        ring

end Ez4.Scheduler.Rate

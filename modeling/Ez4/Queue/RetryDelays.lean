import Mathlib.Algebra.Order.BigOperators.Group.Finset
import Mathlib.Order.Interval.Finset.Nat
import Ez4.Library.Rounding

/-! # Delays between the attempts of a message

`retryMessage` and `getWindowDelay` (`lib/message.ts`), with `getRandomInteger`
and `Wait.delay` of the utilities. Numbers are those of 64 bits, and what
`Math.random` gives is a parameter. -/
namespace Ez4.Queue.RetryDelays
open Ez4.Library

/-! ## Random numbers -/

/-- What `Math.random` gives: at least zero and less than one. -/
abbrev Random := { value : ℚ // 0 ≤ value ∧ value < 1 }

def getRandomInteger (random : Random) (min max : Binary64) : Binary64 :=
  (((Binary64.finite random).mul ((max.sub min).add (.finite 1))).add min).trunc

/-- `Math.min` -/
def mathMin (a b : Binary64) : Binary64 :=
  match a, b with
  | .nan, _ | _, .nan => .nan
  | a, b => if a.le b then a else b

/-! ## Delays -/

/-- The constants of a queue function. -/
structure Backoff where
  maxAttempts : ℕ
  minBackoff : ℕ
  maxBackoff : ℕ
  retryWindow : ℕ

variable (options : Backoff)

/-- `Wait.delay` -/
def waitDelay (attempt : ℕ) (random : Random) : Binary64 :=
  let priorScale := (Binary64.finite (attempt - 1)).div (.finite options.maxAttempts)
  let newerScale := (Binary64.finite attempt).div (.finite options.maxAttempts)
  let range := (Binary64.finite options.maxBackoff).sub (.finite options.minBackoff)
  let lower := (range.div (.finite 2)).mul priorScale
  let upper := range.mul newerScale
  let delay := getRandomInteger random lower upper
  mathMin (.finite options.maxBackoff) ((Binary64.finite options.minBackoff).add delay)

def getWindowDelay (attempt : ℕ) (random : Random) : Binary64 :=
  let retries : ℤ := options.maxAttempts - 1
  let stretched := attempt ≤ retries ∧ (1 < attempt ∨ retries = 1)
  if ¬ stretched then
    getRandomInteger random (.finite options.minBackoff) (.finite options.maxBackoff)
  else
    let share :=
      if 1 < retries then
        (((Binary64.finite options.retryWindow).sub (.finite options.minBackoff)).div
          (.finite (retries - 1 : ℤ))).ceil
      else .finite options.retryWindow
    getRandomInteger random share (share.mul (.finite 1.25)).ceil

/-- The `VisibilityTimeout` that `retryMessage` asks for. -/
def retryMessage (attemptCount : ℕ) (userDelay : Option Binary64) (random : Random) : Binary64 :=
  let attemptDelay :=
    if options.retryWindow ≠ 0 then getWindowDelay options attemptCount random
    else waitDelay options attemptCount random
  userDelay.getD attemptDelay

/-! ## The retry window -/

/-- A queue with a retry window and at least one retry, in seconds that fit a visibility timeout
by far. -/
structure WindowBackoff extends Backoff where
  isRetried : 2 ≤ maxAttempts
  pos : 0 < minBackoff
  ordered : minBackoff ≤ maxBackoff
  within : minBackoff ≤ retryWindow
  maxAttempts_le : maxAttempts ≤ 2 ^ 50
  maxBackoff_le : maxBackoff ≤ 2 ^ 50
  retryWindow_le : retryWindow ≤ 2 ^ 50

namespace WindowBackoff

variable (options : WindowBackoff)

/-- The share that each retry after the first one has of what is left of the window. -/
def share : ℕ := ⌈((options.retryWindow : ℚ) - options.minBackoff) / (options.maxAttempts - 2)⌉₊

/-- A quarter of the share, rounded up. -/
def quarter : ℕ := ⌈(options.share : ℚ) / 4⌉₊

/-- What the delays are to be, in seconds. -/
structure IsSpanned (seconds : ℕ → ℤ) : Prop where
  window : options.retryWindow ≤ ∑ attempt ∈ Finset.Icc 1 (options.maxAttempts - 1), seconds attempt
  stretched : ∀ attempt ∈ Finset.Icc 2 (options.maxAttempts - 1),
    seconds attempt ≤ options.share + options.quarter
  first : 3 ≤ options.maxAttempts →
    options.minBackoff ≤ seconds 1 ∧ seconds 1 ≤ options.maxBackoff
  last : ∀ attempt ≥ options.maxAttempts,
    options.minBackoff ≤ seconds attempt ∧ seconds attempt ≤ options.maxBackoff

/-- The delays that `retryMessage` asks for span the window. -/
def SpansWindow (draws : ℕ → Random) : Prop :=
  ∃ seconds : ℕ → ℤ, (∀ attempt ≥ 1,
    retryMessage options.toBackoff attempt none (draws attempt) = .finite (seconds attempt)) ∧
      options.IsSpanned seconds

/-- No random number is so close to 1 that a delay is rounded up past its bound. -/
structure StaysWithin (draws : ℕ → Random) : Prop where
  first : 3 ≤ options.maxAttempts → Binary64.StaysBelow (draws 1).1
    (options.maxBackoff - options.minBackoff + 1) (options.maxBackoff + 1)
  stretched : ∀ attempt ∈ Finset.Icc 2 (options.maxAttempts - 1),
    Binary64.StaysBelow (draws attempt).1 (options.quarter + 1) (options.share + options.quarter + 1)
  last : ∀ attempt ≥ options.maxAttempts, Binary64.StaysBelow (draws attempt).1
    (options.maxBackoff - options.minBackoff + 1) (options.maxBackoff + 1)

end WindowBackoff

/-! ## A random integer -/

section
variable {x : ℚ} {low high : ℕ}

theorem trunc_finite (h : 0 ≤ x) : (Binary64.finite x).trunc = .finite ⌊x⌋ := by
  rw [Binary64.trunc, Rat.floor_def', Int.tdiv_eq_ediv_of_nonneg (Rat.num_nonneg.mpr h)]

/-- A number that is rounded to less than any bound is a value. -/
theorem ofRat_of_le (hnonneg : 0 ≤ Binary64.roundRat x) (hle : Binary64.roundRat x ≤ 2 ^ 53) :
    Binary64.ofRat x = .finite (Binary64.roundRat x) := by
  rw [Binary64.ofRat, if_pos]
  calc |Binary64.roundRat x| = Binary64.roundRat x := abs_of_nonneg hnonneg
    _ ≤ 2 ^ 53 := hle
    _ < 2 ^ 1024 := pow_lt_pow_right₀ one_lt_two (by norm_num)

theorem ofRat_natCast {n : ℕ} (hle : n ≤ 2 ^ 53) : Binary64.ofRat n = .finite n := by
  have hcast := Binary64.ofRat_intCast (n := n) (abs_le.mpr ⟨by omega, by exact_mod_cast hle⟩)
  exact_mod_cast hcast

theorem sub_natCast (hle : low ≤ high) (hhigh : high ≤ 2 ^ 53) :
    (Binary64.finite high).sub (.finite low) = .finite (high - low : ℕ) := by
  rw [← ofRat_natCast (by omega : high - low ≤ 2 ^ 53), Nat.cast_sub hle, sub_eq_add_neg]
  rfl

theorem add_natCast (hle : low + high ≤ 2 ^ 53) :
    (Binary64.finite low).add (.finite high) = .finite (low + high : ℕ) := by
  rw [← ofRat_natCast hle, Nat.cast_add]
  rfl

/-- **A random integer is between its bounds, or one more than the upper one if the random
number is too close to 1.** -/
theorem getRandomInteger_eq (random : Random) (hle : low ≤ high) (hhigh : high < 2 ^ 52) :
    ∃ z : ℤ, getRandomInteger random (.finite low) (.finite high) = .finite z ∧
      low ≤ z ∧ z ≤ high + 1 ∧
      (z ≤ high ↔ Binary64.StaysBelow random.1 (high - low + 1) (high + 1)) := by
  obtain ⟨random, hnonneg, hless⟩ := random
  have hone : (Binary64.finite 1) = .finite (1 : ℕ) := by rw [Nat.cast_one]
  unfold getRandomInteger
  rw [sub_natCast hle (by omega), hone, add_natCast (by omega)]
  generalize hk : high - low + 1 = width
  have hprod := Binary64.roundRat_mul_nonneg hnonneg hless (by omega : width ≤ 2 ^ 52)
  have hprod' := Binary64.roundRat_mul_le hnonneg hless (by omega : width ≤ 2 ^ 52)
  have hwidth : (width : ℚ) ≤ 2 ^ 52 := by exact_mod_cast (by omega : width ≤ 2 ^ 52)
  have hlt := Binary64.roundRat_mul_add_lt_iff hnonneg hless (by omega : low + width = high + 1)
    (by omega) (by omega)
  change ∃ z : ℤ, ((Binary64.ofRat (random * width)).add (.finite low)).trunc = _ ∧ _
  rw [ofRat_of_le hprod (by linarith)]
  change ∃ z : ℤ, (Binary64.ofRat (Binary64.roundRat (random * width) + low)).trunc = _ ∧ _
  generalize Binary64.roundRat (random * width) = product at hprod hprod' hlt
  have hsum : product + low ≤ (high + 1 : ℕ) := by
    rw [← (by omega : low + width = high + 1), Nat.cast_add]
    linarith
  have hbound : ((high + 1 : ℕ) : ℚ) ≤ 2 ^ 52 := by exact_mod_cast hhigh
  have hlow : (low : ℚ) ≤ Binary64.roundRat (product + low) := by
    have hround := Binary64.intCast_le_roundRat (n := low) (x := product + low)
      (by rw [abs_of_nonneg (by positivity)]; linarith) (by push_cast; linarith)
    exact_mod_cast hround
  have hup : Binary64.roundRat (product + low) ≤ (high + 1 : ℕ) :=
    Binary64.roundRat_le_of_le (by positivity) hsum (Binary64.roundRat_natCast (by omega))
  rw [ofRat_of_le (hlow.trans' (by positivity)) (hup.trans (by linarith)),
    trunc_finite (hlow.trans' (by positivity))]
  refine ⟨_, rfl, Int.le_floor.mpr (by exact_mod_cast hlow), ?_, ?_⟩
  · exact_mod_cast Int.cast_le.mp ((Int.floor_le _).trans hup)
  rw [← hlt, ← Int.lt_add_one_iff, Int.floor_lt]
  push_cast
  rfl

end

end Ez4.Queue.RetryDelays

import Mathlib.Algebra.Order.BigOperators.Group.Finset
import Mathlib.Algebra.BigOperators.Intervals
import Ez4.Queue.RetryDelays

/-! # The retry window

The delays are whole numbers that span the window, whatever the random numbers
are. Each is within its upper bound if its random number is not too close
to 1. -/
namespace Ez4.Queue.RetryDelays
open Ez4.Library

namespace WindowBackoff

variable (options : WindowBackoff)

/-! ## Shares -/

theorem retryWindow_sub : (Binary64.finite options.retryWindow).sub (.finite options.minBackoff) =
    .finite (options.retryWindow - options.minBackoff : ℕ) :=
  sub_natCast options.within (options.retryWindow_le.trans (by norm_num))

/-- What is left of the window, among the retries after the first one. -/
theorem share_eq_ceil : options.share =
    ⌈((options.retryWindow - options.minBackoff : ℕ) / (options.maxAttempts - 2 : ℕ) : ℚ)⌉₊ := by
  rw [share, Nat.cast_sub options.within, Nat.cast_sub options.isRetried, Nat.cast_ofNat]

theorem share_le : options.share ≤ 2 ^ 50 := by
  have hwindow : ((options.retryWindow - options.minBackoff : ℕ) : ℚ) ≤ 2 ^ 50 := by
    exact_mod_cast (Nat.sub_le _ _).trans options.retryWindow_le
  rw [share_eq_ceil]
  refine Nat.ceil_le.mpr ?_
  rcases Nat.eq_zero_or_pos (options.maxAttempts - 2) with hzero | hpos
  · rw [hzero, Nat.cast_zero, div_zero]
    positivity
  · push_cast
    exact (div_le_self (by positivity) (by exact_mod_cast hpos)).trans hwindow

/-- The share that the code computes. -/
theorem ceil_div_eq_share (h : 3 ≤ options.maxAttempts) :
    (((Binary64.finite options.retryWindow).sub (.finite options.minBackoff)).div
      (.finite ((options.maxAttempts : ℤ) - 1 - 1 : ℤ))).ceil = .finite options.share := by
  have hretries : (((options.maxAttempts : ℤ) - 1 - 1 : ℤ) : ℚ) = (options.maxAttempts - 2 : ℕ) := by
    exact_mod_cast (by omega : (options.maxAttempts : ℤ) - 1 - 1 = (options.maxAttempts - 2 : ℕ))
  have hattempts := options.maxAttempts_le
  have hwindow := options.retryWindow_le
  rw [retryWindow_sub, hretries, share_eq_ceil]
  have hceil := Binary64.ceil_roundRat_div
    (by omega : options.retryWindow - options.minBackoff < 2 ^ 53)
    (by omega : 0 < options.maxAttempts - 2) (by omega)
  generalize hleft : options.retryWindow - options.minBackoff = left at hceil ⊢
  have hpos : 0 < options.maxAttempts - 2 := by omega
  generalize options.maxAttempts - 2 = retries at hceil hpos ⊢
  have hretry : (1 : ℚ) ≤ retries := by exact_mod_cast hpos
  have hnonneg : (0 : ℚ) ≤ left / retries := by positivity
  have hle : (left / retries : ℚ) ≤ left := div_le_self (by positivity) hretry
  have hbound : (left : ℚ) ≤ 2 ^ 50 := by exact_mod_cast (by omega : left ≤ 2 ^ 50)
  have hround : 0 ≤ Binary64.roundRat (left / retries) := by
    have hround := Binary64.intCast_le_roundRat (n := 0) (x := left / retries)
      (by rw [abs_of_nonneg hnonneg]; linarith) (by exact_mod_cast hnonneg)
    exact_mod_cast hround
  have hround' : Binary64.roundRat (left / retries) ≤ left :=
    Binary64.roundRat_le_of_le hnonneg hle (Binary64.roundRat_natCast (by omega))
  rw [Binary64.div, if_pos (by linarith), ofRat_of_le hround (by linarith), Binary64.ceil, hceil,
    ← Int.natCast_ceil_eq_ceil hnonneg]
  rfl

/-- A quarter more, rounded up. -/
theorem ceil_mul_eq {n : ℕ} (hle : n ≤ 2 ^ 50) :
    ((Binary64.finite n).mul (.finite 1.25)).ceil = .finite (n + ⌈(n : ℚ) / 4⌉₊ : ℕ) := by
  have hvalue : Binary64.ofRat (n * 1.25) = .finite (n * 1.25) := by
    refine Binary64.ofRat_of_eq (n := (5 * n : ℕ)) (e := -2) ?_
      (abs_le.mpr ⟨by omega, by omega⟩) (by norm_num) ?_
    · push_cast
      norm_num
      ring
    · have hbound : (n : ℚ) ≤ 2 ^ 50 := by exact_mod_cast hle
      rw [abs_of_nonneg (by positivity)]
      calc (n * 1.25 : ℚ) ≤ 2 ^ 53 := by linarith
        _ < 2 ^ 1024 := pow_lt_pow_right₀ one_lt_two (by norm_num)
  have hceil : ⌈(n * 1.25 : ℚ)⌉ = (n + ⌈(n : ℚ) / 4⌉₊ : ℕ) := by
    have hsplit : (n * 1.25 : ℚ) = n / 4 + n := by ring
    rw [hsplit, Int.ceil_add_natCast, Nat.cast_add, Int.natCast_ceil_eq_ceil (by positivity),
      add_comm]
  change (Binary64.ofRat (n * 1.25)).ceil = _
  rw [hvalue, Binary64.ceil, hceil]
  rfl

theorem quarter_le : options.quarter ≤ options.share :=
  Nat.ceil_le.mpr (div_le_self (by positivity) (by norm_num))

/-! ## The delay of an attempt -/

section
variable {options : WindowBackoff} {attempt : ℕ} (random : Random)

/-- The first retry of several, the last attempt and those past it. -/
theorem getWindowDelay_of_bounds
    (h : attempt = 1 ∧ 3 ≤ options.maxAttempts ∨ options.maxAttempts ≤ attempt) :
    getWindowDelay options.toBackoff attempt random =
      getRandomInteger random (.finite options.minBackoff) (.finite options.maxBackoff) := by
  have hretried := options.isRetried
  rw [getWindowDelay, if_pos]
  omega

/-- A retry after the first one. -/
theorem getWindowDelay_of_share (hmore : 2 ≤ attempt) (hless : attempt < options.maxAttempts) :
    getWindowDelay options.toBackoff attempt random =
      getRandomInteger random (.finite options.share)
        (.finite (options.share + options.quarter : ℕ)) := by
  rw [getWindowDelay, if_neg (by omega), if_pos (by omega), ceil_div_eq_share _ (by omega),
    quarter, ← ceil_mul_eq options.share_le]

/-- The only retry. -/
theorem getWindowDelay_of_window (hone : options.maxAttempts = 2) :
    getWindowDelay options.toBackoff 1 random =
      getRandomInteger random (.finite options.retryWindow)
        (.finite (options.retryWindow + ⌈(options.retryWindow : ℚ) / 4⌉₊ : ℕ)) := by
  rw [getWindowDelay, if_neg (by omega), if_neg (by omega), ← ceil_mul_eq options.retryWindow_le]

/-- The delay of an attempt in seconds, with its bounds. -/
structure IsDelay (options : WindowBackoff) (attempt : ℕ) (random : Random) (seconds : ℤ) : Prop where
  eq : retryMessage options.toBackoff attempt none random = .finite seconds
  window : options.maxAttempts = 2 → attempt = 1 → options.retryWindow ≤ seconds
  stretched : 2 ≤ attempt → attempt < options.maxAttempts → options.share ≤ seconds ∧
    (seconds ≤ options.share + options.quarter ↔ Binary64.StaysBelow random.1
      (options.quarter + 1) (options.share + options.quarter + 1))
  bounds : attempt = 1 ∧ 3 ≤ options.maxAttempts ∨ options.maxAttempts ≤ attempt →
    options.minBackoff ≤ seconds ∧
    (seconds ≤ options.maxBackoff ↔ Binary64.StaysBelow random.1
      (options.maxBackoff - options.minBackoff + 1) (options.maxBackoff + 1))

theorem exists_isDelay (options : WindowBackoff) (hattempt : 1 ≤ attempt) :
    ∃ seconds, IsDelay options attempt random seconds := by
  have hpos := options.pos
  have hwithin := options.within
  have hmax := options.maxBackoff_le
  have hwindow := options.retryWindow_le
  have hshare := options.share_le
  have hquarter := options.quarter_le
  have hretry : retryMessage options.toBackoff attempt none random =
      getWindowDelay options.toBackoff attempt random := if_pos (by omega)
  by_cases hbounds : attempt = 1 ∧ 3 ≤ options.maxAttempts ∨ options.maxAttempts ≤ attempt
  · obtain ⟨seconds, heq, hlow, -, hhigh⟩ := getRandomInteger_eq random options.ordered (by omega)
    exact ⟨seconds, hretry.trans ((getWindowDelay_of_bounds random hbounds).trans heq),
      fun _ _ => by omega, fun _ _ => by omega, fun _ => ⟨hlow, hhigh⟩⟩
  · by_cases hmore : 2 ≤ attempt
    · obtain ⟨seconds, heq, hlow, -, hhigh⟩ := getRandomInteger_eq random
        (Nat.le_add_right options.share options.quarter) (by omega)
      rw [Nat.add_sub_cancel_left] at hhigh
      exact ⟨seconds, hretry.trans ((getWindowDelay_of_share random hmore (by omega)).trans heq),
        fun _ _ => by omega, fun _ _ => ⟨hlow, by exact_mod_cast hhigh⟩, fun h => absurd h hbounds⟩
    · obtain rfl : attempt = 1 := by omega
      have hretried := options.isRetried
      have hceil : ⌈(options.retryWindow : ℚ) / 4⌉₊ ≤ options.retryWindow :=
        Nat.ceil_le.mpr (div_le_self (by positivity) (by norm_num))
      obtain ⟨seconds, heq, hlow, -, -⟩ := getRandomInteger_eq random
        (Nat.le_add_right options.retryWindow ⌈(options.retryWindow : ℚ) / 4⌉₊) (by omega)
      exact ⟨seconds, hretry.trans ((getWindowDelay_of_window random (by omega)).trans heq),
        fun _ _ => hlow, fun _ _ => by omega, fun h => absurd h hbounds⟩

end

/-! ## The sum -/

/-- The retries after the first one take what is left of the window. -/
theorem retryWindow_le_share (h : 3 ≤ options.maxAttempts) :
    options.retryWindow ≤ options.minBackoff + (options.maxAttempts - 2) * options.share := by
  have hceil := Nat.le_ceil
    ((options.retryWindow - options.minBackoff : ℕ) / (options.maxAttempts - 2 : ℕ) : ℚ)
  have hpos : (0 : ℚ) < (options.maxAttempts - 2 : ℕ) := by exact_mod_cast (by omega)
  rw [← share_eq_ceil, div_le_iff₀ hpos] at hceil
  have hle : options.retryWindow - options.minBackoff ≤
      options.share * (options.maxAttempts - 2) := by exact_mod_cast hceil
  rw [mul_comm] at hle
  omega

theorem retryWindow_le_sum {draws : ℕ → Random} {seconds : ℕ → ℤ}
    (hdelays : ∀ attempt ≥ 1, IsDelay options attempt (draws attempt) (seconds attempt)) :
    options.retryWindow ≤
      ∑ attempt ∈ Finset.Icc 1 (options.maxAttempts - 1), seconds attempt := by
  have hretried := options.isRetried
  rcases hretried.eq_or_lt with htwo | hmore
  · rw [← htwo]
    simpa using (hdelays 1 le_rfl).window htwo.symm rfl
  · have hsplit : Finset.Icc 1 (options.maxAttempts - 1) =
        insert 1 (Finset.Icc 2 (options.maxAttempts - 1)) := by
      ext attempt
      simp only [Finset.mem_insert, Finset.mem_Icc]
      omega
    have hfirst := ((hdelays 1 le_rfl).bounds (.inl ⟨rfl, hmore⟩)).1
    have hrest := Finset.card_nsmul_le_sum (Finset.Icc 2 (options.maxAttempts - 1)) seconds
      options.share fun attempt hattempt => by
        obtain ⟨hlow, hhigh⟩ := Finset.mem_Icc.mp hattempt
        exact ((hdelays attempt (by omega)).stretched hlow (by omega)).1
    rw [Nat.card_Icc, (by omega : options.maxAttempts - 1 + 1 - 2 = options.maxAttempts - 2),
      nsmul_eq_mul] at hrest
    have hwindow : (options.retryWindow : ℤ) ≤
        options.minBackoff + (options.maxAttempts - 2 : ℕ) * options.share := by
      exact_mod_cast options.retryWindow_le_share hmore
    rw [hsplit, Finset.sum_insert (by simp)]
    linarith

end WindowBackoff

/-- **The delays span the retry window exactly where no random number is too close to 1.** -/
theorem retryMessage_spansWindow_iff (options : WindowBackoff) (draws : ℕ → Random) :
    options.SpansWindow draws ↔ options.StaysWithin draws := by
  have hretried := options.isRetried
  constructor
  · rintro ⟨seconds, hseconds, hspanned⟩
    have hdelays : ∀ attempt ≥ 1, WindowBackoff.IsDelay options attempt (draws attempt)
        (seconds attempt) := by
      intro attempt hattempt
      obtain ⟨other, hother⟩ := WindowBackoff.exists_isDelay (draws attempt) options hattempt
      have hsame : (other : ℚ) = seconds attempt :=
        Binary64.finite.inj (hother.eq.symm.trans (hseconds attempt hattempt))
      exact Int.cast_injective hsame ▸ hother
    refine ⟨fun hmore => ?_, fun attempt hattempt => ?_, fun attempt hattempt => ?_⟩
    · exact ((hdelays 1 le_rfl).bounds (.inl ⟨rfl, hmore⟩)).2.mp (hspanned.first hmore).2
    · obtain ⟨hlow, hhigh⟩ := Finset.mem_Icc.mp hattempt
      exact ((hdelays attempt (by omega)).stretched hlow (by omega)).2.mp
        (hspanned.stretched attempt hattempt)
    · exact ((hdelays attempt (by omega)).bounds (.inr hattempt)).2.mp
        (hspanned.last attempt hattempt).2
  · intro hwithin
    have hexists : ∀ attempt, ∃ seconds, 1 ≤ attempt →
        WindowBackoff.IsDelay options attempt (draws attempt) seconds := by
      intro attempt
      by_cases hattempt : 1 ≤ attempt
      · obtain ⟨seconds, hseconds⟩ := WindowBackoff.exists_isDelay (draws attempt) options hattempt
        exact ⟨seconds, fun _ => hseconds⟩
      · exact ⟨0, fun h => absurd h hattempt⟩
    choose seconds hdelays using hexists
    refine ⟨seconds, fun attempt hattempt => (hdelays attempt hattempt).eq,
      options.retryWindow_le_sum hdelays, fun attempt hattempt => ?_, fun hmore => ?_,
      fun attempt hattempt => ?_⟩
    · obtain ⟨hlow, hhigh⟩ := Finset.mem_Icc.mp hattempt
      exact ((hdelays attempt (by omega)).stretched hlow (by omega)).2.mpr
        (hwithin.stretched attempt hattempt)
    · have hbounds := (hdelays 1 le_rfl).bounds (.inl ⟨rfl, hmore⟩)
      exact ⟨hbounds.1, hbounds.2.mpr (hwithin.first hmore)⟩
    · have hbounds := (hdelays attempt (by omega)).bounds (.inr hattempt)
      exact ⟨hbounds.1, hbounds.2.mpr (hwithin.last attempt hattempt)⟩

namespace Sample

/-- The defaults of a subscription. -/
def defaults : WindowBackoff where
  maxAttempts := 3
  minBackoff := 5
  maxBackoff := 30
  retryWindow := 600
  isRetried := by decide
  pos := by decide
  ordered := by decide
  within := by decide
  maxAttempts_le := by decide
  maxBackoff_le := by decide
  retryWindow_le := by decide

/-- The last number of 64 bits before 1. -/
def highest : Random := ⟨1 - 1 / 2 ^ 53, by norm_num, by norm_num⟩

theorem share_defaults : defaults.share = 595 ∧ defaults.quarter = 149 := by
  have hshare : defaults.share = 595 := by
    norm_num [WindowBackoff.share, defaults]
  refine ⟨hshare, ?_⟩
  rw [WindowBackoff.quarter, hshare]
  exact (Nat.ceil_eq_iff (by norm_num)).mpr ⟨by norm_num, by norm_num⟩

theorem not_staysBelow_highest : ¬ Binary64.StaysBelow highest.1 150 745 := by
  have hwidth : Nat.clog 2 150 = 8 := by decide +kernel
  have htop : Nat.clog 2 745 = 10 := by decide +kernel
  unfold Binary64.StaysBelow highest
  dsimp only
  rw [hwidth, htop]
  norm_num

/-- The second retry waits 745 seconds, and its share with a quarter more is 744. -/
theorem retryMessage_highest : retryMessage defaults.toBackoff 2 none highest = .finite 745 ∧
    ¬ defaults.SpansWindow fun _ => highest := by
  obtain ⟨hshare, hquarter⟩ := share_defaults
  have heq : retryMessage defaults.toBackoff 2 none highest = .finite 745 := by
    obtain ⟨seconds, heq, -, hmost, hhigh⟩ := getRandomInteger_eq highest
      (by norm_num : 595 ≤ 744) (by norm_num)
    have hmore : ¬ seconds ≤ 744 := fun h => not_staysBelow_highest (hhigh.mp h)
    obtain rfl : seconds = 745 := by omega
    have hdelay := @WindowBackoff.getWindowDelay_of_share defaults 2 highest le_rfl (by decide)
    rw [hshare, hquarter] at hdelay
    exact hdelay.trans heq
  refine ⟨heq, ?_⟩
  rintro ⟨seconds, hseconds, hspanned⟩
  have hsecond : seconds 2 = 745 := by
    have hsame := Binary64.finite.inj ((hseconds 2 (by decide)).symm.trans heq)
    exact_mod_cast hsame
  have hstretched := hspanned.stretched 2 (by decide)
  rw [hsecond, hshare, hquarter] at hstretched
  omega

end Sample

end Ez4.Queue.RetryDelays

import Mathlib.Data.Nat.Log
import Ez4.Library.Binary64

/-! # Rounding around a value

A number between two values of 64 bits that follow each other is rounded to
the nearer one. How far below a value a number has to be to stay below it is
half of the distance to the value before. -/
namespace Ez4.Library.Binary64

section
variable {x y : ℚ} {n e : ℤ}

theorem unit_mono (hpos : 0 < x) (h : x ≤ y) : ∃ k : ℤ, unit y = k * unit x := by
  unfold unit
  refine exists_mul_zpow (max_le_max_right _ (Int.sub_le_sub_right ?_ _))
  rw [abs_of_pos hpos, abs_of_pos (hpos.trans_le h)]
  exact Int.log_mono_right hpos h

/-- A number up to a value is rounded to at most the value. -/
theorem roundRat_le_of_le (hnonneg : 0 ≤ x) (h : x ≤ y) (hy : roundRat y = y) : roundRat x ≤ y := by
  rcases hnonneg.eq_or_lt with rfl | hpos
  · rw [roundRat_eq (n := 0) (by rw [Int.cast_zero, zero_mul])]
    exact h
  · obtain ⟨k, hk⟩ := unit_mono hpos h
    have hvalue : y = (roundHalfEven (y / unit y) * k : ℤ) * unit x := by
      rw [Int.cast_mul, mul_assoc, ← hk]
      exact hy.symm
    rw [hvalue] at h ⊢
    exact roundRat_le h

/-- The unit of the numbers between two powers of two. -/
theorem unit_of_mem (he : -1074 ≤ e) (hlow : 2 ^ 52 * 2 ^ e ≤ x) (hhigh : x < 2 ^ 53 * 2 ^ e) :
    unit x = 2 ^ e := by
  have hpow : (0 : ℚ) < 2 ^ e := zpow_pos two_pos e
  have hpos : 0 < x := (mul_pos (by positivity) hpow).trans_le hlow
  have hge : 52 + e ≤ Int.log 2 x := by
    refine (Int.zpow_le_iff_le_log one_lt_two hpos).mp ?_
    rw [zpow_add₀ (by norm_num)]
    exact_mod_cast hlow
  have hlt : Int.log 2 x < 53 + e := by
    refine (Int.lt_zpow_iff_log_lt one_lt_two hpos).mp ?_
    rw [zpow_add₀ (by norm_num)]
    exact_mod_cast hhigh
  rw [unit, abs_of_pos hpos, max_eq_left (by omega)]
  congr 1
  omega

end

/-! ## Below a value -/

section
variable {x : ℚ} {m e : ℤ}

theorem roundRat_mul_zpow (hlow : 2 ^ 52 < m) (hhigh : m ≤ 2 ^ 53) (he : -1074 ≤ e) :
    roundRat (m * 2 ^ e) = m * 2 ^ e :=
  roundRat_of_eq rfl (abs_le.mpr ⟨by omega, hhigh⟩) he

/-- What a number between a value and the one before it is rounded to. -/
theorem roundRat_of_mem (hlow : 2 ^ 52 < m) (hhigh : m ≤ 2 ^ 53) (he : -1074 ≤ e)
    (hmore : (m - 1) * 2 ^ e ≤ x) (hless : x < m * 2 ^ e) :
    roundRat x = roundHalfEven (x / 2 ^ e) * 2 ^ e ∧ ⌊x / 2 ^ e⌋ = m - 1 := by
  have hpow : (0 : ℚ) < 2 ^ e := zpow_pos two_pos e
  have hunit : unit x = 2 ^ e := by
    refine unit_of_mem he (le_trans ?_ hmore) (hless.trans_le ?_)
    · exact mul_le_mul_of_nonneg_right (by exact_mod_cast (by omega : 2 ^ 52 ≤ m - 1)) hpow.le
    · exact mul_le_mul_of_nonneg_right (by exact_mod_cast hhigh) hpow.le
  refine ⟨by rw [roundRat, hunit], Int.floor_eq_iff.mpr ⟨?_, ?_⟩⟩
  · rw [le_div_iff₀ hpow]
    exact_mod_cast hmore
  · rw [div_lt_iff₀ hpow]
    push_cast
    linarith

/-- A number nearer to the value before is rounded to that at most. -/
theorem roundRat_le_pred (hlow : 2 ^ 52 < m) (hhigh : m ≤ 2 ^ 53) (he : -1074 ≤ e) (hnonneg : 0 ≤ x)
    (h : x < (m - 1 / 2) * 2 ^ e ∨ x = (m - 1 / 2) * 2 ^ e ∧ m % 2 = 1) :
    roundRat x ≤ (m - 1) * 2 ^ e := by
  have hpow : (0 : ℚ) < 2 ^ e := zpow_pos two_pos e
  rcases le_or_gt x ((m - 1) * 2 ^ e) with hbefore | hmore
  · refine roundRat_le_of_le hnonneg hbefore ?_
    refine roundRat_of_eq (n := m - 1) (by push_cast; rfl) (abs_le.mpr ⟨?_, ?_⟩) he <;> omega
  · have hless : x < m * 2 ^ e := by
      rcases h with h | ⟨h, -⟩ <;> linarith
    obtain ⟨hround, hfloor⟩ := roundRat_of_mem hlow hhigh he hmore.le hless
    have hrest : x / 2 ^ e - ⌊x / 2 ^ e⌋ < 1 / 2 ∨
        x / 2 ^ e - ⌊x / 2 ^ e⌋ = 1 / 2 ∧ m % 2 = 1 := by
      rw [hfloor]
      push_cast
      refine h.imp (fun h => ?_) fun ⟨h, hodd⟩ => ⟨?_, hodd⟩
      · have := (div_lt_iff₀ hpow).mpr h
        linarith
      · have := (div_eq_iff hpow.ne').mpr h
        linarith
    have hdown : roundHalfEven (x / 2 ^ e) = m - 1 := by
      rw [roundHalfEven]
      rcases hrest with hrest | ⟨hrest, hodd⟩
      · rw [if_pos hrest, hfloor]
      · rw [if_neg hrest.not_lt, if_neg hrest.symm.not_lt, hfloor]
        omega
    rw [hround, hdown]
    push_cast
    rfl

/-- A number nearer to the value is rounded to it. -/
theorem roundRat_eq_of_half_lt (hlow : 2 ^ 52 < m) (hhigh : m ≤ 2 ^ 53) (he : -1074 ≤ e)
    (hle : x ≤ m * 2 ^ e)
    (h : (m - 1 / 2) * 2 ^ e < x ∨ x = (m - 1 / 2) * 2 ^ e ∧ m % 2 = 0) :
    roundRat x = m * 2 ^ e := by
  have hpow : (0 : ℚ) < 2 ^ e := zpow_pos two_pos e
  rcases hle.eq_or_lt with rfl | hless
  · exact roundRat_mul_zpow hlow hhigh he
  · have hmore : (m - 1) * 2 ^ e ≤ x := by
      rcases h with h | ⟨h, -⟩ <;> linarith
    obtain ⟨hround, hfloor⟩ := roundRat_of_mem hlow hhigh he hmore hless
    have hrest : 1 / 2 < x / 2 ^ e - ⌊x / 2 ^ e⌋ ∨
        x / 2 ^ e - ⌊x / 2 ^ e⌋ = 1 / 2 ∧ m % 2 = 0 := by
      rw [hfloor]
      push_cast
      refine h.imp (fun h => ?_) fun ⟨h, heven⟩ => ⟨?_, heven⟩
      · have := (lt_div_iff₀ hpow).mpr h
        linarith
      · have := (div_eq_iff hpow.ne').mpr h
        linarith
    have hup : roundHalfEven (x / 2 ^ e) = m := by
      rw [roundHalfEven]
      rcases hrest with hrest | ⟨hrest, heven⟩
      · rw [if_neg hrest.not_gt, if_pos hrest, hfloor]
        omega
      · rw [if_neg hrest.not_lt, if_neg hrest.symm.not_lt, hfloor]
        omega
    rw [hround, hup]

theorem le_roundRat_of_le (hlow : 2 ^ 52 < m) (he : -1074 ≤ e) (h : m * 2 ^ e ≤ x)
    (hbound : x ≤ 2 ^ 53 * 2 ^ e) : m * 2 ^ e ≤ roundRat x := by
  have hpow : (0 : ℚ) < 2 ^ e := zpow_pos two_pos e
  rcases hbound.eq_or_lt with rfl | hbound
  · have hvalue := roundRat_mul_zpow (m := 2 ^ 53) (by norm_num) le_rfl he
    rw [Int.cast_pow, Int.cast_ofNat] at hvalue
    rwa [hvalue]
  · have hmin : 2 ^ 52 * 2 ^ e ≤ x :=
      le_trans (mul_le_mul_of_nonneg_right (by exact_mod_cast hlow.le) hpow.le) h
    have hunit := unit_of_mem he hmin hbound
    rw [← hunit] at h ⊢
    exact le_roundRat h

/-- **Whether a number stays below a value that is even.** -/
theorem roundRat_lt_iff_of_even (hlow : 2 ^ 52 < m) (hhigh : m ≤ 2 ^ 53) (he : -1074 ≤ e)
    (heven : m % 2 = 0) (hnonneg : 0 ≤ x) (hbound : x ≤ 2 ^ 53 * 2 ^ e) :
    roundRat x < m * 2 ^ e ↔ x < (m - 1 / 2) * 2 ^ e := by
  have hpow : (0 : ℚ) < 2 ^ e := zpow_pos two_pos e
  refine ⟨fun hround => ?_, fun h => ?_⟩
  · have hle : x ≤ m * 2 ^ e :=
      le_of_not_ge fun hge => hround.not_ge (le_roundRat_of_le hlow he hge hbound)
    by_contra hnot
    exact hround.ne (roundRat_eq_of_half_lt hlow hhigh he hle
      ((not_lt.mp hnot).lt_or_eq.imp_right fun h => ⟨h.symm, heven⟩))
  · have hdown := roundRat_le_pred hlow hhigh he hnonneg (.inl h)
    linarith

/-- **Whether a number stays below a value that is odd.** -/
theorem roundRat_lt_iff_of_odd (hlow : 2 ^ 52 < m) (hhigh : m ≤ 2 ^ 53) (he : -1074 ≤ e)
    (hodd : m % 2 = 1) (hnonneg : 0 ≤ x) (hbound : x ≤ 2 ^ 53 * 2 ^ e) :
    roundRat x < m * 2 ^ e ↔ x ≤ (m - 1 / 2) * 2 ^ e := by
  have hpow : (0 : ℚ) < 2 ^ e := zpow_pos two_pos e
  refine ⟨fun hround => ?_, fun h => ?_⟩
  · have hle : x ≤ m * 2 ^ e :=
      le_of_not_ge fun hge => hround.not_ge (le_roundRat_of_le hlow he hge hbound)
    by_contra hnot
    exact hround.ne (roundRat_eq_of_half_lt hlow hhigh he hle (.inl (not_le.mp hnot)))
  · have hdown := roundRat_le_pred hlow hhigh he hnonneg
      (h.lt_or_eq.imp_right fun h => ⟨h, hodd⟩)
    linarith

end

/-! ## Whole numbers -/

section
variable {n : ℕ}

/-- A whole number as a multiple of the unit of the numbers just below it. -/
structure Mantissa (n : ℕ) (m : ℤ) : Prop where
  far : 2 ^ 52 + 2 ^ (52 - Nat.clog 2 n) ≤ m
  high : m ≤ 2 ^ 53
  even : m % 2 = 0
  eq : (n : ℚ) = m * 2 ^ ((Nat.clog 2 n : ℤ) - 53)

theorem Mantissa.low {m : ℤ} (h : Mantissa n m) : 2 ^ 52 < m :=
  (lt_add_of_pos_right _ (by positivity)).trans_le h.far

theorem mantissa_of_le (hpos : 0 < n) (hle : n ≤ 2 ^ 52) :
    Nat.clog 2 n ≤ 52 ∧ Mantissa n (n * 2 ^ (53 - Nat.clog 2 n)) := by
  have hclog : Nat.clog 2 n ≤ 52 := Nat.clog_le_of_le_pow hle
  have hsplit : 53 - Nat.clog 2 n + Nat.clog 2 n = 53 := by omega
  have hmul : (2 : ℤ) ^ (53 - Nat.clog 2 n) * 2 ^ Nat.clog 2 n = 2 ^ 53 := by
    rw [← pow_add, hsplit]
  refine ⟨hclog, ?_, ?_, ?_, ?_⟩
  · rcases (show n = 1 ∨ 1 < n by omega) with rfl | hmore
    · rw [Nat.clog_one_right]
      norm_num
    · have hpos : 0 < Nat.clog 2 n := Nat.clog_pos one_lt_two hmore
      have hself : (2 : ℤ) ^ (Nat.clog 2 n - 1) + 1 ≤ n := by
        exact_mod_cast Nat.pow_pred_clog_lt_self one_lt_two hmore
      have hpow : (2 : ℤ) ^ (52 - Nat.clog 2 n) ≤ 2 ^ (53 - Nat.clog 2 n) :=
        pow_le_pow_right₀ one_le_two (by omega)
      have hprod : (2 : ℤ) ^ (Nat.clog 2 n - 1) * 2 ^ (53 - Nat.clog 2 n) = 2 ^ 52 := by
        rw [← pow_add]
        congr 1
        omega
      have hmul := mul_le_mul_of_nonneg_right hself
        (by positivity : (0 : ℤ) ≤ 2 ^ (53 - Nat.clog 2 n))
      rw [add_mul, hprod, one_mul] at hmul
      linarith
  · have hself : (n : ℤ) ≤ 2 ^ Nat.clog 2 n := by exact_mod_cast Nat.le_pow_clog one_lt_two n
    calc (n : ℤ) * 2 ^ (53 - Nat.clog 2 n) ≤ 2 ^ Nat.clog 2 n * 2 ^ (53 - Nat.clog 2 n) :=
        mul_le_mul_of_nonneg_right hself (by positivity)
      _ = 2 ^ 53 := by rw [mul_comm, hmul]
  · obtain ⟨k, hk⟩ : ∃ k, 53 - Nat.clog 2 n = k + 1 := ⟨52 - Nat.clog 2 n, by omega⟩
    rw [hk, pow_succ, ← mul_assoc, Int.mul_emod_left]
  · push_cast
    rw [mul_assoc, ← zpow_natCast, ← zpow_add₀ two_ne_zero, Nat.cast_sub (by omega), Nat.cast_ofNat,
      sub_add_sub_cancel, sub_self, zpow_zero, mul_one]

theorem roundRat_natCast (hle : n ≤ 2 ^ 53) : roundRat n = n :=
  roundRat_of_eq (n := n) (e := 0) (by simp) (abs_le.mpr ⟨by omega, by exact_mod_cast hle⟩)
    (by norm_num)

/-- The quotient of two whole numbers is rounded up to the same one. -/
theorem ceil_roundRat_div {a b : ℕ} (ha : a < 2 ^ 53) (hb : 0 < b) (hb' : b ≤ 2 ^ 53) :
    ⌈roundRat (a / b)⌉ = ⌈(a / b : ℚ)⌉ := by
  have hpos : (0 : ℚ) < b := by exact_mod_cast hb
  have hnonneg : (0 : ℚ) ≤ a / b := by positivity
  have hceil : ⌈(a / b : ℚ)⌉ = (⌈(a / b : ℚ)⌉₊ : ℤ) := (Int.natCast_ceil_eq_ceil hnonneg).symm
  have hself : (a / b : ℚ) ≤ a := div_le_self (by positivity) (by exact_mod_cast hb)
  rw [Int.ceil_eq_iff]
  constructor
  · rcases Nat.eq_zero_or_pos a with rfl | ha'
    · rw [Nat.cast_zero, zero_div, roundRat_eq (n := 0) (by simp)]
      simp
    · have hmin : (2 : ℚ) ^ (-1022 : ℤ) ≤ a / b := by
        have hsmall : (2 : ℚ) ^ (-1022 : ℤ) ≤ 2 ^ (-53 : ℤ) :=
          zpow_le_zpow_right₀ one_le_two (by norm_num)
        refine hsmall.trans ?_
        rw [le_div_iff₀ hpos, zpow_neg, inv_mul_le_iff₀ (by positivity)]
        have hone : (1 : ℚ) ≤ a := by exact_mod_cast ha'
        have hmany : (b : ℚ) ≤ 2 ^ 53 := by exact_mod_cast hb'
        exact hmany.trans (le_mul_of_one_le_right (by positivity) hone)
      have herror := (abs_le.mp (abs_roundRat_sub_le_div hmin)).1
      have hgap : ((⌈(a / b : ℚ)⌉ : ℤ) - 1 : ℚ) * b + 1 ≤ a := by
        have hlt := Int.ceil_lt_add_one (a / b : ℚ)
        have hlt' : ((⌈(a / b : ℚ)⌉ - 1 : ℤ) : ℚ) * b < a := by
          rw [← lt_div_iff₀ hpos]
          push_cast
          linarith
        exact_mod_cast (by exact_mod_cast hlt' : (⌈(a / b : ℚ)⌉ - 1) * b < (a : ℤ))
      have hless : (a / b / 2 ^ 53 : ℚ) < 1 / b := by
        have ha : (a : ℚ) < 2 ^ 53 := by exact_mod_cast ha
        rw [div_right_comm]
        refine div_lt_div_of_pos_right ?_ hpos
        rw [div_lt_one (by positivity)]
        exact ha
      have hstep : ((⌈(a / b : ℚ)⌉ : ℤ) - 1 : ℚ) + 1 / b ≤ a / b := by
        rw [← sub_nonneg]
        have : (a / b : ℚ) - (((⌈(a / b : ℚ)⌉ : ℤ) - 1 : ℚ) + 1 / b) =
            (a - (((⌈(a / b : ℚ)⌉ : ℤ) - 1 : ℚ) * b + 1)) / b := by
          field_simp
        rw [this]
        exact div_nonneg (by linarith) hpos.le
      linarith
  · have hle : (⌈(a / b : ℚ)⌉₊ : ℕ) ≤ a := Nat.ceil_le.mpr hself
    have hround := roundRat_natCast (by omega : ⌈(a / b : ℚ)⌉₊ ≤ 2 ^ 53)
    rw [hceil]
    exact_mod_cast roundRat_le_of_le hnonneg (Nat.le_ceil _) hround

end

/-! ## A part of a whole number after another one -/

/-- A number below one is so far from it that its product with `width`, added to what is left
of `top`, is not rounded up to `top`. -/
def StaysBelow (x : ℚ) (width top : ℕ) : Prop :=
  let scale : ℚ := 2 ^ Nat.clog 2 width
  let topScale : ℚ := 2 ^ Nat.clog 2 top
  let gap := (1 - x) * width * 2 ^ 54
  if scale = topScale then topScale < gap
  else if 2 * scale = topScale then scale + topScale ≤ gap
  else scale + topScale < gap

section
variable {x : ℚ} {width low top : ℕ}

theorem roundRat_mul_nonneg (hx : 0 ≤ x) (hx' : x < 1) (hle : width ≤ 2 ^ 52) :
    0 ≤ roundRat (x * width) := by
  have hprod : x * width ≤ width := mul_le_of_le_one_left (by positivity) hx'.le
  have hwidth : (width : ℚ) ≤ 2 ^ 52 := by exact_mod_cast hle
  have hnonneg : 0 ≤ x * width := by positivity
  have hround := intCast_le_roundRat (n := 0) (x := x * width)
    (by rw [abs_of_nonneg hnonneg]; linarith) (by exact_mod_cast hnonneg)
  exact_mod_cast hround

theorem roundRat_mul_le (hx : 0 ≤ x) (hx' : x < 1) (hle : width ≤ 2 ^ 52) :
    roundRat (x * width) ≤ width :=
  roundRat_le_of_le (by positivity) (mul_le_of_le_one_left (by positivity) hx'.le)
    (roundRat_natCast (hle.trans (by norm_num)))

/-- Half of a unit below a whole number there is no value. -/
theorem Mantissa.roundRat_lt_iff {n : ℕ} {m : ℤ} (h : Mantissa n m) (hnonneg : 0 ≤ x)
    (hbound : x ≤ 2 ^ 53 * 2 ^ ((Nat.clog 2 n : ℤ) - 53)) :
    roundRat x < n - 2 ^ ((Nat.clog 2 n : ℤ) - 53) / 2 ↔
      x < n - 2 ^ ((Nat.clog 2 n : ℤ) - 53) / 2 := by
  have hpos : (0 : ℚ) < 2 ^ ((Nat.clog 2 n : ℤ) - 53) := zpow_pos two_pos _
  have hhalf : (n : ℚ) - 2 ^ ((Nat.clog 2 n : ℤ) - 53) / 2 =
      (m - 1 / 2) * 2 ^ ((Nat.clog 2 n : ℤ) - 53) := by
    rw [sub_mul, ← h.eq]
    ring
  rw [hhalf]
  constructor
  · intro hround
    refine (roundRat_lt_iff_of_even h.low h.high (by omega) h.even hnonneg hbound).mp ?_
    linarith
  · intro hless
    have hdown := roundRat_le_pred h.low h.high (by omega) hnonneg (.inl hless)
    linarith

/-- An even or odd number of units below it there is one. -/
theorem Mantissa.roundRat_lt_sub_iff {n : ℕ} {m k : ℤ} (h : Mantissa n m) (hk : 0 ≤ k)
    (hlow : 2 ^ 52 < m - k) (hnonneg : 0 ≤ x)
    (hbound : x ≤ 2 ^ 53 * 2 ^ ((Nat.clog 2 n : ℤ) - 53)) :
    roundRat x < n - k * 2 ^ ((Nat.clog 2 n : ℤ) - 53) ↔
      if k % 2 = 0 then x < n - (k + 1 / 2) * 2 ^ ((Nat.clog 2 n : ℤ) - 53)
      else x ≤ n - (k + 1 / 2) * 2 ^ ((Nat.clog 2 n : ℤ) - 53) := by
  have hhigh := h.high
  have heven := h.even
  have hvalue : (n : ℚ) - k * 2 ^ ((Nat.clog 2 n : ℤ) - 53) =
      (m - k : ℤ) * 2 ^ ((Nat.clog 2 n : ℤ) - 53) := by
    rw [Int.cast_sub, sub_mul, ← h.eq]
  have hhalf : (n : ℚ) - (k + 1 / 2) * 2 ^ ((Nat.clog 2 n : ℤ) - 53) =
      ((m - k : ℤ) - 1 / 2) * 2 ^ ((Nat.clog 2 n : ℤ) - 53) := by
    rw [Int.cast_sub, sub_mul, sub_mul, ← h.eq]
    ring
  rw [hvalue, hhalf]
  split
  · exact roundRat_lt_iff_of_even hlow (by omega) (by omega) (by omega) hnonneg hbound
  · exact roundRat_lt_iff_of_odd hlow (by omega) (by omega) (by omega) hnonneg hbound

/-- How far the rounded product has to stay below `width`. -/
theorem roundRat_add_lt_iff (hx : 0 ≤ x) (hx' : x < 1) (htop : low + width = top)
    (hwidth : 0 < width) (hle : top ≤ 2 ^ 52) :
    roundRat (roundRat (x * width) + low) < top ↔
      roundRat (x * width) < width - 2 ^ ((Nat.clog 2 top : ℤ) - 53) / 2 := by
  obtain ⟨hclog, hmantissa⟩ := mantissa_of_le (by omega : 0 < top) hle
  have hnonneg := roundRat_mul_nonneg hx hx' (by omega : width ≤ 2 ^ 52)
  have hbelow := roundRat_mul_le hx hx' (by omega : width ≤ 2 ^ 52)
  have hsum : (low : ℚ) + width = top := by exact_mod_cast htop
  have hbound : roundRat (x * width) + low ≤ 2 ^ 53 * 2 ^ ((Nat.clog 2 top : ℤ) - 53) := by
    have hhigh := mul_le_mul_of_nonneg_right (Int.cast_le (R := ℚ).mpr hmantissa.high)
      (zpow_pos two_pos ((Nat.clog 2 top : ℤ) - 53)).le
    rw [← hmantissa.eq] at hhigh
    push_cast at hhigh
    linarith
  have hlt := roundRat_lt_iff_of_even hmantissa.low hmantissa.high (by omega) hmantissa.even
    (by positivity) hbound
  rw [sub_mul, ← hmantissa.eq] at hlt
  rw [hlt]
  constructor <;> intro h <;> linarith

/-- **Whether a part of a whole number after another one stays below their sum.** -/
theorem roundRat_mul_add_lt_iff (hx : 0 ≤ x) (hx' : x < 1) (htop : low + width = top)
    (hwidth : 0 < width) (hle : top ≤ 2 ^ 52) :
    roundRat (roundRat (x * width) + low) < top ↔ StaysBelow x width top := by
  rw [roundRat_add_lt_iff hx hx' htop hwidth hle]
  have hnonneg : 0 ≤ x * width := by positivity
  obtain ⟨hclog, hmantissa⟩ := mantissa_of_le hwidth (by omega : width ≤ 2 ^ 52)
  have hclogTop : Nat.clog 2 top ≤ 52 := Nat.clog_le_of_le_pow hle
  have hmono : Nat.clog 2 width ≤ Nat.clog 2 top := Nat.clog_mono_right 2 (by omega)
  have hunit : ∀ c : ℕ, (2 : ℚ) ^ ((c : ℤ) - 53) * 2 ^ 53 = 2 ^ c := by
    intro c
    rw [← zpow_natCast, ← zpow_natCast, ← zpow_add₀ two_ne_zero]
    congr 1
    push_cast
    omega
  have hv := hunit (Nat.clog 2 width)
  have hu := hunit (Nat.clog 2 top)
  have hpos : (0 : ℚ) < 2 ^ ((Nat.clog 2 width : ℤ) - 53) := zpow_pos two_pos _
  have hbound : x * width ≤ 2 ^ 53 * 2 ^ ((Nat.clog 2 width : ℤ) - 53) := by
    have hhigh := mul_le_mul_of_nonneg_right (Int.cast_le (R := ℚ).mpr hmantissa.high) hpos.le
    rw [← hmantissa.eq] at hhigh
    push_cast at hhigh
    exact (mul_le_of_le_one_left (by positivity) hx'.le).trans hhigh
  unfold StaysBelow
  dsimp only
  rcases hmono.eq_or_lt with hsame | hless
  · -- the sum and the product have the same unit
    rw [if_pos (by rw [hsame]), ← hsame, hmantissa.roundRat_lt_iff hnonneg hbound]
    constructor <;> intro h <;> linarith
  · obtain ⟨d, hd⟩ : ∃ d, Nat.clog 2 top = Nat.clog 2 width + d + 1 :=
      ⟨Nat.clog 2 top - Nat.clog 2 width - 1, by omega⟩
    have hlow : (2 : ℤ) ^ 52 < width * 2 ^ (53 - Nat.clog 2 width) - 2 ^ d := by
      have hfar := hmantissa.far
      have hpow : (2 : ℤ) ^ d < 2 ^ (52 - Nat.clog 2 width) :=
        pow_lt_pow_right₀ one_lt_two (by omega)
      linarith
    have hsub := hmantissa.roundRat_lt_sub_iff (by positivity) hlow hnonneg hbound
    have hscale : (2 : ℚ) ^ Nat.clog 2 top =
        2 * (2 ^ d * (2 ^ ((Nat.clog 2 width : ℤ) - 53) * 2 ^ 53)) := by
      rw [hd, pow_succ, pow_add, hv]
      ring
    have hhalf : (2 : ℚ) ^ ((Nat.clog 2 top : ℤ) - 53) / 2 =
        (2 ^ d : ℤ) * 2 ^ ((Nat.clog 2 width : ℤ) - 53) := by
      push_cast
      linarith
    rw [hhalf, hsub, hscale, ← hv]
    generalize (2 : ℚ) ^ ((Nat.clog 2 width : ℤ) - 53) = v at hpos
    push_cast
    cases d with
    | zero =>
      rw [if_neg (by norm_num), if_neg (by linarith), if_pos (by ring)]
      constructor <;> intro h <;> linarith
    | succ d =>
      have hmore : (1 : ℚ) ≤ 2 ^ d := one_le_pow₀ one_le_two
      have hprod := mul_le_mul_of_nonneg_right hmore hpos.le
      rw [if_pos (by rw [pow_succ, Int.mul_emod_left]), pow_succ, if_neg (by linarith),
        if_neg (by linarith)]
      constructor <;> intro h <;> linarith

end

end Ez4.Library.Binary64

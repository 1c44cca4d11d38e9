import Mathlib.Data.Int.Log
import Mathlib.Data.Rat.Floor
import Mathlib.Algebra.Order.Field.Power
import Mathlib.Tactic.Linarith
import Mathlib.Tactic.Positivity
import Mathlib.Tactic.Ring
import Mathlib.Tactic.NormNum

/-! # Numbers of 64 bits

The values of binary64 with the operations of IEEE 754, each rounded to the
nearest value and, of two, to the even one. There is a single zero, which has
the sign plus where a number is divided by it. -/
namespace Ez4.Library

/-! ## Rounding to an integer -/

/-- The nearest integer, the even one of two. -/
def roundHalfEven (x : ℚ) : ℤ :=
  if x - ⌊x⌋ < 1 / 2 then ⌊x⌋
  else if 1 / 2 < x - ⌊x⌋ then ⌊x⌋ + 1
  else ⌊x⌋ + ⌊x⌋ % 2

section
variable {x : ℚ} {n : ℤ}

theorem floor_le_roundHalfEven : ⌊x⌋ ≤ roundHalfEven x := by
  rw [roundHalfEven]
  split_ifs <;> omega

theorem roundHalfEven_le_floor_add_one : roundHalfEven x ≤ ⌊x⌋ + 1 := by
  rw [roundHalfEven]
  split_ifs <;> omega

@[simp] theorem roundHalfEven_intCast : roundHalfEven (n : ℚ) = n := by
  rw [roundHalfEven, Int.floor_intCast, sub_self, if_pos (by norm_num)]

theorem le_roundHalfEven (h : (n : ℚ) ≤ x) : n ≤ roundHalfEven x :=
  (Int.le_floor.mpr h).trans floor_le_roundHalfEven

theorem roundHalfEven_le (h : x ≤ n) : roundHalfEven x ≤ n := by
  rcases h.eq_or_lt with rfl | hlt
  · exact roundHalfEven_intCast.le
  · exact roundHalfEven_le_floor_add_one.trans (Int.floor_lt.mpr hlt)

theorem abs_roundHalfEven_sub_le : |(roundHalfEven x : ℚ) - x| ≤ 1 / 2 := by
  have hlow := Int.floor_le x
  have hhigh := Int.lt_floor_add_one x
  rw [roundHalfEven, abs_le]
  split_ifs with hdown hup
  · constructor <;> linarith
  · push_cast
    constructor <;> linarith
  · have hmid : x - ⌊x⌋ = 1 / 2 := le_antisymm (not_lt.mp hup) (not_lt.mp hdown)
    rcases Int.emod_two_eq_zero_or_one ⌊x⌋ with hmod | hmod <;> rw [hmod] <;> push_cast <;>
      constructor <;> linarith

end

/-! ## Rounding to a value -/

inductive Binary64
  | nan
  | infinity (negative : Bool)
  | finite (value : ℚ)
deriving DecidableEq

namespace Binary64

/-- How far apart the values around a number are. -/
def unit (x : ℚ) : ℚ := 2 ^ max (Int.log 2 |x| - 52) (-1074)

def roundRat (x : ℚ) : ℚ := roundHalfEven (x / unit x) * unit x

def ofRat (x : ℚ) : Binary64 :=
  if |roundRat x| < 2 ^ 1024 then finite (roundRat x) else infinity (decide (x < 0))

section
variable {x : ℚ} {n e : ℤ}

theorem unit_pos : 0 < unit x := zpow_pos two_pos _

theorem le_roundRat (h : n * unit x ≤ x) : n * unit x ≤ roundRat x :=
  mul_le_mul_of_nonneg_right
    (Int.cast_le.mpr (le_roundHalfEven ((le_div_iff₀ unit_pos).mpr h))) unit_pos.le

theorem roundRat_le (h : x ≤ n * unit x) : roundRat x ≤ n * unit x :=
  mul_le_mul_of_nonneg_right
    (Int.cast_le.mpr (roundHalfEven_le ((div_le_iff₀ unit_pos).mpr h))) unit_pos.le

theorem roundRat_eq (h : x = n * unit x) : roundRat x = x :=
  le_antisymm ((roundRat_le h.le).trans h.ge) (h.le.trans (le_roundRat h.ge))

theorem abs_roundRat_sub_le : |roundRat x - x| ≤ unit x / 2 := by
  have hdiv : roundRat x - x = (roundHalfEven (x / unit x) - x / unit x) * unit x := by
    rw [roundRat, sub_mul, div_mul_cancel₀ _ unit_pos.ne']
  have hle := mul_le_mul_of_nonneg_right (abs_roundHalfEven_sub_le (x := x / unit x))
    (unit_pos (x := x)).le
  rw [hdiv, abs_mul, abs_of_pos unit_pos]
  linarith

/-- A power of two is a multiple of a smaller one. -/
theorem exists_mul_zpow {a b : ℤ} (h : a ≤ b) : ∃ n : ℤ, (2 : ℚ) ^ b = n * 2 ^ a := by
  refine ⟨2 ^ (b - a).toNat, ?_⟩
  rw [Int.cast_pow, Int.cast_ofNat, ← zpow_natCast, Int.toNat_of_nonneg (sub_nonneg.mpr h),
    ← zpow_add₀ two_ne_zero, sub_add_cancel]

/-- An integer of at most 53 bits times a power of two is a value. -/
theorem roundRat_of_eq (h : x = n * 2 ^ e) (hn : |n| ≤ 2 ^ 53) (he : -1074 ≤ e) :
    roundRat x = x := by
  have hpow : (0 : ℚ) < 2 ^ e := zpow_pos two_pos e
  have habs : |x| = |n| * 2 ^ e := by
    rw [h, abs_mul, abs_of_pos hpow, Int.cast_abs]
  rcases eq_or_ne n 0 with rfl | hzero
  · exact roundRat_eq (n := 0) (by rw [h, Int.cast_zero, zero_mul, zero_mul])
  rcases hn.eq_or_lt with hn | hn
  · have hlog : |x| = ((2 : ℕ) : ℚ) ^ (53 + e) := by
      rw [habs, hn, zpow_add₀ (by norm_num)]
      norm_num
    have hunit : unit x = 2 * 2 ^ e := by
      rw [unit, hlog, Int.log_zpow one_lt_two, max_eq_left (by omega), ← zpow_one_add₀ two_ne_zero]
      congr 1
      ring
    obtain ⟨k, hk⟩ : (2 : ℤ) ∣ n := by
      rw [← dvd_abs, hn]
      exact ⟨2 ^ 52, by norm_num⟩
    refine roundRat_eq (n := k) ?_
    rw [hunit, h, hk, Int.cast_mul, Int.cast_ofNat]
    ring
  · have hlog : max (Int.log 2 |x| - 52) (-1074) ≤ e := by
      have hpos : 0 < |x| := habs ▸ mul_pos (Int.cast_pos.mpr (abs_pos.mpr hzero)) hpow
      have hlt : |x| < ((2 : ℕ) : ℚ) ^ (53 + e) := by
        rw [habs, zpow_add₀ (by norm_num)]
        refine mul_lt_mul_of_pos_right ?_ hpow
        exact_mod_cast hn
      have := (Int.lt_zpow_iff_log_lt one_lt_two hpos).mp hlt
      exact max_le (by omega) he
    obtain ⟨k, hk⟩ := exists_mul_zpow hlog
    refine roundRat_eq (n := n * k) ?_
    rw [unit, Int.cast_mul, mul_assoc, ← hk]
    exact h

theorem unit_eq (h : (2 : ℚ) ^ (-1022 : ℤ) ≤ x) :
    unit x * 2 ^ 52 = ((2 : ℕ) : ℚ) ^ Int.log 2 x := by
  have hpos : 0 < x := (zpow_pos two_pos _).trans_le h
  have hlog : -1022 ≤ Int.log 2 x := (Int.zpow_le_iff_le_log one_lt_two hpos).mp (by exact_mod_cast h)
  rw [unit, abs_of_pos hpos, max_eq_left (by omega), ← zpow_natCast, ← zpow_add₀ two_ne_zero]
  norm_num

/-- Rounding does not cross a power of two. -/
theorem zpow_le_roundRat (he : -1022 ≤ e) (h : (2 : ℚ) ^ e ≤ x) : (2 : ℚ) ^ e ≤ roundRat x := by
  have hpos : 0 < x := (zpow_pos two_pos _).trans_le h
  have hlog : e ≤ Int.log 2 x := (Int.zpow_le_iff_le_log one_lt_two hpos).mp (by exact_mod_cast h)
  have hmin : (2 : ℚ) ^ (-1022 : ℤ) ≤ x := (zpow_le_zpow_right₀ one_le_two he).trans h
  have hunit : ((2 ^ 52 : ℤ) : ℚ) * unit x = ((2 : ℕ) : ℚ) ^ Int.log 2 x := by
    rw [← unit_eq hmin, mul_comm]
    norm_num
  calc (2 : ℚ) ^ e ≤ 2 ^ Int.log 2 x := zpow_le_zpow_right₀ one_le_two hlog
    _ = ((2 ^ 52 : ℤ) : ℚ) * unit x := by rw [hunit]; norm_num
    _ ≤ roundRat x := le_roundRat (hunit.trans_le (Int.zpow_log_le_self one_lt_two hpos))

theorem roundRat_le_zpow (he : -1074 ≤ e) (hpos : 0 < x) (h : x ≤ (2 : ℚ) ^ e) :
    roundRat x ≤ 2 ^ e := by
  have hlog : max (Int.log 2 |x| - 52) (-1074) ≤ e := by
    refine max_le ?_ he
    have := Int.log_mono_right (b := 2) hpos h
    rw [abs_of_pos hpos]
    rw [show (2 : ℚ) ^ e = ((2 : ℕ) : ℚ) ^ e by norm_num, Int.log_zpow one_lt_two] at this
    omega
  obtain ⟨n, hn⟩ := exists_mul_zpow hlog
  rw [hn]
  exact roundRat_le (h.trans_eq hn)

theorem abs_roundRat_sub_le_div (h : (2 : ℚ) ^ (-1022 : ℤ) ≤ x) :
    |roundRat x - x| ≤ x / 2 ^ 53 := by
  have hpos : 0 < x := (zpow_pos two_pos _).trans_le h
  have hle : unit x * 2 ^ 52 ≤ x := (unit_eq h).trans_le (Int.zpow_log_le_self one_lt_two hpos)
  refine abs_roundRat_sub_le.trans ?_
  rw [div_le_div_iff₀ two_pos (by positivity)]
  linarith

/-- Integers are values up to the number. -/
theorem intCast_le_roundRat (hlt : |x| < 2 ^ 53) (h : n ≤ x) : n ≤ roundRat x := by
  obtain ⟨k, hk⟩ := exists_mul_zpow (b := 0) (a := max (Int.log 2 |x| - 52) (-1074)) <| by
    refine max_le ?_ (by norm_num)
    rcases (abs_nonneg x).eq_or_lt with hzero | hpos
    · rw [← hzero, Int.log_zero_right]
      norm_num
    · have hpow : |x| < ((2 : ℕ) : ℚ) ^ (53 : ℤ) := by exact_mod_cast hlt
      have := (Int.lt_zpow_iff_log_lt one_lt_two hpos).mp hpow
      omega
  have hmul : (n : ℚ) = (n * k : ℤ) * unit x := by
    rw [unit, Int.cast_mul, mul_assoc, ← hk, zpow_zero, mul_one]
  rw [hmul] at h ⊢
  exact le_roundRat h

theorem roundRat_le_half (hnonneg : 0 ≤ x) (h : x ≤ 1 / 2) : roundRat x ≤ 1 / 2 := by
  rcases hnonneg.eq_or_lt with rfl | hpos
  · rw [roundRat_eq (n := 0) (by rw [Int.cast_zero, zero_mul])]
    norm_num
  · have := roundRat_le_zpow (e := -1) (by norm_num) hpos (by rwa [zpow_neg_one, ← one_div])
    rwa [zpow_neg_one, ← one_div] at this

/-- The quotient of two integers is rounded to the same whole number. -/
theorem floor_roundRat_div {a b g : ℤ} (ha : 0 ≤ a) (hb : 2 ≤ b) (hga : g ∣ a) (hgb : g ∣ b)
    (hlt : a < g * 2 ^ 53) : ⌊roundRat (a / b)⌋ = a / b := by
  have hpos : (0 : ℚ) < b := by exact_mod_cast (by omega : 0 < b)
  have hnonneg : (0 : ℚ) ≤ a / b := div_nonneg (by exact_mod_cast ha) hpos.le
  have hcount : 0 ≤ a / b := Int.ediv_nonneg ha (by omega)
  have hgap : a + g ≤ (a / b + 1) * b := by
    have hdvd : g ∣ (a / b + 1) * b - a := dvd_sub (hgb.mul_left _) hga
    have hlast := Int.lt_ediv_add_one_mul_self a (by omega : 0 < b)
    have := Int.le_of_dvd (by omega) hdvd
    omega
  have hlow : ((a / b : ℤ) : ℚ) ≤ a / b := by
    rw [le_div_iff₀ hpos]
    exact_mod_cast Int.ediv_mul_le a (by omega : b ≠ 0)
  have hbound : |(a / b : ℚ)| < 2 ^ 53 := by
    rw [abs_of_nonneg hnonneg, div_lt_iff₀ hpos]
    have := Int.le_of_dvd (by omega) hgb
    exact_mod_cast (by omega : a < 2 ^ 53 * b)
  have hhigh : roundRat (a / b) < (a / b : ℤ) + 1 := by
    by_cases hhalf : (a / b : ℚ) ≤ 1 / 2
    · have hle := roundRat_le_half hnonneg hhalf
      have : (0 : ℚ) ≤ (a / b : ℤ) := by exact_mod_cast hcount
      linarith
    · have hmin : (2 : ℚ) ^ (-1022 : ℤ) ≤ a / b := by
        refine (zpow_le_zpow_right₀ one_le_two (by norm_num : (-1022 : ℤ) ≤ -1)).trans ?_
        rw [zpow_neg_one, ← one_div]
        exact (not_le.mp hhalf).le
      have herror := (abs_le.mp (abs_roundRat_sub_le_div hmin)).2
      have hsum : (a / b : ℚ) + a / b / 2 ^ 53 < (a / b : ℤ) + 1 := by
        have hgap' : (a : ℚ) + g ≤ ((a / b : ℤ) + 1) * b := by exact_mod_cast hgap
        have hlt' : (a : ℚ) / 2 ^ 53 < g := by
          rw [div_lt_iff₀ (by positivity)]
          exact_mod_cast hlt
        rw [div_right_comm, ← add_div, div_lt_iff₀ hpos]
        linarith
      linarith
  exact Int.floor_eq_iff.mpr ⟨intCast_le_roundRat hbound hlow, hhigh⟩

/-- Of the integers of 54 bits the even ones are values. -/
theorem roundRat_intCast_of_le (hlow : 2 ^ 53 ≤ n) (hhigh : n < 2 ^ 54) :
    roundRat n = (if n % 4 = 3 then n + 1 else n - n % 2 : ℤ) := by
  have hpos : (0 : ℚ) < n := by exact_mod_cast (by omega : 0 < n)
  have hlog : Int.log 2 (n : ℚ) = 53 := by
    have hge := (Int.zpow_le_iff_le_log (b := 2) (x := 53) one_lt_two hpos).mp
      (by exact_mod_cast hlow)
    have hlt := (Int.lt_zpow_iff_log_lt (b := 2) (x := 54) one_lt_two hpos).mp
      (by exact_mod_cast hhigh)
    omega
  have hunit : unit n = 2 := by
    rw [unit, abs_of_pos hpos, hlog]
    norm_num
  rcases Int.emod_two_eq_zero_or_one n with hmod | hmod
  · rw [if_neg (by omega), hmod, sub_zero]
    exact roundRat_eq (n := n / 2) (by rw [hunit]; exact_mod_cast (by omega : n = n / 2 * 2))
  · have hfloor : ⌊(n / 2 : ℚ)⌋ = n / 2 := by
      exact_mod_cast Rat.floor_intCast_div_natCast n 2
    have hrest : (n / 2 : ℚ) - ((n / 2 : ℤ) : ℚ) = 1 / 2 := by
      have : (n : ℚ) = 2 * (n / 2 : ℤ) + 1 := by exact_mod_cast (by omega : n = 2 * (n / 2) + 1)
      linarith
    rw [roundRat, hunit, roundHalfEven, hfloor, hrest, if_neg (lt_irrefl _), if_neg (lt_irrefl _)]
    split
    · exact_mod_cast (by omega : (n / 2 + n / 2 % 2) * 2 = n + 1)
    · exact_mod_cast (by omega : (n / 2 + n / 2 % 2) * 2 = n - n % 2)

theorem ofRat_of_eq (h : x = n * 2 ^ e) (hn : |n| ≤ 2 ^ 53) (he : -1074 ≤ e) (hlt : |x| < 2 ^ 1024) :
    ofRat x = finite x := by
  rw [ofRat, roundRat_of_eq h hn he, if_pos hlt]

theorem ofRat_intCast (hn : |n| ≤ 2 ^ 53) : ofRat n = finite n := by
  refine ofRat_of_eq (e := 0) (by rw [zpow_zero, mul_one]) hn (by norm_num) ?_
  calc |(n : ℚ)| ≤ 2 ^ 53 := by exact_mod_cast hn
    _ < 2 ^ 1024 := pow_lt_pow_right₀ one_lt_two (by norm_num)

theorem ofRat_intCast_of_le (hlow : 2 ^ 53 ≤ n) (hhigh : n < 2 ^ 54) :
    ofRat n = finite (if n % 4 = 3 then n + 1 else n - n % 2 : ℤ) := by
  rw [ofRat, roundRat_intCast_of_le hlow hhigh, if_pos]
  have hle : |if n % 4 = 3 then n + 1 else n - n % 2| ≤ (2 : ℤ) ^ 54 := by
    rw [abs_le]
    split <;> omega
  calc |((if n % 4 = 3 then n + 1 else n - n % 2 : ℤ) : ℚ)| ≤ 2 ^ 54 := by exact_mod_cast hle
    _ < 2 ^ 1024 := pow_lt_pow_right₀ one_lt_two (by norm_num)

/-- A value is at least the bound, or infinite. -/
def AtLeast (bound : ℚ) : Binary64 → Prop
  | nan => False
  | infinity negative => negative = false
  | finite value => bound ≤ value

theorem ofRat_atLeast {k : ℕ} (h : (2 : ℚ) ^ k ≤ x) : AtLeast (2 ^ k) (ofRat x) := by
  rw [← zpow_natCast] at h ⊢
  rw [ofRat]
  split
  · exact zpow_le_roundRat (by omega) h
  · exact decide_eq_false (not_lt.mpr ((zpow_pos two_pos _).le.trans h))

end

/-! ## Operations -/

def neg : Binary64 → Binary64
  | nan => nan
  | infinity negative => infinity !negative
  | finite a => finite (-a)

def add : Binary64 → Binary64 → Binary64
  | finite a, finite b => ofRat (a + b)
  | infinity s, infinity t => if s = t then infinity s else nan
  | infinity s, finite _ | finite _, infinity s => infinity s
  | nan, _ | _, nan => nan

def sub (a b : Binary64) : Binary64 := add a (neg b)

def mul : Binary64 → Binary64 → Binary64
  | finite a, finite b => ofRat (a * b)
  | infinity s, infinity t => infinity (s != t)
  | infinity s, finite a | finite a, infinity s =>
    if a = 0 then nan else infinity (s != decide (a < 0))
  | nan, _ | _, nan => nan

def div : Binary64 → Binary64 → Binary64
  | finite a, finite b =>
    if b ≠ 0 then ofRat (a / b) else if a = 0 then nan else infinity (decide (a < 0))
  | infinity s, finite b => infinity (s != decide (b < 0))
  | finite _, infinity _ => finite 0
  | infinity _, infinity _ => nan
  | nan, _ | _, nan => nan

def floor : Binary64 → Binary64
  | finite a => finite ⌊a⌋
  | a => a

def ceil : Binary64 → Binary64
  | finite a => finite ⌈a⌉
  | a => a

/-- The fraction is cut off. -/
def trunc : Binary64 → Binary64
  | finite a => finite (Int.tdiv a.num a.den)
  | a => a

def le : Binary64 → Binary64 → Bool
  | finite a, finite b => decide (a ≤ b)
  | infinity s, infinity t => s || !t
  | infinity s, finite _ => s
  | finite _, infinity t => !t
  | nan, _ | _, nan => false

end Binary64

end Ez4.Library

import Mathlib.Algebra.Order.Field.Basic
import Mathlib.Algebra.Order.Floor.Ring
import Mathlib.Data.Int.Log
import Mathlib.Data.Rat.Floor
import Mathlib.Tactic.FieldSimp
import Mathlib.Tactic.Linarith
import Mathlib.Tactic.Positivity

/-! Rounding to the nearest integer, to the even one of two that are equally near, and with it the rounding of
a rational to a floating-point number with a given number of bits. -/

namespace Rounding

/-! ### The nearest integer -/

section RoundEven

variable {K : Type*} [Field K] [LinearOrder K] [IsStrictOrderedRing K] [FloorRing K]

def roundEven (x : K) : ℤ :=
  if x - ⌊x⌋ < 1 / 2 ∨ x - ⌊x⌋ = 1 / 2 ∧ Even ⌊x⌋ then ⌊x⌋ else ⌊x⌋ + 1

theorem roundEven_cases (x : K) : (roundEven x = ⌊x⌋ ∧ x ≤ ⌊x⌋ + 1 / 2) ∨
    (roundEven x = ⌊x⌋ + 1 ∧ ⌊x⌋ + 1 / 2 ≤ x) := by
  unfold roundEven
  split
  · rename_i h
    rcases h with hlt | ⟨heq, -⟩
    · exact .inl ⟨rfl, by linarith⟩
    · exact .inl ⟨rfl, by linarith⟩
  · rename_i h
    exact .inr ⟨rfl, by linarith [not_lt.mp fun hlt => h (.inl hlt)]⟩

/-- Rounding moves a number by a half at most. -/
theorem abs_roundEven_sub_le (x : K) : |(roundEven x : K) - x| ≤ 1 / 2 := by
  have hlow := Int.floor_le x
  have hhigh := Int.lt_floor_add_one x
  rw [abs_le]
  rcases roundEven_cases x with ⟨heq, hx⟩ | ⟨heq, hx⟩
  · rw [heq]
    constructor <;> linarith
  · rw [heq, Int.cast_add, Int.cast_one]
    constructor <;> linarith

theorem roundEven_intCast (n : ℤ) : roundEven (n : K) = n := by
  rw [roundEven, Int.floor_intCast, sub_self, if_pos (.inl (by norm_num))]

theorem roundEven_eq {x : K} {n : ℤ} (h : |x - n| < 1 / 2) : roundEven x = n := by
  obtain ⟨hlow, hhigh⟩ := abs_lt.mp h
  rcases roundEven_cases x with ⟨heq, hx⟩ | ⟨heq, hx⟩
  · have hlt : (⌊x⌋ : K) < n + 1 := by linarith [Int.floor_le x]
    have hgt : (n : K) < ⌊x⌋ + 1 := by linarith
    have h₁ : ⌊x⌋ < n + 1 := by exact_mod_cast hlt
    have h₂ : n < ⌊x⌋ + 1 := by exact_mod_cast hgt
    omega
  · have hlt : (⌊x⌋ : K) < n := by linarith
    have hgt : (n : K) < ⌊x⌋ + 1 + 1 := by linarith [Int.lt_floor_add_one x]
    have h₁ : ⌊x⌋ < n := by exact_mod_cast hlt
    have h₂ : n < ⌊x⌋ + 1 + 1 := by exact_mod_cast hgt
    omega

/-- Of two integers that are equally near, the even one is taken. -/
theorem roundEven_add_half (n : ℤ) : roundEven ((n : K) + 1 / 2) = if Even n then n else n + 1 := by
  have hfloor : ⌊(n : K) + 1 / 2⌋ = n := by
    rw [Int.floor_eq_iff]
    constructor <;> linarith
  have hrest : (n : K) + 1 / 2 - n = 1 / 2 := add_sub_cancel_left _ _
  rw [roundEven, hfloor, hrest]
  by_cases heven : Even n
  · rw [if_pos (.inr ⟨rfl, heven⟩), if_pos heven]
  · rw [if_neg (by rintro (hlt | ⟨-, h⟩); exacts [hlt.false, heven h]), if_neg heven]

theorem roundEven_mono {x y : K} (h : x ≤ y) : roundEven x ≤ roundEven y := by
  have hfloor := Int.floor_mono h
  have hx : roundEven x ≤ ⌊x⌋ + 1 := by
    rcases roundEven_cases x with ⟨heq, -⟩ | ⟨heq, -⟩ <;> omega
  have hy : ⌊y⌋ ≤ roundEven y := by
    rcases roundEven_cases y with ⟨heq, -⟩ | ⟨heq, -⟩ <;> omega
  by_cases hlt : ⌊x⌋ < ⌊y⌋
  · omega
  · have hsame : ⌊x⌋ = ⌊y⌋ := by omega
    unfold roundEven
    rw [hsame]
    split
    · split <;> omega
    · rename_i hup
      rw [if_neg]
      rintro (hlow | ⟨htie, heven⟩)
      · exact hup (.inl (by linarith))
      · rcases lt_or_eq_of_le (show x - ⌊y⌋ ≤ 1 / 2 by linarith) with hlow | heq
        · exact hup (.inl hlow)
        · exact hup (.inr ⟨heq, heven⟩)

theorem roundEven_le {x : K} {n : ℤ} (h : x ≤ n) : roundEven x ≤ n := by
  rw [← roundEven_intCast (K := K) n]
  exact roundEven_mono h

theorem le_roundEven {x : K} {n : ℤ} (h : n ≤ x) : n ≤ roundEven x := by
  rw [← roundEven_intCast (K := K) n]
  exact roundEven_mono h

end RoundEven

/-! ### Floating point -/

/-- The exponent of the last of `p` bits of `x`. -/
def lastBit (p : ℕ) (x : ℚ) : ℤ := Int.log 2 |x| + 1 - p

/-- The nearest number with `p` bits, with no bound on its exponent. -/
def fl (p : ℕ) (x : ℚ) : ℚ := roundEven (x / 2 ^ lastBit p x) * 2 ^ lastBit p x

theorem two_zpow_pos (e : ℤ) : (0 : ℚ) < 2 ^ e := zpow_pos (by norm_num) e

theorem fl_zero (p : ℕ) : fl p 0 = 0 := by
  have hround : roundEven ((0 : ℤ) : ℚ) = 0 := roundEven_intCast 0
  rw [fl, zero_div, ← Int.cast_zero, hround, Int.cast_zero, zero_mul]

/-- A number is rounded to the multiple of its last bit that is less than half of it away. -/
theorem fl_eq {p : ℕ} {x : ℚ} {m : ℤ} (h : |x - m * 2 ^ lastBit p x| < 2 ^ lastBit p x / 2) :
    fl p x = m * 2 ^ lastBit p x := by
  have hpos := two_zpow_pos (lastBit p x)
  have hfactor : x / 2 ^ lastBit p x - m = (x - m * 2 ^ lastBit p x) / 2 ^ lastBit p x := by
    field_simp
  have hnear : |x / 2 ^ lastBit p x - m| < 1 / 2 := by
    rw [hfactor, abs_div, abs_of_pos hpos, div_lt_iff₀ hpos]
    linarith
  rw [fl, roundEven_eq hnear]

theorem lastBit_le {p : ℕ} {x : ℚ} {e : ℤ} (hx : x ≠ 0) (h : |x| < 2 ^ (p + e)) : lastBit p x ≤ e := by
  have hlog : Int.log 2 |x| < p + e := by
    refine (Int.lt_zpow_iff_log_lt (by decide) (abs_pos.mpr hx)).mp ?_
    exact_mod_cast h
  unfold lastBit
  omega

/-- Numbers with `p` bits stay as they are. -/
theorem fl_exact {p : ℕ} {m e : ℤ} (h : |m| < 2 ^ p) : fl p (m * 2 ^ e) = m * 2 ^ e := by
  by_cases h0 : m = 0
  · rw [h0, Int.cast_zero, zero_mul, fl_zero]
  have hx : (m : ℚ) * 2 ^ e ≠ 0 := mul_ne_zero (by exact_mod_cast h0) (two_zpow_pos e).ne'
  have hle : lastBit p (m * 2 ^ e) ≤ e := by
    refine lastBit_le hx ?_
    have hm : |(m : ℚ)| < 2 ^ p := by exact_mod_cast h
    rw [abs_mul, abs_of_pos (two_zpow_pos e), zpow_add₀ (by norm_num), zpow_natCast]
    exact mul_lt_mul_of_pos_right hm (two_zpow_pos e)
  obtain ⟨d, hd⟩ := Int.le.dest hle
  have hmul : (m : ℚ) * 2 ^ e = ((m * 2 ^ d : ℤ) : ℚ) * 2 ^ lastBit p (m * 2 ^ e) := by
    have hpow : (2 : ℚ) ^ e = 2 ^ d * 2 ^ lastBit p (m * 2 ^ e) := by
      rw [← zpow_natCast, ← zpow_add₀ (by norm_num), add_comm, hd]
    rw [Int.cast_mul, Int.cast_pow, Int.cast_ofNat, mul_assoc, ← hpow]
  have hself := fl_eq (p := p) (x := m * 2 ^ e) (m := m * 2 ^ d) (by
    rw [← hmul, sub_self, abs_zero]
    exact half_pos (two_zpow_pos _))
  rw [hself, ← hmul]

theorem zpow_log_eq {p : ℕ} {x : ℚ} (hx : 0 < x) :
    (2 : ℚ) ^ (Int.log 2 x + 1) = 2 ^ p * 2 ^ lastBit p x := by
  rw [← zpow_natCast, ← zpow_add₀ (by norm_num), lastBit, abs_of_pos hx]
  congr 1
  omega

/-- What is a little more than a number with `p` bits is rounded to that number. -/
theorem fl_above {p : ℕ} {x y : ℚ} (hy : 0 < y) (hself : fl p y = y) (hle : y ≤ x)
    (hnear : (x - y) * 2 ^ (p + 1) ≤ y) : fl p x = y := by
  have hpos := two_zpow_pos (lastBit p y)
  have htop : (2 : ℚ) ^ (Int.log 2 y + 1) = 2 ^ p * 2 ^ lastBit p y := zpow_log_eq hy
  have hlt : y < 2 ^ p * 2 ^ lastBit p y := by
    rw [← htop]
    exact_mod_cast Int.lt_zpow_succ_log_self (b := 2) (by decide) y
  have hdiff : x - y < 2 ^ lastBit p y / 2 := by
    rw [pow_succ] at hnear
    refine lt_of_mul_lt_mul_right (a := 2 ^ p) ?_ (by positivity)
    linarith
  have hm : y = roundEven (y / 2 ^ lastBit p y) * 2 ^ lastBit p y := hself.symm
  generalize roundEven (y / 2 ^ lastBit p y) = m at hm
  -- the multiples of the last bit end below the next power of two
  have hx : x < 2 ^ (Int.log 2 y + 1) := by
    have hmlt : m < 2 ^ p := by
      have hcast : (m : ℚ) < 2 ^ p := lt_of_mul_lt_mul_right (lt_of_eq_of_lt hm.symm hlt) hpos.le
      exact_mod_cast hcast
    have hcast : (m : ℚ) + 1 ≤ 2 ^ p := by exact_mod_cast hmlt
    have hmul := mul_le_mul_of_nonneg_right hcast hpos.le
    rw [htop]
    linarith
  have hlog : Int.log 2 x = Int.log 2 y := by
    have hlow : Int.log 2 y ≤ Int.log 2 x := Int.log_mono_right hy hle
    have hhigh : Int.log 2 x < Int.log 2 y + 1 :=
      (Int.lt_zpow_iff_log_lt (by decide) (lt_of_lt_of_le hy hle)).mp (by exact_mod_cast hx)
    omega
  have hbit : lastBit p x = lastBit p y := by
    rw [lastBit, lastBit, abs_of_pos hy, abs_of_pos (lt_of_lt_of_le hy hle), hlog]
  have hround := fl_eq (p := p) (x := x) (m := m) (by
    rw [hbit, ← hm, abs_of_nonneg (sub_nonneg.mpr hle)]
    exact hdiff)
  rw [hround, hbit, ← hm]

theorem fl_natCast {p n : ℕ} (h : n < 2 ^ p) : fl p n = n := by
  have hexact := fl_exact (p := p) (m := n) (e := 0) (by rw [Nat.abs_cast]; exact_mod_cast h)
  rwa [zpow_zero, mul_one, Int.cast_natCast] at hexact

theorem fl_two_zpow {p : ℕ} (hp : 0 < p) (e : ℤ) : fl p (2 ^ e) = 2 ^ e := by
  have hlt : |(1 : ℤ)| < 2 ^ p := by
    rw [abs_one]
    exact one_lt_pow₀ (by decide) hp.ne'
  have hexact := fl_exact (e := e) hlt
  rwa [Int.cast_one, one_mul] at hexact

/-- The error is at most half of the last bit. -/
theorem abs_fl_sub_le_half (p : ℕ) (x : ℚ) : |fl p x - x| ≤ 2 ^ lastBit p x / 2 := by
  have hpos := two_zpow_pos (lastBit p x)
  have hfactor : fl p x - x = (roundEven (x / 2 ^ lastBit p x) - x / 2 ^ lastBit p x) * 2 ^ lastBit p x := by
    rw [fl, sub_mul, div_mul_cancel₀ _ hpos.ne']
  rw [hfactor, abs_mul, abs_of_pos hpos]
  have hround := mul_le_mul_of_nonneg_right (abs_roundEven_sub_le (x / 2 ^ lastBit p x)) hpos.le
  linarith

/-- The error is at most one part in `2 ^ p`. -/
theorem abs_fl_sub_le (p : ℕ) (x : ℚ) : |fl p x - x| * 2 ^ p ≤ |x| := by
  by_cases h0 : x = 0
  · rw [h0, fl_zero, sub_self, abs_zero, zero_mul]
  have hbit : (2 : ℚ) ^ lastBit p x * 2 ^ p = 2 * 2 ^ Int.log 2 |x| := by
    rw [← zpow_natCast, ← zpow_add₀ (by norm_num), lastBit, sub_add_cancel, zpow_add_one₀ (by norm_num),
      mul_comm]
  have hlog : (2 : ℚ) ^ Int.log 2 |x| ≤ |x| := by
    exact_mod_cast Int.zpow_log_le_self (b := 2) (by decide) (abs_pos.mpr h0)
  have herror := mul_le_mul_of_nonneg_right (abs_fl_sub_le_half p x) (pow_nonneg (by norm_num : (0 : ℚ) ≤ 2) p)
  linarith

theorem fl_nonneg {p : ℕ} {x : ℚ} (h : 0 ≤ x) : 0 ≤ fl p x := by
  have hpos := two_zpow_pos (lastBit p x)
  have hround : (0 : ℤ) ≤ roundEven (x / 2 ^ lastBit p x) := by
    refine le_roundEven ?_
    rw [Int.cast_zero]
    exact div_nonneg h hpos.le
  exact mul_nonneg (by exact_mod_cast hround) hpos.le

/-- A number is not rounded below the power of two that it reaches. -/
theorem zpow_log_le_fl {p : ℕ} (hp : 0 < p) {x : ℚ} (hx : 0 < x) : (2 : ℚ) ^ Int.log 2 x ≤ fl p x := by
  obtain ⟨q, rfl⟩ : ∃ q, p = q + 1 := ⟨p - 1, by omega⟩
  have hpos := two_zpow_pos (lastBit (q + 1) x)
  have hlog : (2 : ℚ) ^ Int.log 2 x ≤ x := by
    exact_mod_cast Int.zpow_log_le_self (b := 2) (by decide) hx
  have hbottom : (2 : ℚ) ^ Int.log 2 x = 2 ^ q * 2 ^ lastBit (q + 1) x := by
    rw [← zpow_natCast, ← zpow_add₀ (by norm_num), lastBit, abs_of_pos hx]
    congr 1
    push_cast
    omega
  have hround : 2 ^ q ≤ roundEven (x / 2 ^ lastBit (q + 1) x) := by
    refine le_roundEven ?_
    rw [le_div_iff₀ hpos]
    push_cast
    rw [← hbottom]
    exact hlog
  rw [hbottom, fl]
  exact mul_le_mul_of_nonneg_right (by exact_mod_cast hround) hpos.le

/-- It is not rounded above the next power of two. -/
theorem fl_le_zpow_log (p : ℕ) {x : ℚ} (hx : 0 < x) : fl p x ≤ 2 ^ (Int.log 2 x + 1) := by
  have hpos := two_zpow_pos (lastBit p x)
  have hlog : x < 2 ^ (Int.log 2 x + 1) := by
    exact_mod_cast Int.lt_zpow_succ_log_self (b := 2) (by decide) x
  have hround : roundEven (x / 2 ^ lastBit p x) ≤ 2 ^ p := by
    refine roundEven_le ?_
    rw [div_le_iff₀ hpos]
    push_cast
    rw [← zpow_log_eq hx]
    exact hlog.le
  rw [zpow_log_eq (p := p) hx, fl]
  exact mul_le_mul_of_nonneg_right (by exact_mod_cast hround) hpos.le

/-- Rounding keeps the order, also of numbers with different exponents. -/
theorem fl_mono {p : ℕ} (hp : 0 < p) {x y : ℚ} (hx : 0 ≤ x) (h : x ≤ y) : fl p x ≤ fl p y := by
  rcases hx.eq_or_lt with rfl | hx
  · rw [fl_zero]
    exact fl_nonneg h
  have hy := lt_of_lt_of_le hx h
  have hlog : Int.log 2 x ≤ Int.log 2 y := Int.log_mono_right hx h
  rcases hlog.lt_or_eq with hlt | heq
  · -- a power of two lies between them
    calc fl p x ≤ 2 ^ (Int.log 2 x + 1) := fl_le_zpow_log p hx
      _ ≤ 2 ^ Int.log 2 y := zpow_le_zpow_right₀ (by norm_num) hlt
      _ ≤ fl p y := zpow_log_le_fl hp hy
  · have hypos := two_zpow_pos (lastBit p y)
    have hbit : lastBit p x = lastBit p y := by rw [lastBit, lastBit, abs_of_pos hx, abs_of_pos hy, heq]
    rw [fl, fl, hbit]
    have hround := roundEven_mono (div_le_div_of_nonneg_right h hypos.le)
    exact mul_le_mul_of_nonneg_right (by exact_mod_cast hround) hypos.le

end Rounding

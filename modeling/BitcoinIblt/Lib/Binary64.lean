import Mathlib

/-!
# Rounding to a double

The nearest number of 53 significant bits to a positive rational, ties to the even one, as a
rational. The range of the exponents is left out: nothing here is near its ends.
-/

namespace Binary64

/-- The nearest integer, the even one of two. -/
def roundEven (x : ℚ) : ℤ :=
  if x - ⌊x⌋ < 1 / 2 then ⌊x⌋
  else if 1 / 2 < x - ⌊x⌋ then ⌊x⌋ + 1
  else if ⌊x⌋ % 2 = 0 then ⌊x⌋
  else ⌊x⌋ + 1

/-- The distance of the numbers of 53 bits around `x`. -/
def ulp (x : ℚ) : ℚ := 2 ^ (Int.log 2 x - 52)

/-- The double nearest to a positive number. -/
def toDouble (x : ℚ) : ℚ := roundEven (x / ulp x) * ulp x

theorem abs_roundEven_sub_le (x : ℚ) : |(roundEven x : ℚ) - x| ≤ 1 / 2 := by
  have hle := Int.floor_le x
  have hlt := Int.lt_floor_add_one x
  unfold roundEven
  split_ifs with h₁ h₂ h₃
  · rw [abs_le]
    constructor <;> linarith
  · push_cast
    rw [abs_le]
    constructor <;> linarith
  · rw [abs_le]
    constructor <;> linarith
  · push_cast
    rw [abs_le]
    constructor <;> linarith

theorem ulp_pos (x : ℚ) : 0 < ulp x := by
  unfold ulp
  positivity

/-- The leading bit of a positive number weighs no more than the number. -/
theorem ulp_le {x : ℚ} (hx : 0 < x) : ulp x ≤ x * (1 / 2 ^ 52) := by
  have hlog : ((2 : ℕ) : ℚ) ^ Int.log 2 x ≤ x := Int.zpow_log_le_self (by decide) hx
  have hulp : ulp x = ((2 : ℕ) : ℚ) ^ Int.log 2 x * (1 / 2 ^ 52) := by
    unfold ulp
    rw [zpow_sub₀ (by norm_num), div_eq_mul_inv, one_div]
    norm_num
  rw [hulp]
  exact mul_le_mul_of_nonneg_right hlog (by norm_num)

/-- The rounding error is at most half a unit in the last place. -/
theorem abs_toDouble_sub_le {x : ℚ} (hx : 0 < x) : |toDouble x - x| ≤ x * (1 / 2 ^ 53) := by
  have hpos := ulp_pos x
  have hround := abs_roundEven_sub_le (x / ulp x)
  have hscale : toDouble x - x = (roundEven (x / ulp x) - x / ulp x) * ulp x := by
    unfold toDouble
    field_simp
  calc |toDouble x - x| = |(roundEven (x / ulp x) : ℚ) - x / ulp x| * ulp x := by
        rw [hscale, abs_mul, abs_of_pos hpos]
    _ ≤ 1 / 2 * (x * (1 / 2 ^ 52)) :=
        mul_le_mul hround (ulp_le hx) hpos.le (by norm_num)
    _ = x * (1 / 2 ^ 53) := by ring

/-- A product or a quotient that is rounded keeps its size up to a thousandth. -/
theorem toDouble_bounds {x : ℚ} (hx : 0 < x) :
    999 / 1000 * x ≤ toDouble x ∧ toDouble x ≤ 1001 / 1000 * x := by
  have h := abs_le.mp (abs_toDouble_sub_le hx)
  have hsmall : x * (1 / 2 ^ 53) ≤ x * (1 / 1000) :=
    mul_le_mul_of_nonneg_left (by norm_num) hx.le
  constructor <;> linarith [h.1, h.2]

end Binary64

import Mathlib.Data.Rat.Floor

/-! # Rounding towards zero

  A number is its truncated part and a fraction of the same sign that is smaller than one.
-/

namespace Noria

variable {q : ℚ}

/-- The integer next to a number, towards zero. -/
def truncate (q : ℚ) : ℤ := if 0 ≤ q then ⌊q⌋ else ⌈q⌉

/-- What truncation leaves. -/
def fraction (q : ℚ) : ℚ := q - truncate q

theorem truncate_add_fraction (q : ℚ) : (truncate q : ℚ) + fraction q = q := by
  unfold fraction
  ring

theorem truncate_of_nonneg (h : 0 ≤ q) : truncate q = ⌊q⌋ := if_pos h

theorem truncate_eq {n : ℤ} (h : 0 ≤ q) (hle : n ≤ q) (hlt : q < n + 1) : truncate q = n := by
  rw [truncate_of_nonneg h, Int.floor_eq_iff]
  exact ⟨hle, hlt⟩

theorem truncate_intCast (n : ℤ) : truncate n = n := by
  unfold truncate
  split
  · exact Int.floor_intCast n
  · exact Int.ceil_intCast n

/-- Truncation moves towards zero, so only the lower bound of a range is met from below. -/
theorem truncate_range {a b : ℤ} (ha : a ≤ 0) (hb : 0 < b) (hlow : (a : ℚ) - 1 < q)
    (hhigh : q < b) : a ≤ truncate q ∧ truncate q < b := by
  unfold truncate
  split
  · next h => exact ⟨ha.trans (Int.floor_nonneg.mpr h), Int.floor_lt.mpr hhigh⟩
  · next h =>
    have hle : ⌈q⌉ ≤ 0 := Int.ceil_le.mpr (by push_cast; linarith)
    exact ⟨Int.le_of_sub_one_lt (Int.lt_ceil.mpr (by push_cast; exact hlow)), by omega⟩

theorem fraction_intCast (n : ℤ) : fraction n = 0 := by
  unfold fraction
  rw [truncate_intCast, sub_self]

theorem truncate_div (m d : ℕ) : truncate ((m : ℚ) / d) = (m / d : ℕ) := by
  rw [truncate_of_nonneg (by positivity)]
  exact Rat.floor_natCast_div_natCast m d

theorem fraction_div (m : ℕ) {d : ℕ} (hd : 0 < d) :
    fraction ((m : ℚ) / d) = ((m % d : ℕ) : ℚ) / d := by
  have hpos : (d : ℚ) ≠ 0 := by positivity
  have hdiv : (m : ℚ) = d * ((m / d : ℕ) : ℚ) + ((m % d : ℕ) : ℚ) := by
    exact_mod_cast (Nat.div_add_mod m d).symm
  unfold fraction
  rw [truncate_div, Int.cast_natCast]
  field_simp
  linarith

theorem truncate_neg (q : ℚ) : truncate (-q) = -truncate q := by
  unfold truncate
  rcases lt_trichotomy q 0 with h | rfl | h
  · rw [if_pos (by linarith), if_neg (by linarith), Int.floor_neg]
  · simp
  · rw [if_neg (by linarith), if_pos (by linarith), Int.ceil_neg]

theorem fraction_neg (q : ℚ) : fraction (-q) = -fraction q := by
  unfold fraction
  rw [truncate_neg]
  push_cast
  ring

theorem fraction_of_nonneg (h : 0 ≤ q) : fraction q = Int.fract q := by
  unfold fraction
  rw [truncate_of_nonneg h, Int.self_sub_floor]

theorem fraction_nonneg (h : 0 ≤ q) : 0 ≤ fraction q := by
  rw [fraction_of_nonneg h]
  exact Int.fract_nonneg q

theorem fraction_nonpos (h : q ≤ 0) : fraction q ≤ 0 := by
  have hneg := fraction_nonneg (q := -q) (by linarith)
  rw [fraction_neg] at hneg
  linarith

theorem abs_fraction_lt_one (q : ℚ) : |fraction q| < 1 := by
  rcases le_total 0 q with h | h
  · rw [fraction_of_nonneg h, abs_of_nonneg (Int.fract_nonneg q)]
    exact Int.fract_lt_one q
  · have hneg := Int.fract_lt_one (-q)
    rw [← fraction_of_nonneg (by linarith), fraction_neg] at hneg
    rw [abs_of_nonpos (fraction_nonpos h)]
    exact hneg

theorem nonneg_of_truncate_pos (h : 0 < truncate q) : 0 ≤ q := by
  by_contra hneg
  have hceil : ⌈q⌉ ≤ 0 := Int.ceil_le.mpr (by push_cast; linarith)
  rw [truncate, if_neg hneg] at h
  omega

theorem nonpos_of_truncate_neg (h : truncate q < 0) : q ≤ 0 := by
  have hneg := nonneg_of_truncate_pos (q := -q) (by rw [truncate_neg]; omega)
  linarith

/-- Numbers with the same integer part and the same absolute fraction are
    the same, unless the integer part is zero and the sign is lost. -/
theorem eq_of_parts {x y : ℚ} (htrunc : truncate x = truncate y)
    (hfrac : |fraction x| = |fraction y|) : x = y ∨ truncate x = 0 := by
  rcases lt_trichotomy (truncate x) 0 with h | h | h
  · left
    have hx := fraction_nonpos (nonpos_of_truncate_neg h)
    have hy := fraction_nonpos (nonpos_of_truncate_neg (htrunc ▸ h))
    rw [abs_of_nonpos hx, abs_of_nonpos hy] at hfrac
    rw [← truncate_add_fraction x, ← truncate_add_fraction y, htrunc]
    linarith
  · exact Or.inr h
  · left
    have hx := fraction_nonneg (nonneg_of_truncate_pos h)
    have hy := fraction_nonneg (nonneg_of_truncate_pos (htrunc ▸ h))
    rw [abs_of_nonneg hx, abs_of_nonneg hy] at hfrac
    rw [← truncate_add_fraction x, ← truncate_add_fraction y, htrunc]
    linarith

/-- The nearest integer, and away from zero halfway between two. -/
def roundAway (q : ℚ) : ℤ := if 0 ≤ q then ⌊q + 1 / 2⌋ else ⌈q - 1 / 2⌉

theorem roundAway_intCast (n : ℤ) : roundAway n = n := by
  unfold roundAway
  split
  · rw [Int.floor_eq_iff]
    constructor <;> linarith
  · rw [Int.ceil_eq_iff]
    constructor <;> linarith

end Noria

import Noria.Framework.Truncate
import Noria.Sqlite.Ast

/-! # Reals as two integers

  `noria-sqlite` stores a real as its truncated part, cast to an `i64`, and nine decimals of the
  absolute fraction. The cast saturates, and the sign is lost when the truncated part is zero.
  Doubles are taken as the exact numbers they stand for.
-/

namespace Noria.Sqlite

variable {f x y : ℚ}

/-- The two parts of a `Real`, from a double. -/
def encode_real (f : ℚ) : DataType :=
  let int_part := saturate (truncate f)
  let frac_part := Int32.ofInt ⌊|fraction f| * 1000000000⌋
  .real int_part frac_part

/-- The number a decimal text stands for. -/
def Decimal.value (d : Decimal) : ℚ := d.mantissa * (10 : ℚ) ^ d.exponent

/-- The numbers with at most nine decimals. -/
def NineDecimals (q : ℚ) : Prop := ∃ n : ℤ, q * 1000000000 = n

/-- The number a value stands for (`From<&DataType> for f64`). -/
def number : DataType → Option ℚ
  | .int v => some v.toInt
  | .unsignedInt v => some v.toNat
  | .bigInt v => some v.toInt
  | .unsignedBigInt v => some v.toNat
  | .real i f => some (i.toInt + f.toInt / 1000000000)
  | _ => none

/-! ## The two parts -/

theorem toInt_saturate (v : Int) : (saturate v).toInt =
    if v < -2 ^ 63 then -2 ^ 63 else if 2 ^ 63 ≤ v then 2 ^ 63 - 1 else v := by
  unfold saturate
  split
  · exact Int64.toInt_ofInt_of_le (by decide) (by decide)
  · split
    · exact Int64.toInt_ofInt_of_le (by decide) (by decide)
    · exact Int64.toInt_ofInt_of_le (by omega) (by omega)

theorem saturate_eq_iff {a b : Int} : saturate a = saturate b ↔
    a = b ∨ 2 ^ 63 - 1 ≤ a ∧ 2 ^ 63 - 1 ≤ b ∨ a ≤ -2 ^ 63 ∧ b ≤ -2 ^ 63 := by
  rw [← Int64.toInt_inj, toInt_saturate, toInt_saturate]
  split <;> split <;> (try split) <;> (try split) <;> omega

theorem decimals_range (f : ℚ) :
    0 ≤ ⌊|fraction f| * 1000000000⌋ ∧ ⌊|fraction f| * 1000000000⌋ < 1000000000 := by
  have habs := abs_nonneg (fraction f)
  have hlt := abs_fraction_lt_one f
  constructor
  · exact Int.floor_nonneg.mpr (by linarith)
  · refine Int.floor_lt.mpr ?_
    push_cast
    linarith

theorem toInt_decimals (f : ℚ) : (Int32.ofInt ⌊|fraction f| * 1000000000⌋).toInt =
    ⌊|fraction f| * 1000000000⌋ := by
  obtain ⟨hle, hlt⟩ := decimals_range f
  exact Int32.toInt_ofInt_of_le (by omega) (by omega)

theorem NineDecimals.fraction (h : NineDecimals f) :
    ∃ m : ℤ, fraction f * 1000000000 = m ∧ -1000000000 < m ∧ m < 1000000000 := by
  obtain ⟨n, hn⟩ := h
  have hm : Noria.fraction f * 1000000000 = ((n - truncate f * 1000000000 : ℤ) : ℚ) := by
    unfold Noria.fraction
    push_cast
    rw [← hn]
    ring
  obtain ⟨hgt, hlt⟩ := abs_lt.mp (abs_fraction_lt_one f)
  refine ⟨_, hm, ?_, ?_⟩
  · have hcast : (-1000000000 : ℚ) < ((n - truncate f * 1000000000 : ℤ) : ℚ) := by
      rw [← hm]
      linarith
    exact_mod_cast hcast
  · have hcast : ((n - truncate f * 1000000000 : ℤ) : ℚ) < 1000000000 := by
      rw [← hm]
      linarith
    exact_mod_cast hcast

theorem decimals_exact (h : NineDecimals f) :
    (⌊|fraction f| * 1000000000⌋ : ℚ) = |fraction f| * 1000000000 := by
  obtain ⟨m, hm, -, -⟩ := h.fraction
  have habs : |fraction f| * 1000000000 = ((|m| : ℤ) : ℚ) := by
    rw [Int.cast_abs, ← hm, abs_mul, abs_of_pos (by norm_num : (0 : ℚ) < 1000000000)]
  rw [habs, Int.floor_intCast]

theorem encode_real_eq_iff (hx : NineDecimals x) (hy : NineDecimals y) :
    (encode_real x == encode_real y) = true ↔
      saturate (truncate x) = saturate (truncate y) ∧ |fraction x| = |fraction y| := by
  rw [DataType.beq_iff_val]
  show Value.real _ _ = Value.real _ _ ↔ _
  rw [Value.real.injEq, Int64.toInt_inj, toInt_decimals, toInt_decimals]
  refine and_congr_right fun _ => ?_
  rw [← @Int.cast_inj ℚ, decimals_exact hx, decimals_exact hy]
  constructor
  · intro h
    linarith
  · intro h
    rw [h]

/-- Below one the sign is lost. -/
theorem encode_real_neg {q : ℚ} (h : truncate q = 0) : encode_real (-q) = encode_real q := by
  unfold encode_real
  rw [truncate_neg, fraction_neg, abs_neg, h, neg_zero]

/-- The pairs of numbers that are encoded alike: opposite ones below one in absolute value, and ones
    beyond the range of an `i64` with the same decimals. -/
def Confused (x y : ℚ) : Prop :=
  |fraction x| = |fraction y| ∧
    (truncate x = 0 ∧ truncate y = 0 ∨
      2 ^ 63 - 1 ≤ truncate x ∧ 2 ^ 63 - 1 ≤ truncate y ∨
      truncate x ≤ -2 ^ 63 ∧ truncate y ≤ -2 ^ 63)

/-- **Different reals get different encodings unless they are confused.** -/
theorem encode_real_confused (hx : NineDecimals x) (hy : NineDecimals y) (hne : x ≠ y) :
    (encode_real x == encode_real y) = true ↔ Confused x y := by
  rw [encode_real_eq_iff hx hy, saturate_eq_iff, and_comm]
  refine and_congr_right fun hfrac => ?_
  constructor
  · rintro (heq | hends)
    · rcases eq_of_parts heq hfrac with h | h
      · exact absurd h hne
      · exact Or.inl ⟨h, heq ▸ h⟩
    · exact Or.inr hends
  · rintro (⟨h, h'⟩ | hends)
    · exact Or.inl (h.trans h'.symm)
    · exact Or.inr hends

end Noria.Sqlite

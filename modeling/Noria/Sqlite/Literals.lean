import Mathlib.Data.List.TakeWhile
import Noria.Sqlite.Reals
import Noria.Sqlite.Sql

/-! # Numeric literals

  A literal with a fraction or an exponent becomes a `Real`, whose integer part is cast to an `i64`.
  A unary minus is handled apart: it only reads integers, and takes everything else as zero.
-/

namespace Noria.Sqlite

open Option List

variable {d : Decimal} {cs : List Char} {n : String} {q : ℚ} {f : Decimal}

/-! ## The number of a literal -/

/-- A number with nine decimals, the others cut off. -/
def truncate9 (q : ℚ) : ℚ := truncate (q * 1000000000) / 1000000000

/-- The parser's numeric tokens have no sign. -/
def Unsigned (n : String) : Prop := splitSign n.toList = (false, n.toList)

def IsI64 (q : ℚ) : Prop := ∃ i : Int64, q = i.toInt

/-- The value stands for the number: exactly if it is an `i64`, and up to
    nine decimals otherwise. -/
def Keeps (d : DataType) (q : ℚ) : Prop :=
  (IsI64 q → number d = some q) ∧ (¬ IsI64 q → number d = some (truncate9 q))

/-- A literal, with a unary minus or without. -/
def numericLiteral (negated : Bool) (n : String) : Expr :=
  if negated then .unary .negative (.literal (.numeric n)) else .literal (.numeric n)

def signedValue (negated : Bool) (f : Decimal) : ℚ := if negated then -f.value else f.value

theorem truncate9_neg (q : ℚ) : truncate9 (-q) = -truncate9 q := by
  unfold truncate9
  rw [neg_mul, truncate_neg]
  push_cast
  ring

theorem truncate9_intCast (n : ℤ) : truncate9 n = n := by
  have hint : ((n : ℚ) * 1000000000) = ((n * 1000000000 : ℤ) : ℚ) := by push_cast; ring
  unfold truncate9
  rw [hint, truncate_intCast]
  push_cast
  field_simp

/-- An `i64` has no decimals to cut off. -/
theorem keeps_iff (d : DataType) (q : ℚ) : Keeps d q ↔ number d = some (truncate9 q) := by
  by_cases h : IsI64 q
  · obtain ⟨i, hi⟩ := id h
    have hcut : truncate9 q = q := by rw [hi, truncate9_intCast]
    rw [hcut]
    exact ⟨fun hk => hk.1 h, fun hn => ⟨fun _ => hn, fun hno => absurd h hno⟩⟩
  · exact ⟨fun hk => hk.2 h, fun hn => ⟨fun hi => absurd hi h, fun _ => hn⟩⟩

/-! ## Reals -/

theorem number_encode_real (q : ℚ) : number (encode_real q) =
    some (((saturate (truncate q)).toInt : ℚ) +
      (⌊|fraction q| * 1000000000⌋ : ℚ) / 1000000000) := by
  show some (((saturate (truncate q)).toInt : ℚ) +
    ((Int32.ofInt ⌊|fraction q| * 1000000000⌋).toInt : ℚ) / 1000000000) = _
  rw [toInt_decimals]

theorem truncate9_of_nonneg (h : 0 ≤ q) :
    truncate9 q = truncate q + (⌊|fraction q| * 1000000000⌋ : ℚ) / 1000000000 := by
  have hscaled : q * 1000000000 =
      fraction q * 1000000000 + ((truncate q * 1000000000 : ℤ) : ℚ) := by
    unfold fraction
    push_cast
    ring
  unfold truncate9
  rw [truncate_of_nonneg (by linarith), abs_of_nonneg (fraction_nonneg h), hscaled,
    Int.floor_add_intCast]
  push_cast
  field_simp
  ring

/-- **A positive real is kept if its integer part is an `i64`.** -/
theorem number_encode_real_iff (h : 0 ≤ q) :
    number (encode_real q) = some (truncate9 q) ↔ q < 2 ^ 63 := by
  rw [number_encode_real, truncate9_of_nonneg h, some.injEq, add_left_inj, Int.cast_inj,
    toInt_saturate]
  have hfloor : truncate q < 2 ^ 63 ↔ q < 2 ^ 63 := by
    rw [truncate_of_nonneg h, Int.floor_lt]
    norm_num
  have hpos : 0 ≤ truncate q := by
    rw [truncate_of_nonneg h]
    exact Int.floor_nonneg.mpr h
  rw [← hfloor]
  split
  · omega
  · split <;> omega

theorem Decimal.toReal_eq (h : 0 ≤ d.mantissa) : d.toReal = encode_real d.value := by
  obtain ⟨mantissa, exponent⟩ := d
  obtain ⟨m, rfl⟩ := Int.eq_ofNat_of_zero_le h
  unfold Decimal.toReal
  split
  · next hexp =>
    obtain ⟨e, rfl⟩ := Int.eq_ofNat_of_zero_le hexp
    have hvalue : Decimal.value ⟨m, e⟩ = (((m : ℤ) * 10 ^ e : ℤ) : ℚ) := by
      push_cast
      rfl
    rw [hvalue, encode_real, truncate_intCast, fraction_intCast]
    simp
  · next hexp =>
    change ¬ 0 ≤ exponent at hexp
    obtain ⟨k, hk⟩ : ∃ k : ℕ, exponent = -k := ⟨(-exponent).toNat, by omega⟩
    subst hk
    have hvalue : Decimal.value ⟨m, -k⟩ = (m : ℚ) / ((10 ^ k : ℕ) : ℚ) := by
      show ((m : ℤ) : ℚ) * (10 : ℚ) ^ (-(k : ℤ)) = _
      rw [zpow_neg, zpow_natCast]
      push_cast
      rfl
    have hscale : 0 < 10 ^ k := by positivity
    have hfrac : |fraction ((m : ℚ) / ((10 ^ k : ℕ) : ℚ))| * 1000000000 =
        ((m % 10 ^ k * 1000000000 : ℕ) : ℚ) / ((10 ^ k : ℕ) : ℚ) := by
      rw [fraction_div m hscale, abs_of_nonneg (by positivity)]
      push_cast
      ring
    rw [hvalue, encode_real, truncate_div, hfrac, Rat.floor_natCast_div_natCast]
    simp only [neg_neg, Int.toNat_natCast, Int.natAbs_natCast]
    rfl

/-! ## Literals -/

theorem span_all {p : Char → Bool} (h : ∀ c ∈ cs, p c = true) : cs.span p = (cs, []) := by
  rw [span_eq_takeWhile_dropWhile, takeWhile_eq_self_iff.mpr h,
    dropWhile_eq_nil_iff.mpr h]

theorem isDigit_of_parseDigits {m : Nat} (h : parseDigits cs = some m) :
    ∀ c ∈ cs, c.isDigit = true := by
  unfold parseDigits at h
  split at h
  · next hcs => exact all_eq_true.mp hcs.2
  · cases h

theorem parse_f64_of_i64 {i : Int64} (hn : Unsigned n) (h : parse_i64 n = some i) :
    0 ≤ i.toInt ∧ parse_f64 n = some ⟨i.toInt, 0⟩ := by
  unfold parse_i64 at h
  rw [hn] at h
  simp only [bind_eq_bind, bind_eq_some_iff, Bool.false_eq_true, if_false] at h
  obtain ⟨m, hm, hi⟩ := h
  split at hi
  · next hrange =>
    cases hi
    have hdigit := isDigit_of_parseDigits hm
    have hexp : n.toList.span (fun c => decide (c ≠ 'e' ∧ c ≠ 'E')) = (n.toList, []) := by
      apply span_all
      intro c hc
      have hd := hdigit c hc
      simp only [decide_eq_true_eq]
      constructor <;> rintro rfl <;> exact absurd hd (by decide)
    have hdot : n.toList.span (fun c => decide (c ≠ '.')) = (n.toList, []) := by
      apply span_all
      intro c hc
      have hd := hdigit c hc
      simp only [decide_eq_true_eq]
      rintro rfl
      exact absurd hd (by decide)
    rw [Int64.toInt_ofInt_of_le hrange.1 hrange.2]
    refine ⟨Int.natCast_nonneg m, ?_⟩
    unfold parse_f64
    rw [hn]
    simp only [hexp, hdot, bind_eq_bind, bind_some, drop_nil, append_nil,
      hm, Bool.false_eq_true, if_false]
    rfl
  · cases hi

theorem mantissa_nonneg (hn : Unsigned n) (h : parse_f64 n = some f) : 0 ≤ f.mantissa := by
  unfold parse_f64 at h
  rw [hn] at h
  simp only [bind_eq_bind, Bool.false_eq_true, if_false] at h
  split at h <;> simp only [bind_eq_some_iff, bind_some, some.injEq] at h
  · obtain ⟨m, -, rfl⟩ := h
    exact Int.natCast_nonneg m
  · obtain ⟨e, -, m, -, rfl⟩ := h
    exact Int.natCast_nonneg m

theorem Decimal.value_nonneg (h : 0 ≤ d.mantissa) : 0 ≤ d.value := by
  have hm : (0 : ℚ) ≤ d.mantissa := by exact_mod_cast h
  exact mul_nonneg hm (zpow_nonneg (by norm_num) _)

theorem truncate9_eq_zero_iff (h : 0 ≤ q) : truncate9 q = 0 ↔ q * 1000000000 < 1 := by
  have hscaled : 0 ≤ q * 1000000000 := by linarith
  unfold truncate9
  rw [div_eq_zero_iff, or_iff_left (by norm_num), Int.cast_eq_zero, truncate_of_nonneg hscaled,
    Int.floor_eq_zero_iff, Set.mem_Ico]
  exact and_iff_right hscaled

theorem convert_positive (env : SqlEnv) (hn : Unsigned n) (hf : parse_f64 n = some f) :
    ∃ d, convert_expr_to_datatype env (.literal (.numeric n)) = .ok d ∧
      (number d = some (truncate9 f.value) ↔ f.value < 2 ^ 63) := by
  cases hi : parse_i64 n with
  | some i =>
    obtain ⟨-, hf'⟩ := parse_f64_of_i64 hn hi
    rw [hf, some.injEq] at hf'
    subst hf'
    have hvalue : Decimal.value ⟨i.toInt, 0⟩ = (i.toInt : ℚ) := by simp [Decimal.value]
    refine ⟨.bigInt i, ?_, iff_of_true ?_ ?_⟩
    · simp only [convert_expr_to_datatype, convert_literal, hi]
    · rw [hvalue, truncate9_intCast]
      rfl
    · rw [hvalue]
      exact_mod_cast i.toInt_lt
  | none =>
    have hm := mantissa_nonneg hn hf
    refine ⟨f.toReal, by simp only [convert_expr_to_datatype, convert_literal, hi, hf], ?_⟩
    rw [Decimal.toReal_eq hm]
    exact number_encode_real_iff (Decimal.value_nonneg hm)

theorem convert_negative (env : SqlEnv) (hn : Unsigned n) (hf : parse_f64 n = some f) :
    ∃ d, convert_expr_to_datatype env (.unary .negative (.literal (.numeric n))) = .ok d ∧
      (number d = some (truncate9 (-f.value)) ↔
        (parse_i64 n).isSome ∨ f.value * 1000000000 < 1) := by
  refine ⟨_, rfl, ?_⟩
  rw [truncate9_neg]
  cases hi : parse_i64 n with
  | some i =>
    obtain ⟨hpos, hf'⟩ := parse_f64_of_i64 hn hi
    rw [hf, some.injEq] at hf'
    subst hf'
    have hvalue : Decimal.value ⟨i.toInt, 0⟩ = (i.toInt : ℚ) := by simp [Decimal.value]
    have hlt := i.toInt_lt
    have hneg : (-i).toInt = -i.toInt := by
      rw [Int64.toInt_neg]
      exact Int.bmod_eq_of_le (by omega) (by omega)
    refine iff_of_true ?_ (Or.inl rfl)
    show some ((((-i).toInt : ℤ)) : ℚ) = _
    rw [hvalue, truncate9_intCast, hneg]
    rfl
  | none =>
    rw [← truncate9_eq_zero_iff (Decimal.value_nonneg (mantissa_nonneg hn hf))]
    show some (((-(0 : Int64)).toInt : ℤ) : ℚ) = _ ↔ _
    have hzero : (-(0 : Int64)).toInt = 0 := rfl
    simp

/-- **Which numeric literals keep their value.** -/
theorem literal_keeps_iff (env : SqlEnv) (negated : Bool) (n : String) (f : Decimal)
    (hn : Unsigned n) (hf : parse_f64 n = some f) :
    (∃ d, convert_expr_to_datatype env (numericLiteral negated n) = .ok d ∧
      Keeps d (signedValue negated f)) ↔
      if negated then (parse_i64 n).isSome ∨ f.value * 1000000000 < 1 else f.value < 2 ^ 63 := by
  simp only [keeps_iff]
  cases negated with
  | false =>
    obtain ⟨d, hd, hiff⟩ := convert_positive env hn hf
    show (∃ d, convert_expr_to_datatype env (.literal (.numeric n)) = .ok d ∧
      number d = some (truncate9 f.value)) ↔ f.value < 2 ^ 63
    simp only [hd, Outcome.ok.injEq, exists_eq_left', hiff]
  | true =>
    obtain ⟨d, hd, hiff⟩ := convert_negative env hn hf
    show (∃ d, convert_expr_to_datatype env (.unary .negative (.literal (.numeric n))) = .ok d ∧
      number d = some (truncate9 (-f.value))) ↔ (parse_i64 n).isSome ∨ f.value * 1000000000 < 1
    simp only [hd, Outcome.ok.injEq, exists_eq_left', hiff]

/-- The literal `1.5`. -/
theorem positive_fraction_is_kept :
    ∃ d, convert_expr_to_datatype plainEnv (numericLiteral false "1.5") = .ok d ∧
      Keeps d (signedValue false ⟨15, -1⟩) :=
  (literal_keeps_iff plainEnv false "1.5" ⟨15, -1⟩ (by unfold Unsigned; decide) (by decide)).mpr
    (by norm_num [Decimal.value])

/-- The literal `-1.5` is taken as zero. -/
theorem negative_fraction_is_zero :
    convert_expr_to_datatype plainEnv (numericLiteral true "1.5") = .ok (.bigInt 0) ∧
      parse_f64 "1.5" = some ⟨15, -1⟩ ∧ ¬ Keeps (.bigInt 0) (signedValue true ⟨15, -1⟩) := by
  have hparse : parse_f64 "1.5" = some ⟨15, -1⟩ := by decide
  refine ⟨?_, hparse, ?_⟩
  · have hi : parse_i64 "1.5" = none := by decide
    rfl
  · rw [keeps_iff]
    show some (((0 : Int64).toInt : ℤ) : ℚ) ≠ some (truncate9 (-Decimal.value ⟨15, -1⟩))
    have hvalue : Decimal.value ⟨15, -1⟩ = 3 / 2 := by norm_num [Decimal.value]
    have hzero : ((0 : Int64).toInt : ℚ) = 0 := rfl
    rw [truncate9_neg, Ne, some.injEq, hzero, eq_comm, neg_eq_zero, hvalue,
      truncate9_eq_zero_iff (by norm_num)]
    norm_num

end Noria.Sqlite

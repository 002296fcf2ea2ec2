import Noria.Sqlite.Reals
import Noria.Text

/-! # Values across the foreign function interface

  `noria-ffi/src/lib.rs` turns the values it gets from C++ into `DataType`s in two ways: those of a
  fills in (`noria_rows_add_row`) and `noria_lookup` injects. Rows go back through
  `Value::from_datatype`. Blobs are lost on both ways, and differently.

  What the code computes with doubles is a parameter (`Doubles`), of which `Doubles.Lawful` says
  what the arithmetic of doubles guarantees. `exactDoubles` computes with the numbers themselves.
-/

namespace Noria.Ffi

open Noria.Sqlite (saturate NineDecimals toInt_saturate)

/-! ## Model -/

def NORIA_NULL : Int := 0
def NORIA_INTEGER : Int := 1
def NORIA_FLOAT : Int := 2
def NORIA_TEXT : Int := 3
def NORIA_BLOB : Int := 4

/-- A single value for FFI. A pointer is the bytes it points to. -/
structure NoriaValue (F : Type) where
  value_type : Int
  int_value : Int64
  float_value : F
  text_ptr : Option (List UInt8)
  text_len : Int
  blob_ptr : Option (List UInt8)
  blob_len : Int

/-- The bytes at a pointer, unless it is null or the length is not positive. -/
def from_raw_parts (ptr : Option (List UInt8)) (len : Int) : Option (List UInt8) :=
  if len ≤ 0 then none else ptr.map fun bytes => bytes.take len.toNat

/-- What is computed with doubles. -/
structure Doubles (F : Type) where
  is_finite : F → Bool
  /-- `f.trunc() as i64` -/
  trunc : F → Int64
  /-- `(f.fract() * FLOAT_PRECISION).round() as i32` -/
  frac : F → Int32
  /-- `int_part as f64 + (frac_part as f64 / 1_000_000_000.0)` -/
  of_parts : Int64 → Int32 → F

section Conversions

variable {F : Type} (D : Doubles F)

/-- `From<f64> for DataType`; a number that is not finite panics. -/
def from_f64 (f : F) : Option DataType :=
  if !D.is_finite f then none
  else if D.frac f = 1000000000 then some (.real (D.trunc f + 1) 0)
  else if D.frac f = -1000000000 then some (.real (D.trunc f - 1) 0)
  else some (.real (D.trunc f) (D.frac f))

/-- Bytes as hex text. -/
def hex (bytes : List UInt8) : String :=
  String.ofList (bytes.flatMap fun b =>
    [Nat.digitChar (b.toNat / 16), Nat.digitChar (b.toNat % 16)])

-- `String::from_utf8_lossy`
variable (from_utf8_lossy : List UInt8 → String)

def NoriaValue.text (nv : NoriaValue F) : String :=
  match from_raw_parts nv.text_ptr nv.text_len with
  | none => ""
  | some slice => from_utf8_lossy slice

def noria_value_to_datatype (nv : NoriaValue F) : Option DataType :=
  if nv.value_type = NORIA_NULL then some .none
  else if nv.value_type = NORIA_INTEGER then some (.bigInt nv.int_value)
  else if nv.value_type = NORIA_FLOAT then from_f64 D nv.float_value
  else if nv.value_type = NORIA_TEXT then DataType.from_text (nv.text from_utf8_lossy)
  else if nv.value_type = NORIA_BLOB then
    match from_raw_parts nv.blob_ptr nv.blob_len with
    | none => some .none
    -- store blob as hex text for now
    | some slice => DataType.from_text (hex slice)
  else some .none

inductive Value (F : Type) where
  | null
  | int (i : Int64)
  | float (f : F)
  | text (s : String)
  | blob (b : List UInt8)

/-- A value in `noria_rows_add_row`. -/
def Value.of (nv : NoriaValue F) : Value F :=
  if nv.value_type = NORIA_NULL then .null
  else if nv.value_type = NORIA_INTEGER then .int nv.int_value
  else if nv.value_type = NORIA_FLOAT then .float nv.float_value
  else if nv.value_type = NORIA_TEXT then .text (nv.text from_utf8_lossy)
  else if nv.value_type = NORIA_BLOB then
    .blob ((from_raw_parts nv.blob_ptr nv.blob_len).getD [])
  else .null

/-- A value that `noria_lookup` injects into a view. -/
def Value.to_datatype : Value F → Option DataType
  | .null => some .none
  | .int i => some (.bigInt i)
  | .float f => from_f64 D f
  | .text s => DataType.from_text s
  -- simplified
  | .blob _ => some .none

def Value.from_datatype : DataType → Option (Value F)
  | .none => some .null
  | .int i => some (.int i.toInt64)
  | .bigInt i => some (.int i)
  | .unsignedInt u => some (.int u.toUInt64.toInt64)
  | .unsignedBigInt u => some (.int u.toInt64)
  | .real int_part frac_part => some (.float (D.of_parts int_part frac_part))
  | .text s => (DataType.text s).to_str.map .text
  | .tinyText s => (DataType.tinyText s).to_str.map .text
  | .timestamp _ => some .null

end Conversions

/-! ## Floats -/

section Floats

variable {F : Type} {D : Doubles F}

/-- The double of a decimal number with nine places and an `i64` before the point. -/
def Doubles.Decimal (D : Doubles F) (f : F) : Prop :=
  ∃ i n, -1000000000 < n.toInt ∧ n.toInt < 1000000000 ∧ f = D.of_parts i n

/-- **What doubles guarantee.** A fraction has at most nine places after it is rounded, and the
    double of a decimal number with nine places is the double of the decimal number it is read as:
    up to 2²² such numbers lie further apart than doubles do, and from 2²³ on doubles lie further
    apart than the rounding moves them. -/
structure Doubles.Lawful (D : Doubles F) : Prop where
  frac_bound : ∀ f, D.is_finite f = true →
    -1000000000 ≤ (D.frac f).toInt ∧ (D.frac f).toInt ≤ 1000000000
  stable : ∀ f, D.Decimal f → ∃ i n, from_f64 D f = some (.real i n) ∧ D.of_parts i n = f

theorem from_f64_some {f : F} {d : DataType} (hD : D.Lawful) (h : from_f64 D f = some d) :
    ∃ i n, d = .real i n ∧ -1000000000 < n.toInt ∧ n.toInt < 1000000000 := by
  unfold from_f64 at h
  split at h
  · cases h
  · next hfinite =>
    obtain ⟨hge, hle⟩ := hD.frac_bound f (by simpa using hfinite)
    split at h
    · cases h
      exact ⟨_, _, rfl, by decide, by decide⟩
    · next hcarry =>
      split at h
      · cases h
        exact ⟨_, _, rfl, by decide, by decide⟩
      · next hborrow =>
        cases h
        have hne : (D.frac f).toInt ≠ 1000000000 := fun heq => hcarry (Int32.toInt_inj.mp heq)
        have hne' : (D.frac f).toInt ≠ -1000000000 := fun heq => hborrow (Int32.toInt_inj.mp heq)
        exact ⟨_, _, rfl, by omega, by omega⟩

/-- **A float is given back** exactly if it is the double of a decimal number with nine places. -/
theorem float_returned_iff (hD : D.Lawful) (f : F) :
    (∃ d, from_f64 D f = some d ∧ Value.from_datatype D d = some (.float f)) ↔ D.Decimal f := by
  constructor
  · rintro ⟨d, hd, hback⟩
    obtain ⟨i, n, rfl, hgt, hlt⟩ := from_f64_some hD hd
    exact ⟨i, n, hgt, hlt, (Value.float.inj (Option.some.inj hback)).symm⟩
  · intro hdecimal
    obtain ⟨i, n, hread, hback⟩ := hD.stable f hdecimal
    exact ⟨_, hread, congrArg (fun f => some (Value.float f)) hback⟩

end Floats

/-! ### Exact numbers -/

/-- The numbers themselves. -/
def exactDoubles : Doubles ℚ where
  is_finite _ := true
  trunc f := saturate (truncate f)
  frac f := Int32.ofInt (roundAway (fraction f * 1000000000))
  of_parts int_part frac_part := int_part.toInt + frac_part.toInt / 1000000000

section Exact

variable {f : ℚ}

/-- With at most nine decimals the fraction is not rounded. -/
theorem from_f64_eq (h : NineDecimals f) :
    ∃ frac : Int32, from_f64 exactDoubles f = some (.real (saturate (truncate f)) frac) ∧
      (frac.toInt : ℚ) / 1000000000 = fraction f := by
  obtain ⟨m, hm, hgt, hlt⟩ := h.fraction
  have hround : roundAway (fraction f * 1000000000) = m := by rw [hm, roundAway_intCast]
  have hint : (Int32.ofInt m).toInt = m := Int32.toInt_ofInt_of_le (by omega) (by omega)
  refine ⟨Int32.ofInt m, ?_, ?_⟩
  · have hcarry : Int32.ofInt m ≠ 1000000000 := by
      intro heq
      rw [heq] at hint
      exact absurd hint (by show (1000000000 : Int) ≠ m; omega)
    have hborrow : Int32.ofInt m ≠ -1000000000 := by
      intro heq
      rw [heq] at hint
      exact absurd hint (by show (-1000000000 : Int) ≠ m; omega)
    have hfrac : exactDoubles.frac f = Int32.ofInt m := by
      rw [← hround]
      rfl
    unfold from_f64
    rw [hfrac, if_neg hcarry, if_neg hborrow]
    rfl
  · rw [hint, ← hm]
    field_simp

/-- A float is given back if its integer part is an `i64`. -/
theorem float_round_trip_iff (h : NineDecimals f) :
    (∃ d, from_f64 exactDoubles f = some d ∧
      Value.from_datatype exactDoubles d = some (.float f)) ↔
      -2 ^ 63 ≤ truncate f ∧ truncate f < 2 ^ 63 := by
  obtain ⟨frac, hreal, hfrac⟩ := from_f64_eq h
  have hback : (∃ d, from_f64 exactDoubles f = some d ∧
      Value.from_datatype exactDoubles d = some (.float f)) ↔
      ((saturate (truncate f)).toInt : ℚ) + (frac.toInt : ℚ) / 1000000000 = f := by
    constructor
    · rintro ⟨d, hd, hback⟩
      rw [hreal] at hd
      cases hd
      exact Value.float.inj (Option.some.inj hback)
    · intro heq
      exact ⟨_, hreal, congrArg (fun f => some (Value.float f)) heq⟩
  rw [hback, hfrac]
  have hsplit := truncate_add_fraction f
  have hcast : ((saturate (truncate f)).toInt : ℚ) + fraction f = f ↔
      (saturate (truncate f)).toInt = truncate f := by
    rw [← @Int.cast_inj ℚ]
    constructor <;> intro heq <;> linarith
  rw [hcast, toInt_saturate]
  split
  · omega
  · split <;> omega

theorem roundAway_bound {q : ℚ} (h : |q| < 1000000000) :
    -1000000000 ≤ roundAway q ∧ roundAway q ≤ 1000000000 := by
  obtain ⟨hgt, hlt⟩ := abs_lt.mp h
  unfold roundAway
  split
  · constructor
    · exact Int.le_floor.mpr (by push_cast; linarith)
    · exact Int.le_of_lt_add_one (Int.floor_lt.mpr (by push_cast; linarith))
  · constructor
    · exact Int.le_of_sub_one_lt (Int.lt_ceil.mpr (by push_cast; linarith))
    · exact Int.ceil_le.mpr (by push_cast; linarith)

theorem exactDoubles_lawful : exactDoubles.Lawful where
  frac_bound f _ := by
    have habs : |fraction f * 1000000000| < 1000000000 := by
      rw [abs_mul, abs_of_pos (by norm_num : (0 : ℚ) < 1000000000)]
      linarith [abs_fraction_lt_one f]
    obtain ⟨hge, hle⟩ := roundAway_bound habs
    show -1000000000 ≤ (Int32.ofInt _).toInt ∧ (Int32.ofInt _).toInt ≤ 1000000000
    rw [Int32.toInt_ofInt_of_le (by omega) (by omega)]
    exact ⟨hge, hle⟩
  stable f := by
    rintro ⟨i, n, hgt, hlt, hf⟩
    replace hf : f = (i.toInt : ℚ) + (n.toInt : ℚ) / 1000000000 := hf
    have hnine : NineDecimals f := ⟨i.toInt * 1000000000 + n.toInt, by
      rw [hf]
      push_cast
      field_simp⟩
    have hi := i.toInt_lt
    have hi' : ((-2 ^ 63 : ℤ) : ℚ) ≤ i.toInt := Int.cast_le.mpr i.le_toInt
    have hi'' : (i.toInt : ℚ) ≤ ((2 ^ 63 - 1 : ℤ) : ℚ) := Int.cast_le.mpr (by omega)
    have hgt' : ((-1000000000 : ℤ) : ℚ) < n.toInt := Int.cast_lt.mpr hgt
    have hlt' : (n.toInt : ℚ) < ((1000000000 : ℤ) : ℚ) := Int.cast_lt.mpr hlt
    push_cast at hi' hi'' hgt' hlt'
    have hrange : -2 ^ 63 ≤ truncate f ∧ truncate f < 2 ^ 63 := by
      refine truncate_range (by decide) (by decide) ?_ ?_
      · rw [hf]
        push_cast
        linarith
      · rw [hf]
        push_cast
        linarith
    obtain ⟨frac, hreal, -⟩ := from_f64_eq hnine
    obtain ⟨d, hd, hback⟩ := (float_round_trip_iff hnine).mpr hrange
    rw [hreal] at hd
    cases hd
    exact ⟨_, _, hreal, Value.float.inj (Option.some.inj hback)⟩

end Exact

/-! ## Texts and blobs -/

section Texts

variable {F : Type} (D : Doubles F)

theorem text_round_trip {s : String} :
    (∃ d, DataType.from_text s = some d ∧ Value.from_datatype D d = some (.text s)) ↔
      Kept (as_bytes s) := by
  rw [← from_text_round_trip_iff]
  have hback : ∀ d, Value.from_datatype D d = some (.text s) ↔ d.to_str = some s := by
    intro d
    cases d with
    | text a => simp [Value.from_datatype]
    | tinyText a => simp [Value.from_datatype]
    | _ => simp [Value.from_datatype, DataType.to_str]
  simp only [hback]

theorem from_datatype_ne_blob (d : DataType) (b : List UInt8) :
    Value.from_datatype D d ≠ some (.blob b) := by
  cases d <;> simp [Value.from_datatype]

end Texts

/-! ## Values -/

/-- The values that are stored alike on both ways and given back. -/
def Carried (from_utf8_lossy : List UInt8 → String) (nv : NoriaValue ℚ) : Prop :=
  nv.value_type ≠ NORIA_BLOB ∧
    (nv.value_type = NORIA_FLOAT →
      -2 ^ 63 ≤ truncate nv.float_value ∧ truncate nv.float_value < 2 ^ 63) ∧
    (nv.value_type = NORIA_TEXT → Kept (as_bytes (nv.text from_utf8_lossy)))

/-- **Which values are consistent and faithful.** -/
theorem ffi_value_carried_iff (from_utf8_lossy : List UInt8 → String) (nv : NoriaValue ℚ)
    (hfloat : nv.value_type = NORIA_FLOAT → NineDecimals nv.float_value) :
    (noria_value_to_datatype exactDoubles from_utf8_lossy nv =
        (Value.of from_utf8_lossy nv).to_datatype exactDoubles ∧
      ∃ d, noria_value_to_datatype exactDoubles from_utf8_lossy nv = some d ∧
        Value.from_datatype exactDoubles d = some (Value.of from_utf8_lossy nv)) ↔
      Carried from_utf8_lossy nv := by
  unfold Carried noria_value_to_datatype Value.of
  by_cases h0 : nv.value_type = NORIA_NULL
  · simp [h0, NORIA_NULL, NORIA_BLOB, NORIA_FLOAT, NORIA_TEXT, Value.to_datatype,
      Value.from_datatype]
  by_cases h1 : nv.value_type = NORIA_INTEGER
  · simp [h1, NORIA_NULL, NORIA_INTEGER, NORIA_BLOB, NORIA_FLOAT, NORIA_TEXT, Value.to_datatype,
      Value.from_datatype]
  by_cases h2 : nv.value_type = NORIA_FLOAT
  · rw [← float_round_trip_iff (hfloat h2)]
    simp [h2, NORIA_NULL, NORIA_INTEGER, NORIA_BLOB, NORIA_FLOAT, NORIA_TEXT, Value.to_datatype]
  by_cases h3 : nv.value_type = NORIA_TEXT
  · rw [← text_round_trip exactDoubles]
    simp [h3, NORIA_NULL, NORIA_INTEGER, NORIA_BLOB, NORIA_FLOAT, NORIA_TEXT, Value.to_datatype]
  by_cases h4 : nv.value_type = NORIA_BLOB
  · simp only [if_neg h0, if_neg h1, if_neg h2, if_neg h3, if_pos h4]
    refine iff_of_false ?_ (fun h => h.1 h4)
    rintro ⟨-, d, -, hd⟩
    exact from_datatype_ne_blob _ d _ hd
  · simp [h0, h1, h2, h3, h4, Value.to_datatype, Value.from_datatype]

def someValue (value_type : Int) : NoriaValue ℚ where
  value_type := value_type
  int_value := 7
  float_value := -1 / 2
  text_ptr := some [104, 105]
  text_len := 2
  blob_ptr := some [1, 2]
  blob_len := 2

def ascii (bytes : List UInt8) : String := (decode_utf8 bytes).getD ""

/-- Minus a half is carried. -/
theorem minus_half_is_carried :
    noria_value_to_datatype exactDoubles ascii (someValue NORIA_FLOAT) =
        (Value.of ascii (someValue NORIA_FLOAT)).to_datatype exactDoubles ∧
      ∃ d, noria_value_to_datatype exactDoubles ascii (someValue NORIA_FLOAT) = some d ∧
        Value.from_datatype exactDoubles d = some (Value.of ascii (someValue NORIA_FLOAT)) := by
  have htrunc : truncate (-1 / 2) = 0 := by
    have hhalf : truncate (1 / 2) = 0 := truncate_eq (by norm_num) (by norm_num) (by norm_num)
    rw [neg_div, truncate_neg, hhalf]
    rfl
  refine (ffi_value_carried_iff ascii (someValue NORIA_FLOAT) ?_).mpr ⟨by decide, ?_, ?_⟩
  · intro _
    exact ⟨-500000000, by norm_num [someValue]⟩
  · intro _
    show -2 ^ 63 ≤ truncate (-1 / 2) ∧ truncate (-1 / 2) < 2 ^ 63
    rw [htrunc]
    decide
  · intro h
    exact absurd h (by decide)

/-- A blob is hex text on one way and NULL on the other. -/
theorem blob_is_lost :
    (∃ d, noria_value_to_datatype exactDoubles ascii (someValue NORIA_BLOB) = some d ∧
      d.kind = .text) ∧
      (Value.of ascii (someValue NORIA_BLOB)).to_datatype exactDoubles = some .none :=
  ⟨⟨_, rfl, rfl⟩, rfl⟩

end Noria.Ffi

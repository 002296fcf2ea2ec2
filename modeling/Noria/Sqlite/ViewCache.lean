import Mathlib.Data.List.DropRight
import Noria.Framework.Decimal
import Noria.Framework.Frames
import Noria.Text

/-! # Rows in the view cache

  `noria-sqlite/src/view_cache.rs` keeps rows as bytes: the number of values, and then each value as
  a frame around a tagged text. Most values are read back from their text. A timestamp goes through
  its nanoseconds since 1970, which lose a leap second, become 1970 outside of what an `i64` holds,
  and are split by a division that rounds towards zero. What `chrono` does is a parameter, with the
  laws that it documents.
-/

namespace Noria.Sqlite

open List Option

variable {row : Row} {d : DataType} {bytes : List UInt8}

/-! ## Model -/

/-- `trim_end_matches('\0')`. -/
def trim_end_nul (s : String) : String :=
  String.ofList (s.toList.rdropWhile fun c => c == Char.ofNat 0)

/-- What is used of `chrono`, as documented. -/
structure Chrono where
  timestamp_nanos_opt : NaiveDateTime → Option Int64
  from_timestamp : Int64 → UInt32 → Option NaiveDateTime
  /-- The nanoseconds since 1970, if an `i64` holds them. -/
  timestamp_nanos_opt_iff : ∀ t n, t.nanos.val < 1000000000 →
    (timestamp_nanos_opt t = some n ↔ n.toInt = t.secs * 1000000000 + t.nanos.val)
  /-- The date is the one that was asked for. -/
  from_timestamp_eq : ∀ secs nsecs t, from_timestamp secs nsecs = some t →
    t.secs = secs.toInt ∧ t.nanos.val = nsecs.toNat
  /-- There is a date for every second from 1678 to 2261, and more. -/
  from_timestamp_isSome : ∀ (secs : Int64) (nsecs : UInt32), nsecs.toNat < 1000000000 →
    -2 ^ 63 ≤ secs.toInt * 1000000000 + nsecs.toNat →
    secs.toInt * 1000000000 + nsecs.toNat < 2 ^ 63 → (from_timestamp secs nsecs).isSome

section Code

variable (C : Chrono)

def serialize_datatype : DataType → String
  | .none => "N"
  | .int i => "I" ++ toString i.toInt
  | .unsignedInt u => "U" ++ toString u.toNat
  | .bigInt i => "B" ++ toString i.toInt
  | .unsignedBigInt u => "G" ++ toString u.toNat
  | .real int frac => "R" ++ toString int.toInt ++ "_" ++ toString frac.toInt
  | .text s => "T" ++ (decode_utf8 s.bytes).getD ""
  | .tinyText arr => "t" ++ trim_end_nul ((decode_utf8 arr.bytes).getD "")
  | .timestamp ts => "S" ++ toString ((C.timestamp_nanos_opt ts).getD 0).toInt

/-- The text after the tag `R`. -/
def deserialize_real (rest : List Char) : DataType :=
  match rest.splitOn '_' with
  | [int, frac] =>
    match parseSigned 64 int, parseSigned 32 frac with
    | some int, some frac => .real (Int64.ofInt int) (Int32.ofInt frac)
    | _, _ => .none
  | _ => .none

/-- The text after the tag `S`. `/` and `%` round towards zero, and the
    remainder is cast to a `u32`. -/
def deserialize_timestamp (rest : List Char) : DataType :=
  match parseSigned 64 rest with
  | some nanos =>
    match C.from_timestamp (Int64.ofInt (nanos.tdiv 1000000000))
        (UInt32.ofNat ((nanos.tmod 1000000000) % 2 ^ 32).toNat) with
    | some dt => .timestamp dt
    | none => .none
  | none => .none

/-- The value with a tag. `DataType::from` panics on a text that is no `DataType`. -/
def deserialize_tagged (tag : Char) (rest : List Char) : Option DataType :=
  if tag = 'N' then some .none
  else if tag = 'I' then
    some (((parseSigned 32 rest).map fun n => .int (Int32.ofInt n)).getD .none)
  else if tag = 'U' then
    some (((parseUnsigned 32 rest).map fun n => .unsignedInt (UInt32.ofNat n)).getD .none)
  else if tag = 'B' then
    some (((parseSigned 64 rest).map fun n => .bigInt (Int64.ofInt n)).getD .none)
  else if tag = 'G' then
    some (((parseUnsigned 64 rest).map fun n => .unsignedBigInt (UInt64.ofNat n)).getD .none)
  else if tag = 'R' then some (deserialize_real rest)
  else if tag = 'T' ∨ tag = 't' then DataType.from_text (String.ofList rest)
  else if tag = 'S' then some (deserialize_timestamp C rest)
  else some .none

/-- Deserialize a DataType from a string. `split_at(1)` panics if the first
    character is not one byte long. -/
def deserialize_datatype (s : String) : Option DataType :=
  match s.toList with
  | [] => some .none
  | tag :: rest => if 128 ≤ tag.toNat then none else deserialize_tagged C tag rest

def serialize_row (row : Row) : List UInt8 :=
  to_le_bytes row.length ++ row.flatMap fun dt => frame (as_bytes (serialize_datatype C dt))

/-- The loop over the values, which stops at the end of the bytes. -/
def deserialize_values : Nat → List UInt8 → Option Row
  | 0, _ => some []
  | count + 1, bytes =>
    match readFrame bytes with
    | none => some []
    | some (value, rest) => do
      let dt ← deserialize_datatype C ((decode_utf8 value).getD "")
      let dts ← deserialize_values count rest
      some (dt :: dts)

def deserialize_row : List UInt8 → Option Row
  | a :: b :: c :: d :: bytes => deserialize_values C (from_le_bytes a b c d) bytes
  | _ => some []

end Code

/-! ## Values -/

/-- No leap second, and within the nanoseconds of an `i64`. -/
def InNanos (t : NaiveDateTime) : Prop :=
  t.nanos.val < 1000000000 ∧
    -2 ^ 63 ≤ t.secs * 1000000000 + t.nanos.val ∧ t.secs * 1000000000 + t.nanos.val < 2 ^ 63

/-- The timestamps that are kept: those, but not a fraction of a second before 1970. -/
def KeptTimestamp (t : NaiveDateTime) : Prop := InNanos t ∧ (0 ≤ t.secs ∨ t.nanos.val = 0)

instance (t : NaiveDateTime) : Decidable (InNanos t) := inferInstanceAs (Decidable (_ ∧ _))

instance (t : NaiveDateTime) : Decidable (KeptTimestamp t) := inferInstanceAs (Decidable (_ ∧ _))

theorem split_nanos (n : Int) : n = 1000000000 * n.tdiv 1000000000 + n.tmod 1000000000 ∧
    n.tmod 1000000000 < 1000000000 ∧ -1000000000 < n.tmod 1000000000 ∧
    (0 ≤ n → 0 ≤ n.tmod 1000000000) ∧ (n ≤ 0 → n.tmod 1000000000 ≤ 0) := by
  refine ⟨(Int.mul_tdiv_add_tmod n _).symm, Int.tmod_lt_of_pos n (by decide),
    Int.lt_tmod_of_pos n (by decide), Int.tmod_nonneg _, ?_⟩
  intro h
  have hneg := Int.tmod_nonneg (a := -n) 1000000000 (by omega)
  rw [Int.neg_tmod] at hneg
  omega

section Chrono

variable {C : Chrono}

theorem InNanos.nanos {t : NaiveDateTime} (h : InNanos t) :
    ((C.timestamp_nanos_opt t).getD 0).toInt = t.secs * 1000000000 + t.nanos.val := by
  have hint := Int64.toInt_ofInt_of_le h.2.1 h.2.2
  rw [(C.timestamp_nanos_opt_iff t _ h.1).mpr hint, getD_some, hint]

theorem from_timestamp_nanos_iff (t : NaiveDateTime) {n : Int64}
    (hn : (C.timestamp_nanos_opt t).getD 0 = n) :
    C.from_timestamp (Int64.ofInt (n.toInt.tdiv 1000000000))
      (UInt32.ofNat (n.toInt.tmod 1000000000 % 2 ^ 32).toNat) = some t ↔ KeptTimestamp t := by
  have hle := n.le_toInt
  have hlt := n.toInt_lt
  obtain ⟨hsplit, hrlt, hrgt, hpos, hneg⟩ := split_nanos n.toInt
  have hsecs : (Int64.ofInt (n.toInt.tdiv 1000000000)).toInt = n.toInt.tdiv 1000000000 :=
    Int64.toInt_ofInt_of_le (by omega) (by omega)
  have hnsecs : (UInt32.ofNat (n.toInt.tmod 1000000000 % 2 ^ 32).toNat).toNat =
      (n.toInt.tmod 1000000000 % 2 ^ 32).toNat := by
    have hcast : (n.toInt.tmod 1000000000 % 2 ^ 32).toNat < 2 ^ 32 := by omega
    rw [UInt32.toNat_ofNat', Nat.mod_eq_of_lt hcast]
  constructor
  · intro h
    obtain ⟨h₁, h₂⟩ := C.from_timestamp_eq _ _ _ h
    rw [hsecs] at h₁
    rw [hnsecs] at h₂
    have hnanos := t.nanos.isLt
    -- a negative remainder is cast to more than any nanosecond
    refine ⟨⟨?_, ?_, ?_⟩, ?_⟩ <;> omega
  · rintro ⟨hin, hwhole⟩
    have hnanos : n.toInt = t.secs * 1000000000 + t.nanos.val := by
      rw [← hn]
      exact hin.nanos
    obtain ⟨hlow, -⟩ := hin
    have hsome := C.from_timestamp_isSome (Int64.ofInt (n.toInt.tdiv 1000000000))
      (UInt32.ofNat (n.toInt.tmod 1000000000 % 2 ^ 32).toNat)
    rw [hsecs, hnsecs] at hsome
    obtain ⟨t', ht'⟩ := isSome_iff_exists.mp (hsome (by omega) (by omega) (by omega))
    obtain ⟨h₁, h₂⟩ := C.from_timestamp_eq _ _ _ ht'
    rw [hsecs] at h₁
    rw [hnsecs] at h₂
    rw [ht', some.injEq, NaiveDateTime.eq_iff]
    omega

/-- A tag is one character. -/
theorem deserialize_append {pre : String} (tag : Char) (hpre : pre.toList = [tag])
    (hascii : tag.toNat < 128) (s : String) :
    deserialize_datatype C (pre ++ s) = deserialize_tagged C tag s.toList := by
  unfold deserialize_datatype
  rw [String.toList_append, hpre]
  exact if_neg (Nat.not_le.mpr hascii)

theorem deserialize_real_eq (int : Int64) (frac : Int32) :
    deserialize_real (toString int.toInt ++ "_" ++ toString frac.toInt).toList =
      .real int frac := by
  have hfree : ∀ n : Int, '_' ∉ (toString n).toList := by
    intro n hmem
    rcases mem_toString hmem with h | h <;> exact absurd h (by decide)
  have hsplit : ((toString int.toInt ++ "_" ++ toString frac.toInt).toList).splitOn '_' =
      [(toString int.toInt).toList, (toString frac.toInt).toList] := by
    have hcat : (toString int.toInt ++ "_" ++ toString frac.toInt).toList =
        ['_'].intercalate [(toString int.toInt).toList, (toString frac.toInt).toList] := by
      simp [List.intercalate]
    rw [hcat]
    apply splitOn_intercalate
    · intro l hl
      simp only [mem_cons, not_mem_nil, or_false] at hl
      rcases hl with rfl | rfl <;> exact hfree _
    · exact cons_ne_nil _ _
  have hint := parseSigned_toString 64 ⟨int.le_toInt, int.toInt_lt⟩
  have hfrac := parseSigned_toString 32 ⟨frac.le_toInt, frac.toInt_lt⟩
  unfold deserialize_real
  rw [hsplit]
  simp only [hint, hfrac, Int64.ofInt_toInt, Int32.ofInt_toInt]

theorem exists_as_bytes_trim (s : String) :
    ∃ k, as_bytes s = as_bytes (trim_end_nul s) ++ List.replicate k 0 := by
  refine ⟨(s.toList.rtakeWhile fun c => c == Char.ofNat 0).length, ?_⟩
  have hnul : ∀ c ∈ s.toList.rtakeWhile fun c => c == Char.ofNat 0, c = Char.ofNat 0 := by
    intro c hc
    have htake := mem_rtakeWhile_imp hc
    exact beq_iff_eq.mp htake
  unfold trim_end_nul
  rw [← flatMap_nul hnul, as_bytes_ofList, ← flatMap_append,
    rdropWhile_append_rtakeWhile, as_bytes_eq_flatMap]

/-- **Every value but some timestamps is read back.** -/
theorem deserialize_serialize (hbuilt : d.Built) (htime : ∀ t, d ≠ .timestamp t) :
    deserialize_datatype C (serialize_datatype C d) = some d := by
  cases d with
  | none =>
    rw [serialize_datatype]
    rfl
  | int v =>
    rw [serialize_datatype, deserialize_append 'I' rfl (by decide)]
    show some (((parseSigned 32 _).map fun n => DataType.int (Int32.ofInt n)).getD .none) = _
    rw [parseSigned_toString 32 ⟨v.le_toInt, v.toInt_lt⟩, map_some, getD_some,
      Int32.ofInt_toInt]
  | unsignedInt v =>
    rw [serialize_datatype, deserialize_append 'U' rfl (by decide)]
    show some (((parseUnsigned 32 _).map fun n => DataType.unsignedInt (UInt32.ofNat n)).getD
      .none) = _
    rw [parseUnsigned_toString 32 v.toNat_lt, map_some, getD_some, UInt32.ofNat_toNat]
  | bigInt v =>
    rw [serialize_datatype, deserialize_append 'B' rfl (by decide)]
    show some (((parseSigned 64 _).map fun n => DataType.bigInt (Int64.ofInt n)).getD .none) = _
    rw [parseSigned_toString 64 ⟨v.le_toInt, v.toInt_lt⟩, map_some, getD_some,
      Int64.ofInt_toInt]
  | unsignedBigInt v =>
    rw [serialize_datatype, deserialize_append 'G' rfl (by decide)]
    show some (((parseUnsigned 64 _).map fun n => DataType.unsignedBigInt (UInt64.ofNat n)).getD
      .none) = _
    rw [parseUnsigned_toString 64 v.toNat_lt, map_some, getD_some, UInt64.ofNat_toNat]
  | real i f =>
    rw [serialize_datatype, String.append_assoc, String.append_assoc,
      deserialize_append 'R' rfl (by decide), ← String.append_assoc]
    show some (deserialize_real _) = _
    rw [deserialize_real_eq]
  | text s =>
    obtain ⟨t, ht⟩ := hbuilt.text
    rw [serialize_datatype, deserialize_append 'T' rfl (by decide), decode_utf8_eq_some.mpr ht]
    show DataType.from_text (String.ofList t.toList) = _
    rw [String.ofList_toList, DataType.from_text, ht, try_from_text]
    rfl
  | tinyText arr =>
    obtain ⟨t, k, harr⟩ := hbuilt.tinyText
    rw [← as_bytes_padNul] at harr
    obtain ⟨k', htrim⟩ := exists_as_bytes_trim (padNul t k)
    rw [serialize_datatype, deserialize_append 't' rfl (by decide),
      decode_utf8_eq_some.mpr harr.symm]
    show DataType.from_text (String.ofList (trim_end_nul (padNul t k)).toList) = _
    rw [String.ofList_toList, DataType.from_text, try_from_of_pad (harr.trans htrim)]
    rfl
  | timestamp t => exact absurd rfl (htime t)

/-- Timestamps are read back as some value, and as themselves if they are kept. -/
theorem deserialize_timestamp_iff (t : NaiveDateTime) :
    ∃ d, deserialize_datatype C (serialize_datatype C (.timestamp t)) = some d ∧
      (d.val = .timestamp t ↔ KeptTimestamp t) := by
  rw [serialize_datatype, deserialize_append 'S' rfl (by decide)]
  show ∃ d, some (deserialize_timestamp C _) = some d ∧ _
  obtain ⟨n, hn⟩ : ∃ n, (C.timestamp_nanos_opt t).getD 0 = n := ⟨_, rfl⟩
  rw [hn]
  unfold deserialize_timestamp
  rw [parseSigned_toString 64 ⟨n.le_toInt, n.toInt_lt⟩, ← from_timestamp_nanos_iff t hn]
  refine ⟨_, rfl, ?_⟩
  simp only
  split
  · next dt hdt =>
    show Value.timestamp dt = .timestamp t ↔ _
    rw [hdt, Value.timestamp.injEq, Option.some.injEq]
  · next hnone =>
    rw [hnone]
    exact iff_of_false (fun h => by cases h) (fun h => by cases h)

/-- The values that are kept in a row: a text must fit in a frame with its tag. -/
def KeptValue : DataType → Prop
  | .text s => s.bytes.length + 1 < 2 ^ 32
  | .timestamp t => KeptTimestamp t
  | _ => True

theorem length_decimal_le {n : Int} (hle : -2 ^ 64 ≤ n) (hlt : n < 2 ^ 64) :
    (as_bytes (toString n)).length ≤ 84 := by
  have hlen := length_toString_le (k := 20) (by decide) (show n.natAbs < 10 ^ 20 by omega)
  exact (length_as_bytes_le _).trans (by omega)

theorem length_serialize_lt (hbuilt : d.Built) (htext : ∀ s, d ≠ .text s) :
    (as_bytes (serialize_datatype C d)).length < 2 ^ 32 := by
  -- a tag and one decimal text
  have hdecimal : ∀ (tag : String) (n : Int), (as_bytes tag).length = 1 → -2 ^ 64 ≤ n →
      n < 2 ^ 64 → (as_bytes (tag ++ toString n)).length < 2 ^ 32 := by
    intro tag n htag hle hlt
    have hlen := length_decimal_le hle hlt
    rw [as_bytes_append, length_append]
    omega
  cases d with
  | none =>
    rw [serialize_datatype]
    decide
  | int v =>
    have hle := v.le_toInt
    have hlt := v.toInt_lt
    exact hdecimal "I" _ rfl (by omega) (by omega)
  | unsignedInt v =>
    have hlt := v.toNat_lt
    exact hdecimal "U" v.toNat rfl (by omega) (by omega)
  | bigInt v =>
    have hle := v.le_toInt
    have hlt := v.toInt_lt
    exact hdecimal "B" _ rfl (by omega) (by omega)
  | unsignedBigInt v =>
    have hlt := v.toNat_lt
    exact hdecimal "G" v.toNat rfl (by omega) (by omega)
  | real i f =>
    have hint := length_decimal_le (n := i.toInt) (by have := i.le_toInt; omega)
      (by have := i.toInt_lt; omega)
    have hfrac := length_decimal_le (n := f.toInt) (by have := f.le_toInt; omega)
      (by have := f.toInt_lt; omega)
    have htag : (as_bytes "R").length = 1 := rfl
    have hsep : (as_bytes "_").length = 1 := rfl
    simp only [serialize_datatype, as_bytes_append, length_append]
    omega
  | text s => exact absurd rfl (htext s)
  | tinyText arr =>
    obtain ⟨t, k, harr⟩ := hbuilt.tinyText
    rw [← as_bytes_padNul] at harr
    obtain ⟨k', htrim⟩ := exists_as_bytes_trim (padNul t k)
    have hwidth := arr.width
    rw [harr, htrim, length_append] at hwidth
    have htag : (as_bytes "t").length = 1 := rfl
    rw [serialize_datatype, decode_utf8_eq_some.mpr harr.symm, getD_some,
      as_bytes_append, length_append, htag]
    have hfit : TINYTEXT_WIDTH = 15 := rfl
    omega
  | timestamp t =>
    have hle := ((C.timestamp_nanos_opt t).getD 0).le_toInt
    have hlt := ((C.timestamp_nanos_opt t).getD 0).toInt_lt
    exact hdecimal "S" _ rfl (by omega) (by omega)

theorem length_serialize_text {s : ArcCStr} (hbuilt : (DataType.text s).Built) :
    (as_bytes (serialize_datatype C (.text s))).length = s.bytes.length + 1 := by
  obtain ⟨t, ht⟩ := hbuilt.text
  have htag : (as_bytes "T").length = 1 := rfl
  rw [serialize_datatype, decode_utf8_eq_some.mpr ht, getD_some, as_bytes_append,
    length_append, htag, ht]
  omega

theorem from_text_of_deserialize {tag : Char} {rest : List Char}
    (h : deserialize_tagged C tag rest = some d) (hval : d.val = .text bytes) :
    DataType.from_text (String.ofList rest) = some d := by
  have hnum : ∀ {α : Type} (o : Option α) (f : α → DataType), (∀ a, (f a).val ≠ .text bytes) →
      some ((o.map f).getD .none) ≠ some d := by
    rintro α (_ | a) f hf ⟨⟩
    · cases hval
    · exact hf a hval
  unfold deserialize_tagged at h
  split at h
  · cases h
    cases hval
  split at h
  · exact absurd h (hnum _ _ fun _ => by simp [DataType.val])
  split at h
  · exact absurd h (hnum _ _ fun _ => by simp [DataType.val])
  split at h
  · exact absurd h (hnum _ _ fun _ => by simp [DataType.val])
  split at h
  · exact absurd h (hnum _ _ fun _ => by simp [DataType.val])
  split at h
  · cases h
    unfold deserialize_real at hval
    split at hval
    · split at hval <;> cases hval
    · cases hval
  split at h
  · exact h
  split at h
  · cases h
    unfold deserialize_timestamp at hval
    split at hval
    · split at hval <;> cases hval
    · cases hval
  · cases h
    cases hval

theorem length_of_deserialize {s : String} (h : deserialize_datatype C s = some d)
    (hval : d.val = .text bytes) : bytes.length + 1 ≤ (as_bytes s).length := by
  rw [as_bytes_eq_flatMap]
  unfold deserialize_datatype at h
  split at h
  · cases h
    cases hval
  · next tag rest hs =>
    split at h
    · cases h
    · have hstr := from_text_of_deserialize h hval
      cases d with
      | text a =>
        cases hval
        rw [hs, flatMap_cons, length_append, String.length_utf8EncodeChar,
          ← as_bytes_ofList, as_bytes_of_from_text hstr]
        have htag := tag.utf8Size_pos
        omega
      | _ => cases hval

/-! ## Rows -/

/-- What a value is read back as from its frame. -/
theorem deserialize_value (hbuilt : d.Built)
    (hfit : (as_bytes (serialize_datatype C d)).length < 2 ^ 32) :
    ∃ d', deserialize_datatype C (serialize_datatype C d) = some d' ∧
      (d'.val = d.val ↔ KeptValue d) := by
  cases d with
  | timestamp t => exact deserialize_timestamp_iff t
  | text s =>
    rw [length_serialize_text hbuilt] at hfit
    exact ⟨_, deserialize_serialize hbuilt (by simp), iff_of_true rfl hfit⟩
  | _ => exact ⟨_, deserialize_serialize hbuilt (by simp), iff_of_true rfl trivial⟩

theorem deserialize_part {d' : DataType} {part : List UInt8} (hbuilt : d.Built)
    (hlong : 2 ^ 32 ≤ (as_bytes (serialize_datatype C d)).length)
    (hpart : part.length < (as_bytes (serialize_datatype C d)).length)
    (h : deserialize_datatype C ((decode_utf8 part).getD "") = some d') : d'.val ≠ d.val := by
  intro hval
  by_cases htext : ∃ s, d = .text s
  · obtain ⟨s, rfl⟩ := htext
    rw [length_serialize_text hbuilt] at hpart
    have hlen := length_of_deserialize h hval
    have hle : (as_bytes ((decode_utf8 part).getD "")).length ≤ part.length := by
      cases hutf : decode_utf8 part with
      | none => exact Nat.zero_le _
      | some t =>
        rw [getD_some, decode_utf8_eq_some.mp hutf]
    omega
  · have hlt := length_serialize_lt (C := C) hbuilt fun s hs => htext ⟨s, hs⟩
    omega

theorem not_keptValue (hbuilt : d.Built)
    (hlong : 2 ^ 32 ≤ (as_bytes (serialize_datatype C d)).length) : ¬ KeptValue d := by
  by_cases htext : ∃ s, d = .text s
  · obtain ⟨s, rfl⟩ := htext
    rw [length_serialize_text hbuilt] at hlong
    exact Nat.not_lt.mpr hlong
  · have hlt := length_serialize_lt (C := C) hbuilt fun s hs => htext ⟨s, hs⟩
    omega

theorem deserialize_values_iff (hbuilt : ∀ d ∈ row, d.Built) :
    (∃ r, deserialize_values C row.length
        (row.flatMap fun dt => frame (as_bytes (serialize_datatype C dt))) = some r ∧
      Row.val r = Row.val row) ↔ ∀ d ∈ row, KeptValue d := by
  induction row with
  | nil => exact iff_of_true ⟨[], rfl, rfl⟩ (by simp)
  | cons d row ih =>
    have hd := hbuilt d mem_cons_self
    have ih := ih (forall_mem_cons.mp hbuilt).2
    rw [forall_mem_cons, ← ih, length_cons, flatMap_cons, deserialize_values]
    by_cases hfit : (as_bytes (serialize_datatype C d)).length < 2 ^ 32
    · obtain ⟨d', hd', hkept⟩ := deserialize_value hd hfit
      rw [readFrame_append hfit, ← hkept]
      simp only [decode_utf8_as_bytes, getD_some, hd', bind_eq_bind, bind_some]
      constructor
      · rintro ⟨r, hr, hval⟩
        rw [bind_eq_some_iff] at hr
        obtain ⟨r', hr', hcons⟩ := hr
        cases hcons
        rw [Row.val_cons, Row.val_cons, cons_eq_cons] at hval
        exact ⟨hval.1, r', hr', hval.2⟩
      · rintro ⟨hval, r', hr', hvals⟩
        refine ⟨d' :: r', ?_, ?_⟩
        · rw [hr', bind_some]
        · rw [Row.val_cons, Row.val_cons, hval, hvals]
    · -- the length is cut, and what is read is not the value
      rw [Nat.not_lt] at hfit
      refine iff_of_false ?_ (fun h => not_keptValue hd hfit h.1)
      obtain ⟨part, rest', hread, hpart⟩ := readFrame_long hfit
        (row.flatMap fun dt => frame (as_bytes (serialize_datatype C dt)))
      rintro ⟨r, hr, hval⟩
      simp only [hread, bind_eq_bind, bind_eq_some_iff] at hr
      obtain ⟨d', hd', r', -, hcons⟩ := hr
      cases hcons
      rw [Row.val_cons, Row.val_cons, cons_eq_cons] at hval
      exact deserialize_part hd hfit hpart hd' hval.1

theorem length_deserialize_values {count : Nat} {r : Row}
    (h : deserialize_values C count bytes = some r) : r.length ≤ count := by
  induction count generalizing bytes r with
  | zero =>
    cases h
    exact Nat.le_refl _
  | succ count ih =>
    rw [deserialize_values] at h
    split at h
    · cases h
      exact Nat.zero_le _
    · simp only [bind_eq_bind, bind_eq_some_iff] at h
      obtain ⟨d, -, r', hr', hcons⟩ := h
      cases hcons
      exact Nat.succ_le_succ (ih hr')

theorem deserialize_serialize_row (row : Row) :
    deserialize_row C (serialize_row C row) = deserialize_values C (row.length % 2 ^ 32)
      (row.flatMap fun dt => frame (as_bytes (serialize_datatype C dt))) := by
  show deserialize_values C (from_le_bytes _ _ _ _) _ = _
  rw [from_to_le_bytes]
  rfl

theorem row_round_trip (hbuilt : ∀ d ∈ row, d.Built) :
    (∃ r, deserialize_row C (serialize_row C row) = some r ∧ Row.val r = Row.val row) ↔
      row.length < 2 ^ 32 ∧ ∀ d ∈ row, KeptValue d := by
  rw [deserialize_serialize_row]
  by_cases hlen : row.length < 2 ^ 32
  · rw [Nat.mod_eq_of_lt hlen, deserialize_values_iff hbuilt]
    exact ⟨fun h => ⟨hlen, h⟩, fun h => h.2⟩
  · refine iff_of_false ?_ (fun h => hlen h.1)
    rintro ⟨r, hr, hval⟩
    have hle := length_deserialize_values hr
    have heq := congrArg List.length hval
    rw [Row.length_val, Row.length_val] at heq
    omega

end Chrono

/-- **Which cached rows are read back.** The rows have the same length, and equal values. -/
theorem cached_row_round_trip_iff (C : Chrono) (row : Row) (hbuilt : ∀ d ∈ row, d.Built) :
    (∃ r, deserialize_row C (serialize_row C row) = some r ∧ (r == row) = true) ↔
      row.length < 2 ^ 32 ∧ ∀ d ∈ row, KeptValue d := by
  simp only [Row.beq_iff_val]
  exact row_round_trip hbuilt

theorem built_of_kind (h : d.kind ≠ .text) : d.Built := fun htext => absurd htext h

/-- Dates without a limit on the year. -/
def plainChrono : Chrono where
  timestamp_nanos_opt t :=
    let nanos := t.secs * 1000000000 + t.nanos.val
    if -2 ^ 63 ≤ nanos ∧ nanos < 2 ^ 63 then some (Int64.ofInt nanos) else none
  from_timestamp secs nsecs :=
    if h : nsecs.toNat < 2000000000 ∧ (nsecs.toNat < 1000000000 ∨ secs.toInt % 60 = 59) then
      some ⟨secs.toInt, nsecs.toNat, h.1⟩
    else none
  timestamp_nanos_opt_iff t n ht := by
    dsimp only
    split
    · next hrange =>
      rw [some.injEq, ← Int64.toInt_inj, Int64.toInt_ofInt_of_le hrange.1 hrange.2, eq_comm]
    · next hrange =>
      have hle := n.le_toInt
      have hlt := n.toInt_lt
      refine iff_of_false (by simp) fun h => hrange ?_
      omega
  from_timestamp_eq secs nsecs t h := by
    split at h
    · cases h
      exact ⟨rfl, rfl⟩
    · cases h
  from_timestamp_isSome secs nsecs hlow _ _ := by
    rw [dif_pos ⟨by omega, .inl hlow⟩]
    rfl

/-- A second and a half after 1970, between two other values. -/
theorem row_after_1970 :
    ∃ r, deserialize_row plainChrono
        (serialize_row plainChrono [.int (-5), .timestamp ⟨1, 500000000⟩, .none]) = some r ∧
      (r == [.int (-5), .timestamp ⟨1, 500000000⟩, .none]) = true := by
  refine (cached_row_round_trip_iff plainChrono _ ?_).mpr ⟨by decide, ?_⟩
  · intro d hd
    simp only [mem_cons, not_mem_nil, or_false] at hd
    rcases hd with rfl | rfl | rfl <;> exact built_of_kind (by decide)
  · intro d hd
    simp only [mem_cons, not_mem_nil, or_false] at hd
    rcases hd with rfl | rfl | rfl
    · trivial
    · exact (by decide : KeptTimestamp ⟨1, 500000000⟩)
    · trivial

/-- Half a second before 1970 the remainder of the division is negative. -/
theorem row_before_1970 :
    ¬ ∃ r, deserialize_row plainChrono
        (serialize_row plainChrono [.timestamp ⟨-1, 500000000⟩]) = some r ∧
      (r == [.timestamp ⟨-1, 500000000⟩]) = true := by
  have hbuilt : ∀ d ∈ ([.timestamp ⟨-1, 500000000⟩] : Row), d.Built := by
    intro d hd
    rw [mem_singleton.mp hd]
    exact built_of_kind (by decide)
  have hlost : ¬ KeptTimestamp ⟨-1, 500000000⟩ := by decide
  simp only [Row.beq_iff_val, row_round_trip hbuilt]
  exact fun h => hlost (h.2 _ mem_cons_self)

end Noria.Sqlite

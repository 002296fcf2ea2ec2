import Mathlib.Data.List.TakeWhile
import Noria.Framework.Utf8
import Noria.Order

/-! # Texts as data

  Short texts are stored in a zero-padded array and long ones in a C string. Neither keeps NUL
  bytes, and `TryFrom<&[u8]>` does not look at the encoding although the conversion back to a `str`
  unwraps it. So a text is read back exactly when it is `Kept`, and bytes exactly when they also are
  valid UTF-8.
-/

namespace Noria

open List Option

namespace DataType

/-- `From<&DataType> for &str`; `none` where the conversion panics. -/
def to_str : DataType → Option String
  | .text s => decode_utf8 s.bytes
  | .tinyText s => decode_utf8 s.to_str
  | _ => Option.none

/-- `From<&str> for DataType`, which unwraps `try_from`. -/
def from_text (s : String) : Option DataType := (try_from (as_bytes s)).toOption

/-- The bytes of the text a value holds, whether they are valid or not. -/
def str_bytes : DataType → Option (List UInt8)
  | .text s => some s.bytes
  | .tinyText s => some s.to_str
  | _ => Option.none

theorem to_str_eq (d : DataType) : d.to_str = d.str_bytes.bind decode_utf8 := by
  cases d <;> rfl

theorem to_str_eq_some {d : DataType} {s : String} :
    d.to_str = some s ↔ d.str_bytes = some (as_bytes s) := by
  rw [to_str_eq, bind_eq_some_iff]
  constructor
  · rintro ⟨b, hb, hs⟩
    rw [hb, decode_utf8_eq_some.mp hs]
  · intro h
    exact ⟨as_bytes s, h, decode_utf8_as_bytes s⟩

end DataType

/-! ## What is read back -/

/-- The bytes that survive the way into a `DataType` and back: without NUL
    bytes, or exactly as wide as the inline array and not NUL at the end. -/
def Kept (b : List UInt8) : Prop :=
  (0 : UInt8) ∉ b ∨ b.length = TINYTEXT_WIDTH ∧ b.getLast? ≠ some 0

instance (b : List UInt8) : Decidable (Kept b) := inferInstanceAs (Decidable (_ ∨ _))

theorem takeWhile_nul_eq_self_iff {b : List UInt8} :
    b.takeWhile (· != 0) = b ↔ (0 : UInt8) ∉ b := by
  rw [takeWhile_eq_self_iff]
  constructor
  · intro h hmem
    simpa using h 0 hmem
  · intro h x hx
    rw [bne_iff_ne]
    rintro rfl
    exact h hx

theorem takeWhile_pad (b : List UInt8) (n : Nat) :
    (b ++ replicate n 0).takeWhile (· != 0) = b.takeWhile (· != 0) := by
  induction b with
  | nil => cases n <;> rfl
  | cons x b ih =>
    by_cases hx : x = 0
    · subst hx
      rfl
    · have hne : (x != 0) = true := bne_iff_ne.mpr hx
      simp only [cons_append, takeWhile_cons, hne, if_true, ih]

/-- Padding is cut off again, with whatever stood after a NUL byte. -/
theorem tinyStr_pad_eq_iff {b : List UInt8} (h : b.length ≤ TINYTEXT_WIDTH) :
    tinyStr (b ++ replicate (TINYTEXT_WIDTH - b.length) 0) = b ↔ Kept b := by
  by_cases hfull : b.length = TINYTEXT_WIDTH
  · -- no padding: the last byte decides
    rw [hfull, Nat.sub_self, replicate_zero, append_nil]
    unfold tinyStr
    split
    · next hlast =>
      rw [takeWhile_nul_eq_self_iff]
      exact ⟨Or.inl, fun hk => hk.resolve_right fun hr => hr.2 hlast⟩
    · next hlast => exact iff_of_true rfl (Or.inr ⟨hfull, hlast⟩)
  · have hpad : TINYTEXT_WIDTH - b.length ≠ 0 := by omega
    have hlast : (b ++ replicate (TINYTEXT_WIDTH - b.length) 0).getLast? = some 0 := by
      rw [getLast?_append, getLast?_replicate, if_neg hpad]
      rfl
    unfold tinyStr
    rw [if_pos hlast, takeWhile_pad, takeWhile_nul_eq_self_iff]
    exact ⟨Or.inl, fun hk => hk.resolve_right fun hr => hfull hr.1⟩

/-- Inline bytes are those of any shorter text that pads to them. -/
theorem try_from_of_pad {b : List UInt8} {arr : TinyBytes} {k : Nat}
    (h : arr.bytes = b ++ replicate k 0) : DataType.try_from b = .ok (.tinyText arr) := by
  have hwidth := arr.width
  rw [h, length_append, length_replicate] at hwidth
  have hk : TINYTEXT_WIDTH - b.length = k := by omega
  unfold DataType.try_from
  rw [dif_pos (by omega)]
  congr 2
  apply TinyBytes.ext_bytes
  show b ++ replicate (TINYTEXT_WIDTH - b.length) 0 = arr.bytes
  rw [h, hk]

theorem try_from_text (s : ArcCStr) : DataType.try_from s.bytes = .ok (.text s) := by
  have hlong := s.long
  unfold DataType.try_from
  rw [dif_neg (by omega), dif_pos s.nul_free]

/-- A long text with a NUL byte is no C string. -/
theorem try_from_eq_error {b : List UInt8} (h : TINYTEXT_WIDTH < b.length) (h0 : (0 : UInt8) ∈ b) :
    DataType.try_from b = .error "Invalid utf-8 string" := by
  unfold DataType.try_from
  rw [dif_neg (by omega), dif_neg (not_not_intro h0)]

/-- Otherwise the bytes are stored, and read back if they are kept. -/
theorem try_from_eq_ok {b : List UInt8} (h : ¬ (TINYTEXT_WIDTH < b.length ∧ (0 : UInt8) ∈ b)) :
    ∃ d, DataType.try_from b = .ok d ∧ (d.str_bytes = some b ↔ Kept b) := by
  unfold DataType.try_from
  by_cases hshort : b.length ≤ TINYTEXT_WIDTH
  · refine ⟨_, dif_pos hshort, ?_⟩
    show some (tinyStr _) = some b ↔ _
    rw [some.injEq]
    exact tinyStr_pad_eq_iff hshort
  · have hfree : (0 : UInt8) ∉ b := fun h0 => h ⟨by omega, h0⟩
    refine ⟨.text ⟨b, hfree, by omega⟩, ?_, iff_of_true rfl (Or.inl hfree)⟩
    rw [dif_neg hshort, dif_pos hfree]

theorem not_kept {b : List UInt8} (h : TINYTEXT_WIDTH < b.length) (h0 : (0 : UInt8) ∈ b) :
    ¬ Kept b := by
  rintro (hfree | ⟨hwidth, -⟩)
  · exact hfree h0
  · omega

theorem from_text_round_trip_iff (s : String) :
    (∃ d, DataType.from_text s = some d ∧ d.to_str = some s) ↔ Kept (as_bytes s) := by
  by_cases hnul : TINYTEXT_WIDTH < (as_bytes s).length ∧ (0 : UInt8) ∈ as_bytes s
  · refine iff_of_false ?_ (not_kept hnul.1 hnul.2)
    rintro ⟨d, hd, -⟩
    rw [DataType.from_text, try_from_eq_error hnul.1 hnul.2] at hd
    cases hd
  · obtain ⟨d, hd, hkept⟩ := try_from_eq_ok hnul
    rw [DataType.from_text, hd]
    simp only [Except.toOption, some.injEq, exists_eq_left', DataType.to_str_eq_some]
    exact hkept

theorem try_from_round_trip_iff (b : List UInt8) :
    (∀ d, DataType.try_from b = .ok d → ∃ s, d.to_str = some s ∧ as_bytes s = b) ↔
      (TINYTEXT_WIDTH < b.length ∧ (0 : UInt8) ∈ b) ∨ (Kept b ∧ ∃ s, decode_utf8 b = some s) := by
  by_cases hnul : TINYTEXT_WIDTH < b.length ∧ (0 : UInt8) ∈ b
  · refine iff_of_true ?_ (Or.inl hnul)
    intro d hd
    rw [try_from_eq_error hnul.1 hnul.2] at hd
    cases hd
  · obtain ⟨d, hd, hkept⟩ := try_from_eq_ok hnul
    simp only [hd, Except.ok.injEq, forall_eq', DataType.to_str_eq_some, hnul, false_or, ← hkept,
      decode_utf8_eq_some]
    constructor
    · rintro ⟨s, hs, rfl⟩
      exact ⟨hs, s, rfl⟩
    · rintro ⟨hs, s, rfl⟩
      exact ⟨s, hs, rfl⟩

/-- **Which texts and which bytes are read back as they were.** -/
theorem text_round_trip_iff (s : String) (b : List UInt8) :
    ((∃ d, DataType.from_text s = some d ∧ d.to_str = some s) ↔ Kept (as_bytes s)) ∧
    ((∀ d, DataType.try_from b = .ok d → ∃ t, d.to_str = some t ∧ as_bytes t = b) ↔
      (TINYTEXT_WIDTH < b.length ∧ (0 : UInt8) ∈ b) ∨ (Kept b ∧ ∃ t, decode_utf8 b = some t)) :=
  ⟨from_text_round_trip_iff s, try_from_round_trip_iff b⟩

/-- A text that fits, and one that does not, without NUL bytes. -/
theorem plain_text_round_trips :
    (∃ d, DataType.from_text "data-flow" = some d ∧ d.to_str = some "data-flow") ∧
    (∀ d, DataType.try_from (as_bytes "partially stateful") = .ok d →
      ∃ t, d.to_str = some t ∧ as_bytes t = as_bytes "partially stateful") := by
  refine ⟨(text_round_trip_iff _ []).1.mpr (by decide), ?_⟩
  exact (text_round_trip_iff "" _).2.mpr (Or.inr ⟨by decide, _, decode_utf8_as_bytes _⟩)

/-- A short text is cut at its NUL byte, a long one with a NUL byte panics,
    and a byte that is no UTF-8 is accepted and panics later. -/
theorem nul_bytes_are_lost :
    (DataType.from_text "a\x00b").bind DataType.to_str = some "a" ∧
    DataType.from_text "0123456789abcde\x00" = none ∧
    ∃ d, DataType.try_from [255] = .ok d ∧ d.to_str = none := by
  refine ⟨by decide, by decide, ?_⟩
  exact ⟨_, rfl, by decide⟩

/-! ## Values that come from a text -/

/-- Built by the `From` conversions: every text comes from a `str`. -/
def DataType.Built (d : DataType) : Prop :=
  d.kind = .text → ∃ s, DataType.from_text s = some d

theorem as_bytes_of_from_text {t : String} {s : ArcCStr}
    (h : DataType.from_text t = some (.text s)) : as_bytes t = s.bytes := by
  unfold DataType.from_text DataType.try_from at h
  split at h
  · cases h
  · split at h <;> cases h
    rfl

theorem DataType.Built.text {s : ArcCStr} (h : (DataType.text s).Built) :
    ∃ t, as_bytes t = s.bytes := by
  obtain ⟨t, ht⟩ := h rfl
  exact ⟨t, as_bytes_of_from_text ht⟩

theorem bytes_of_from_text {t : String} {arr : TinyBytes}
    (h : DataType.from_text t = some (.tinyText arr)) :
    ∃ k, arr.bytes = as_bytes t ++ replicate k 0 := by
  refine ⟨TINYTEXT_WIDTH - (as_bytes t).length, ?_⟩
  unfold DataType.from_text DataType.try_from at h
  split at h
  · cases h
    rfl
  · split at h <;> cases h

theorem DataType.Built.tinyText {arr : TinyBytes} (h : (DataType.tinyText arr).Built) :
    ∃ t k, arr.bytes = as_bytes t ++ replicate k 0 := by
  obtain ⟨t, ht⟩ := h rfl
  exact ⟨t, bytes_of_from_text ht⟩

/-- A value that comes from a text can be read as a text, although that may be another one. -/
theorem DataType.Built.to_str {d : DataType} (h : d.Built) (htext : d.kind = .text) :
    ∃ t, d.to_str = some t := by
  simp only [DataType.to_str_eq_some]
  cases d <;> first | (cases htext; done) | skip
  case text s =>
    obtain ⟨t, ht⟩ := h.text
    exact ⟨t, congrArg some ht.symm⟩
  case tinyText arr =>
    obtain ⟨t, k, harr⟩ := h.tinyText
    show ∃ t, some (tinyStr arr.bytes) = some (as_bytes t)
    unfold tinyStr
    rw [harr]
    split
    · rw [takeWhile_pad]
      obtain ⟨t', ht'⟩ := exists_as_bytes_cut t
      exact ⟨t', by rw [ht']⟩
    · exact ⟨padNul t k, by rw [as_bytes_padNul]⟩

end Noria

import Mathlib.Data.List.Basic

/-! # Texts and their bytes

  A text is a `String`, whose bytes are valid UTF-8 (`as_bytes`); bytes that are valid are the bytes
  of one text (`decode_utf8`). Cutting a text at its first NUL byte leaves a text, since no other
  character has a NUL byte in its encoding.
-/

namespace Noria

open List

variable {s : String} {c : Char}

def as_bytes (s : String) : List UInt8 := s.toByteArray.data.toList

/-- The text with these bytes, if they are valid UTF-8. -/
def decode_utf8 (b : List UInt8) : Option String := String.fromUTF8? ⟨b.toArray⟩

theorem as_bytes_inj {t : String} : as_bytes s = as_bytes t ↔ s = t := by
  constructor
  · intro h
    apply String.toByteArray_inj.mp
    apply ByteArray.ext
    exact Array.toList_inj.mp h
  · exact fun h => congrArg as_bytes h

theorem decode_utf8_eq_some {b : List UInt8} : decode_utf8 b = some s ↔ as_bytes s = b := by
  unfold decode_utf8 String.fromUTF8?
  split
  · rw [Option.some.injEq, ← as_bytes_inj, eq_comm]
    exact Iff.rfl
  · next hinvalid =>
    refine iff_of_false (by simp) ?_
    intro h
    subst h
    exact hinvalid s.isValidUTF8

@[simp] theorem decode_utf8_as_bytes (s : String) : decode_utf8 (as_bytes s) = some s :=
  decode_utf8_eq_some.mpr rfl

theorem as_bytes_ofList (cs : List Char) :
    as_bytes (String.ofList cs) = cs.flatMap String.utf8EncodeChar := by
  unfold as_bytes
  rw [String.toByteArray_ofList, List.utf8Encode]
  simp

theorem as_bytes_eq_flatMap (s : String) : as_bytes s = s.toList.flatMap String.utf8EncodeChar := by
  rw [← as_bytes_ofList, String.ofList_toList]

theorem as_bytes_append (s t : String) : as_bytes (s ++ t) = as_bytes s ++ as_bytes t := by
  simp only [as_bytes_eq_flatMap, String.toList_append, flatMap_append]

theorem length_as_bytes_le (s : String) : (as_bytes s).length ≤ 4 * s.toList.length := by
  rw [as_bytes_eq_flatMap]
  induction s.toList with
  | nil => exact Nat.le_refl _
  | cons c cs ih =>
    have hc := c.utf8Size_le_four
    rw [flatMap_cons, length_append, String.length_utf8EncodeChar, length_cons]
    omega

theorem utf8EncodeChar_ascii (h : c.toNat < 128) :
    String.utf8EncodeChar c = [UInt8.ofNat c.toNat] := if_pos (Nat.le_of_lt_succ h)

/-- Outside of ASCII the high bit of every byte is set. -/
theorem le_of_mem_utf8EncodeChar (h : 128 ≤ c.toNat) {b : UInt8}
    (hb : b ∈ String.utf8EncodeChar c) : 128 ≤ b.toNat := by
  have hbyte : ∀ n, 128 ≤ n → n < 256 → 128 ≤ (UInt8.ofNat n).toNat := by
    intro n hle hlt
    rw [UInt8.toNat_ofNat_of_lt' hlt]
    exact hle
  have hv : ¬ c.val.toNat ≤ 127 := by
    show ¬ c.toNat ≤ 127
    omega
  simp only [String.utf8EncodeChar, if_neg hv] at hb
  split at hb
  · simp only [mem_cons, not_mem_nil, or_false] at hb
    rcases hb with rfl | rfl <;> exact hbyte _ (by omega) (by omega)
  · split at hb
    · simp only [mem_cons, not_mem_nil, or_false] at hb
      rcases hb with rfl | rfl | rfl <;> exact hbyte _ (by omega) (by omega)
    · simp only [mem_cons, not_mem_nil, or_false] at hb
      rcases hb with rfl | rfl | rfl | rfl <;> exact hbyte _ (by omega) (by omega)

theorem zero_notMem_utf8EncodeChar (h : c.toNat ≠ 0) : (0 : UInt8) ∉ String.utf8EncodeChar c := by
  intro hmem
  by_cases hascii : c.toNat < 128
  · rw [utf8EncodeChar_ascii hascii, mem_singleton] at hmem
    have hnat := congrArg UInt8.toNat hmem
    rw [UInt8.toNat_ofNat_of_lt' (Nat.lt_trans hascii (by decide))] at hnat
    exact h hnat.symm
  · exact absurd (le_of_mem_utf8EncodeChar (by omega) hmem) (by decide)

theorem flatMap_nul {cs : List Char} (h : ∀ c ∈ cs, c = Char.ofNat 0) :
    cs.flatMap String.utf8EncodeChar = List.replicate cs.length 0 := by
  induction cs with
  | nil => rfl
  | cons c cs ih =>
    obtain rfl := h c mem_cons_self
    rw [flatMap_cons, ih (forall_mem_cons.mp h).2]
    rfl

/-- A text with NUL characters appended. -/
def padNul (s : String) (k : Nat) : String :=
  s ++ String.ofList (List.replicate k (Char.ofNat 0))

theorem as_bytes_padNul (s : String) (k : Nat) :
    as_bytes (padNul s k) = as_bytes s ++ List.replicate k 0 := by
  unfold padNul
  rw [as_bytes_append, as_bytes_ofList, flatMap_nul fun c hc => eq_of_mem_replicate hc,
    length_replicate]

theorem zero_mem_as_bytes (h : Char.ofNat 0 ∈ s.toList) : (0 : UInt8) ∈ as_bytes s := by
  rw [as_bytes_eq_flatMap, mem_flatMap]
  exact ⟨_, h, mem_singleton.mpr rfl⟩

/-- What stands before the first NUL byte of a text is a text. -/
theorem exists_as_bytes_cut (s : String) : ∃ t, as_bytes t = (as_bytes s).takeWhile (· != 0) := by
  have hcut : ∀ cs : List Char, ∃ t, as_bytes t =
      (cs.flatMap String.utf8EncodeChar).takeWhile (· != 0) := by
    intro cs
    induction cs with
    | nil => exact ⟨"", rfl⟩
    | cons c cs ih =>
      rw [flatMap_cons]
      by_cases hc : c.toNat = 0
      · refine ⟨"", ?_⟩
        rw [utf8EncodeChar_ascii (by omega), hc]
        rfl
      · obtain ⟨t, ht⟩ := ih
        refine ⟨String.ofList (c :: t.toList), ?_⟩
        have hall : ∀ b ∈ String.utf8EncodeChar c, (b != 0) = true := by
          intro b hb
          rw [bne_iff_ne]
          rintro rfl
          exact zero_notMem_utf8EncodeChar hc hb
        rw [takeWhile_append_of_pos hall, ← ht, as_bytes_ofList, flatMap_cons,
          ← as_bytes_eq_flatMap]
  rw [as_bytes_eq_flatMap]
  exact hcut s.toList

end Noria

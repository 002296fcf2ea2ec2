import Mathlib.Algebra.Group.Nat.Defs
import Mathlib.Data.List.Basic

/-! # Frames with a length

  A frame is its length, a `u32` in four little-endian bytes, and then the bytes themselves. The
  length is taken modulo 2^32, so of a longer frame only a part is read.
-/

namespace Noria

open List

variable {b : List UInt8}

def to_le_bytes (n : Nat) : List UInt8 :=
  [UInt8.ofNat n, UInt8.ofNat (n / 256), UInt8.ofNat (n / 65536), UInt8.ofNat (n / 16777216)]

def from_le_bytes (a b c d : UInt8) : Nat :=
  a.toNat + 256 * b.toNat + 65536 * c.toNat + 16777216 * d.toNat

theorem from_to_le_bytes (n : Nat) : from_le_bytes (UInt8.ofNat n) (UInt8.ofNat (n / 256))
    (UInt8.ofNat (n / 65536)) (UInt8.ofNat (n / 16777216)) = n % 2 ^ 32 := by
  simp only [from_le_bytes, UInt8.toNat_ofNat']
  omega

/-- The bytes with their length before them. -/
def frame (b : List UInt8) : List UInt8 := to_le_bytes b.length ++ b

/-- A frame, and what follows it; `none` if it is not complete. -/
def readFrame : List UInt8 → Option (List UInt8 × List UInt8)
  | a :: b :: c :: d :: bytes =>
    if bytes.length < from_le_bytes a b c d then none
    else some (bytes.take (from_le_bytes a b c d), bytes.drop (from_le_bytes a b c d))
  | _ => none

theorem readFrame_to_le_bytes (n : Nat) (bytes : List UInt8) : readFrame (to_le_bytes n ++ bytes) =
      if bytes.length < n % 2 ^ 32 then none
      else some (bytes.take (n % 2 ^ 32), bytes.drop (n % 2 ^ 32)) := by
  show (if bytes.length < from_le_bytes _ _ _ _ then none
    else some (bytes.take (from_le_bytes _ _ _ _), bytes.drop (from_le_bytes _ _ _ _))) = _
  rw [from_to_le_bytes]

theorem readFrame_append (h : b.length < 2 ^ 32) (rest : List UInt8) :
    readFrame (frame b ++ rest) = some (b, rest) := by
  unfold frame
  rw [append_assoc, readFrame_to_le_bytes, Nat.mod_eq_of_lt h, length_append,
    if_neg (by omega), take_left, drop_left]

theorem readFrame_long (h : 2 ^ 32 ≤ b.length) (rest : List UInt8) :
    ∃ part rest', readFrame (frame b ++ rest) = some (part, rest') ∧ part.length < b.length := by
  have hmod : b.length % 2 ^ 32 < 2 ^ 32 := Nat.mod_lt _ (by decide)
  unfold frame
  rw [append_assoc, readFrame_to_le_bytes, length_append, if_neg (by omega)]
  refine ⟨_, _, rfl, ?_⟩
  rw [length_take, length_append]
  omega

end Noria

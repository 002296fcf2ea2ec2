import Mathlib.Data.List.Basic
import Mathlib.Algebra.Order.Ring.Int

/-! # Decimal texts of integers

  Reading a decimal text back gives the number it was written from, if
  the number is in the range of the type that is read.
-/

namespace Noria

open List

variable {n : Int}

/-- The digits of a number. -/
def parseDigits (cs : List Char) : Option Nat :=
  if cs ≠ [] ∧ cs.all Char.isDigit then some (Nat.ofDigitChars 10 cs 0) else none

/-- A number with an optional sign, before the check of its range. -/
def parseSign : List Char → Option Int
  | [] => none
  | c :: cs =>
    if c = '-' then (parseDigits cs).map fun n => -(n : Int)
    else if c = '+' then (parseDigits cs).map fun n => (n : Int)
    else (parseDigits (c :: cs)).map fun n => (n : Int)

/-- A signed integer of some bits. -/
def parseSigned (bits : Nat) (cs : List Char) : Option Int :=
  (parseSign cs).filter fun n => -2 ^ (bits - 1) ≤ n ∧ n < 2 ^ (bits - 1)

/-- An unsigned integer of some bits, which may not have a minus sign. -/
def parseUnsigned (bits : Nat) (cs : List Char) : Option Nat :=
  (match cs with
    | [] => none
    | c :: cs => if c = '+' then parseDigits cs else parseDigits (c :: cs)).filter
      fun n => n < 2 ^ bits

theorem parseDigits_toDigits (n : Nat) : parseDigits (Nat.toDigits 10 n) = some n := by
  have hdigits : (Nat.toDigits 10 n).all Char.isDigit = true := by
    rw [all_eq_true]
    intro c hc
    exact Nat.isDigit_of_mem_toDigits (by decide) (by decide) hc
  unfold parseDigits
  rw [if_pos ⟨Nat.toDigits_ne_nil, hdigits⟩, Nat.ofDigitChars_ten_toDigits]

theorem exists_toDigits_eq_cons (n : Nat) :
    ∃ c cs, Nat.toDigits 10 n = c :: cs ∧ c ≠ '-' ∧ c ≠ '+' := by
  obtain ⟨c, cs, hcs⟩ := exists_cons_of_ne_nil (Nat.toDigits_ne_nil (n := n) (b := 10))
  have hdigit : c.isDigit = true :=
    Nat.isDigit_of_mem_toDigits (by decide) (by decide) (hcs ▸ mem_cons_self)
  refine ⟨c, cs, hcs, ?_, ?_⟩ <;> rintro rfl <;> exact absurd hdigit (by decide)

theorem parseSign_toString (n : Int) : parseSign (toString n).toList = some n := by
  cases n with
  | ofNat m =>
    obtain ⟨c, cs, hcs, hminus, hplus⟩ := exists_toDigits_eq_cons m
    have hlist : (toString (Int.ofNat m)).toList = c :: cs := by
      show (Nat.repr m).toList = _
      rw [Nat.toList_repr, hcs]
    rw [hlist, parseSign, if_neg hminus, if_neg hplus, ← hcs, parseDigits_toDigits]
    rfl
  | negSucc m =>
    have hlist : (toString (Int.negSucc m)).toList = '-' :: Nat.toDigits 10 (m + 1) := by
      show ("-" ++ Nat.repr (m + 1)).toList = _
      rw [String.toList_append, Nat.toList_repr]
      rfl
    rw [hlist, parseSign, if_pos rfl, parseDigits_toDigits]
    rfl

theorem parseSigned_toString (bits : Nat) (h : -2 ^ (bits - 1) ≤ n ∧ n < 2 ^ (bits - 1)) :
    parseSigned bits (toString n).toList = some n := by
  unfold parseSigned
  rw [parseSign_toString, Option.filter_some, if_pos (decide_eq_true h)]

theorem parseUnsigned_toString (bits : Nat) {n : Nat} (h : n < 2 ^ bits) :
    parseUnsigned bits (toString n).toList = some n := by
  obtain ⟨c, cs, hcs, -, hplus⟩ := exists_toDigits_eq_cons n
  have hlist : (toString n).toList = c :: cs := by
    show (Nat.repr n).toList = _
    rw [Nat.toList_repr, hcs]
  unfold parseUnsigned
  rw [hlist]
  simp only [if_neg hplus]
  rw [← hcs, parseDigits_toDigits, Option.filter_some, if_pos (decide_eq_true h)]

theorem mem_toString {c : Char} (h : c ∈ (toString n).toList) : c = '-' ∨ c.isDigit = true := by
  cases n with
  | ofNat m =>
    change c ∈ (Nat.repr m).toList at h
    rw [Nat.toList_repr] at h
    exact Or.inr (Nat.isDigit_of_mem_toDigits (by decide) (by decide) h)
  | negSucc m =>
    change c ∈ ("-" ++ Nat.repr (m + 1)).toList at h
    rw [String.toList_append, Nat.toList_repr] at h
    rcases mem_append.mp h with h | h
    · exact Or.inl (mem_singleton.mp h)
    · exact Or.inr (Nat.isDigit_of_mem_toDigits (by decide) (by decide) h)

theorem length_toString_le {k : Nat} (hk : 0 < k) (h : n.natAbs < 10 ^ k) :
    (toString n).toList.length ≤ k + 1 := by
  cases n with
  | ofNat m =>
    show (Nat.repr m).toList.length ≤ _
    rw [Nat.toList_repr]
    have hlen : (Nat.toDigits 10 m).length ≤ k := (Nat.length_toDigits_le_iff (by decide) hk).mpr h
    omega
  | negSucc m =>
    show ("-" ++ Nat.repr (m + 1)).toList.length ≤ _
    rw [String.toList_append, Nat.toList_repr, length_append]
    have hlen : (Nat.toDigits 10 (m + 1)).length ≤ k :=
      (Nat.length_toDigits_le_iff (by decide) hk).mpr h
    have hminus : "-".toList.length = 1 := rfl
    omega

end Noria

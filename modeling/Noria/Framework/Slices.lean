import Mathlib.Data.List.Basic
import Mathlib.Order.Basic

/-! # Byte offsets in texts

  Texts are lists of characters here, and offsets into them count bytes. A slice is taken only at a
  character boundary, the length of some prefix. Searching a text gives the offset of the first
  match, and scanning it gives the ends of the matches from left to right that do not overlap.
  Splitting it at a character gives its items.
-/

namespace Noria

open List

variable {P : Nat → Prop} {needle text after before cs : List Char} {n : Nat}

/-! ## Lengths and boundaries -/

def byteLen : List Char → Nat
  | [] => 0
  | c :: cs => c.utf8Size + byteLen cs

@[simp] theorem byteLen_nil : byteLen [] = 0 := rfl

@[simp] theorem byteLen_cons (c : Char) (cs : List Char) :
    byteLen (c :: cs) = c.utf8Size + byteLen cs := rfl

@[simp] theorem byteLen_append (as bs : List Char) :
    byteLen (as ++ bs) = byteLen as + byteLen bs := by
  induction as with
  | nil => simp
  | cons a as ih =>
    simp only [cons_append, byteLen_cons, ih]
    omega

/-- An offset between two characters, or at an end. -/
def Boundary (cs : List Char) (n : Nat) : Prop :=
  ∃ before after, cs = before ++ after ∧ byteLen before = n

/-- The text from an offset on; `none` if it is no boundary. -/
def sliceFrom : List Char → Nat → Option (List Char)
  | cs, 0 => some cs
  | [], _ + 1 => none
  | c :: cs, n + 1 => if c.utf8Size ≤ n + 1 then sliceFrom cs (n + 1 - c.utf8Size) else none

/-- The text up to an offset; `none` if it is no boundary. -/
def sliceTo : List Char → Nat → Option (List Char)
  | _, 0 => some []
  | [], _ + 1 => none
  | c :: cs, n + 1 =>
    if c.utf8Size ≤ n + 1 then (sliceTo cs (n + 1 - c.utf8Size)).map (c :: ·) else none

theorem sliceFrom_append (before after : List Char) :
    sliceFrom (before ++ after) (byteLen before) = some after := by
  induction before with
  | nil => cases after <;> rfl
  | cons c cs ih =>
    have hpos := c.utf8Size_pos
    obtain ⟨n, hn⟩ : ∃ n, byteLen (c :: cs) = n + 1 := ⟨byteLen (c :: cs) - 1, by
      rw [byteLen_cons]; omega⟩
    rw [byteLen_cons] at hn
    rw [cons_append, byteLen_cons, hn, sliceFrom, if_pos (by omega)]
    have hrest : n + 1 - c.utf8Size = byteLen cs := by omega
    rw [hrest, ih]

theorem sliceFrom_eq_some :
    sliceFrom cs n = some after ↔ ∃ before, cs = before ++ after ∧ byteLen before = n := by
  constructor
  · intro h
    induction cs generalizing n with
    | nil =>
      cases n with
      | zero =>
        cases h
        exact ⟨[], rfl, rfl⟩
      | succ n => cases h
    | cons c cs ih =>
      cases n with
      | zero =>
        cases h
        exact ⟨[], rfl, rfl⟩
      | succ n =>
        rw [sliceFrom] at h
        split at h
        · obtain ⟨before, rfl, hlen⟩ := ih h
          refine ⟨c :: before, rfl, ?_⟩
          rw [byteLen_cons]
          omega
        · cases h
  · rintro ⟨before, rfl, rfl⟩
    exact sliceFrom_append before after

theorem exists_sliceFrom_iff : (∃ after, sliceFrom cs n = some after) ↔ Boundary cs n := by
  simp only [sliceFrom_eq_some]
  exact exists_comm

theorem sliceTo_append (before after : List Char) :
    sliceTo (before ++ after) (byteLen before) = some before := by
  induction before with
  | nil => cases after <;> rfl
  | cons c cs ih =>
    have hpos := c.utf8Size_pos
    obtain ⟨n, hn⟩ : ∃ n, c.utf8Size + byteLen cs = n + 1 := ⟨c.utf8Size + byteLen cs - 1, by omega⟩
    rw [cons_append, byteLen_cons, hn, sliceTo, if_pos (by omega)]
    have hrest : n + 1 - c.utf8Size = byteLen cs := by omega
    rw [hrest, ih]
    rfl

theorem sliceTo_eq_some :
    sliceTo cs n = some before ↔ ∃ after, cs = before ++ after ∧ byteLen before = n := by
  constructor
  · intro h
    induction cs generalizing n before with
    | nil =>
      cases n with
      | zero =>
        cases h
        exact ⟨[], rfl, rfl⟩
      | succ n => cases h
    | cons c cs ih =>
      cases n with
      | zero =>
        cases h
        exact ⟨c :: cs, rfl, rfl⟩
      | succ n =>
        rw [sliceTo] at h
        split at h
        · obtain ⟨before, hbefore, rfl⟩ := Option.map_eq_some_iff.mp h
          obtain ⟨after, rfl, hlen⟩ := ih hbefore
          refine ⟨after, rfl, ?_⟩
          rw [byteLen_cons]
          omega
        · cases h
  · rintro ⟨after, rfl, rfl⟩
    exact sliceTo_append before after

theorem exists_sliceTo_iff : (∃ before, sliceTo cs n = some before) ↔ Boundary cs n := by
  simp only [sliceTo_eq_some]
  rfl

theorem boundary_end (cs : List Char) : Boundary cs (byteLen cs) := ⟨cs, [], by simp, rfl⟩

/-! ## Searching -/

/-- The offset of the first match in a text. -/
def findText (needle : List Char) : List Char → Option Nat
  | [] => if needle = [] then some 0 else none
  | c :: cs =>
    if needle.isPrefixOf (c :: cs) then some 0
    else (findText needle cs).map fun n => c.utf8Size + n

/-- The text splits into what is before the first match, the match, and what is after it. -/
def FirstMatch (needle text before after : List Char) : Prop :=
  text = before ++ needle ++ after ∧
    ∀ before' after', text = before' ++ needle ++ after' → before.length ≤ before'.length

theorem findText_eq_some (h : findText needle text = some n) :
    ∃ before after, FirstMatch needle text before after ∧ byteLen before = n := by
  induction text generalizing n with
  | nil =>
    rw [findText] at h
    split at h
    · next hnil =>
      cases h
      exact ⟨[], [], ⟨by simp [hnil], fun _ _ _ => Nat.zero_le _⟩, rfl⟩
    · cases h
  | cons c cs ih =>
    rw [findText] at h
    split at h
    · next hmatch =>
      cases h
      obtain ⟨after, hafter⟩ := isPrefixOf_iff_prefix.mp hmatch
      exact ⟨[], after, ⟨hafter.symm, fun _ _ _ => Nat.zero_le _⟩, rfl⟩
    · next hmatch =>
      obtain ⟨m, hm, rfl⟩ := Option.map_eq_some_iff.mp h
      obtain ⟨before, after, ⟨hsplit, hfirst⟩, rfl⟩ := ih hm
      refine ⟨c :: before, after, ⟨by rw [hsplit]; rfl, ?_⟩, rfl⟩
      intro before' after' hother
      cases before' with
      | nil =>
        -- a match at the front would have been found
        refine absurd ?_ hmatch
        exact isPrefixOf_iff_prefix.mpr ⟨after', hother.symm⟩
      | cons c' before' =>
        have hcs : cs = before' ++ needle ++ after' := (List.cons.inj hother).2
        have hle := hfirst before' after' hcs
        simp only [length_cons]
        omega

theorem findText_eq_none (h : findText needle text = none) : text ≠ before ++ needle ++ after := by
  intro heq
  induction text generalizing before with
  | nil =>
    rw [findText] at h
    split at h
    · cases h
    · next hnil =>
      have hneedle : needle = [] := by
        have hlen := congrArg List.length heq
        simp only [length_nil, length_append] at hlen
        exact length_eq_zero_iff.mp (by omega)
      exact hnil hneedle
  | cons c cs ih =>
    rw [findText] at h
    split at h
    · cases h
    · next hmatch =>
      cases before with
      | nil =>
        refine hmatch ?_
        exact isPrefixOf_iff_prefix.mpr ⟨after, heq.symm⟩
      | cons c' before =>
        exact ih (Option.map_eq_none_iff.mp h) (List.cons.inj heq).2

theorem FirstMatch.unique {before' after' : List Char} (h : FirstMatch needle text before after)
    (h' : FirstMatch needle text before' after') : before = before' ∧ after = after' := by
  have hlen : before.length = before'.length := Nat.le_antisymm (h.2 _ _ h'.1) (h'.2 _ _ h.1)
  have heq := h.1.symm.trans h'.1
  rw [append_assoc, append_assoc] at heq
  obtain ⟨hbefore, hrest⟩ := append_inj heq hlen
  exact ⟨hbefore, append_cancel_left hrest⟩

theorem findText_of_firstMatch (h : FirstMatch needle text before after) :
    findText needle text = some (byteLen before) := by
  cases hfind : findText needle text with
  | none => exact absurd h.1 (findText_eq_none hfind)
  | some n =>
    obtain ⟨before', after', h', rfl⟩ := findText_eq_some hfind
    rw [(h.unique h').1]

theorem findText_eq_some_iff :
    findText needle text = some n ↔
      ∃ before after, FirstMatch needle text before after ∧ byteLen before = n := by
  refine ⟨findText_eq_some, ?_⟩
  rintro ⟨before, after, h, rfl⟩
  exact findText_of_firstMatch h

/-! ## Scanning -/

/-- The offsets of the ends of the matches that a scan from left to right
    finds, each after the end of the one before. -/
inductive ScanEnd (needle : List Char) : List Char → Nat → Prop
  | first {text before after : List Char} : FirstMatch needle text before after →
      ScanEnd needle text (byteLen before + byteLen needle)
  | later {text before after : List Char} {n : Nat} : FirstMatch needle text before after →
      ScanEnd needle after n → ScanEnd needle text (byteLen before + byteLen needle + n)

theorem ScanEnd.exists_match (h : ScanEnd needle text n) :
    ∃ before after, FirstMatch needle text before after := by
  cases h with
  | first h => exact ⟨_, _, h⟩
  | later h _ => exact ⟨_, _, h⟩

theorem ScanEnd.boundary (h : ScanEnd needle text n) : Boundary text n := by
  induction h with
  | first h => exact ⟨_, _, h.1, byteLen_append _ _⟩
  | @later text before after n h _ ih =>
    obtain ⟨before', after', hafter, hlen⟩ := ih
    refine ⟨before ++ needle ++ before', after', ?_, ?_⟩
    · rw [h.1, hafter]
      simp only [append_assoc]
    · rw [byteLen_append, byteLen_append, hlen]

theorem forall_scanEnd_iff (h : FirstMatch needle text before after) :
    (∀ n, ScanEnd needle text n → P n) ↔ P (byteLen before + byteLen needle) ∧
      ∀ n, ScanEnd needle after n → P (byteLen before + byteLen needle + n) := by
  constructor
  · intro hall
    exact ⟨hall _ (.first h), fun n hn => hall _ (.later h hn)⟩
  · rintro ⟨hfirst, hlater⟩ n hn
    cases hn with
    | first h' =>
      rw [(h'.unique h).1]
      exact hfirst
    | later h' hn =>
      obtain ⟨hbefore, hafter⟩ := h'.unique h
      rw [hafter] at hn
      rw [hbefore]
      exact hlater _ hn

/-- The same for what holds of some end. -/
theorem exists_scanEnd_iff (h : FirstMatch needle text before after) :
    (∃ n, ScanEnd needle text n ∧ P n) ↔ P (byteLen before + byteLen needle) ∨
      ∃ n, ScanEnd needle after n ∧ P (byteLen before + byteLen needle + n) := by
  have hall := forall_scanEnd_iff h (P := fun n => ¬P n)
  constructor
  · rintro ⟨n, hn, hP⟩
    by_contra hnone
    push Not at hnone
    exact hall.mpr hnone n hn hP
  · rintro (hP | ⟨n, hn, hP⟩)
    · exact ⟨_, .first h, hP⟩
    · exact ⟨_, .later h hn, hP⟩

/-! ## Items -/

/-- A part of the text between two separators, or between one and an end of the text. -/
def Item (sep : Char) (text item : List Char) : Prop :=
  sep ∉ item ∧ ∃ before after, text = before ++ item ++ after ∧
    (before = [] ∨ ∃ front, before = front ++ [sep]) ∧ (after = [] ∨ ∃ back, after = sep :: back)

/-- **The items are what splitting gives.** -/
theorem mem_splitOn_iff {sep : Char} {item : List Char} :
    item ∈ text.splitOn sep ↔ Item sep text item := by
  have hcut : ∀ l l' : List Char, (l ++ sep :: l').splitOnP (· == sep) =
      l.splitOnP (· == sep) ++ l'.splitOnP (· == sep) :=
    fun l l' => splitOnP_append_cons l l' (beq_self_eq_true sep)
  have hwhole : ∀ l : List Char, sep ∉ l → l.splitOnP (· == sep) = [l] := by
    intro l hl
    refine splitOnP_eq_singleton fun c hc => ?_
    rw [beq_eq_false_iff_ne]
    exact fun h => hl (h ▸ hc)
  rw [splitOn_eq_splitOnP]
  constructor
  · -- on the length: the first item, or one of the rest
    induction hlen : text.length using Nat.strongRecOn generalizing text with
    | ind len ih =>
      intro hmem
      by_cases hsep : sep ∈ text
      · obtain ⟨first, rest, rfl, hfirst⟩ := eq_append_cons_of_mem hsep
        rw [hcut, hwhole first hfirst] at hmem
        rcases mem_cons.mp hmem with rfl | hmem
        · exact ⟨hfirst, [], sep :: rest, rfl, .inl rfl, .inr ⟨rest, rfl⟩⟩
        · have hless : rest.length < len := by
            rw [← hlen, length_append, length_cons]
            omega
          obtain ⟨hitem, before, after, rfl, hbefore, hafter⟩ := ih _ hless rfl hmem
          refine ⟨hitem, first ++ sep :: before, after, by simp, .inr ?_, hafter⟩
          rcases hbefore with rfl | ⟨front, rfl⟩
          · exact ⟨first, rfl⟩
          · exact ⟨first ++ sep :: front, by simp⟩
      · rw [hwhole text hsep, mem_singleton] at hmem
        subst hmem
        exact ⟨hsep, [], [], by simp, .inl rfl, .inl rfl⟩
  · rintro ⟨hitem, before, after, rfl, hbefore, hafter⟩
    have hlast : item ∈ (item ++ after).splitOnP (· == sep) := by
      rcases hafter with rfl | ⟨back, rfl⟩
      · rw [append_nil, hwhole item hitem]
        exact mem_singleton_self _
      · rw [hcut, hwhole item hitem]
        exact mem_append_left _ (mem_singleton_self _)
    rcases hbefore with rfl | ⟨front, rfl⟩
    · exact hlast
    · rw [append_assoc, append_assoc, singleton_append, hcut]
      exact mem_append_right _ hlast

end Noria

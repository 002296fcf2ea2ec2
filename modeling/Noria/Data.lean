import Mathlib.Algebra.Group.Int.Defs
import Mathlib.Data.List.Basic
import Mathlib.Order.Compare

/-! # Noria's `DataType`

  The values that rows are made of (`noria/src/data.rs`), with the
  equality and the order that the data-flow code uses.

  `==` on `DataType` is coarser than being the same value: integers of the four kinds are compared
  by their number. The abstract side of the development therefore works with `Value`, the class of a
  `DataType` under `==`; `DataType.beq_iff_val` says that `==` is equality of `Value`s.
-/

namespace Noria

open List

/-! ## Representation -/

/-- Longest text that is stored inline. -/
def TINYTEXT_WIDTH : Nat := 15

/-- The payload of `DataType::Text`. `TryFrom<&[u8]>` is the only conversion that builds one: it
    does so for texts that do not fit inline, and a C string holds no NUL byte. -/
structure ArcCStr where
  bytes : List UInt8
  nul_free : (0 : UInt8) ∉ bytes
  long : TINYTEXT_WIDTH < bytes.length
  deriving DecidableEq

/-- The payload of `DataType::TinyText`: a text of at most
    `TINYTEXT_WIDTH` bytes, padded with NUL bytes. -/
structure TinyBytes where
  bytes : List UInt8
  width : bytes.length = TINYTEXT_WIDTH
  deriving DecidableEq

/-- `chrono::NaiveDateTime`: seconds since the epoch, and nanoseconds
    (from 10^9 on inside a leap second). -/
structure NaiveDateTime where
  secs : Int
  nanos : Fin 2000000000
  deriving DecidableEq, Repr

/-- The main type used for user data throughout the code base. -/
inductive DataType where
  | none
  | int (v : Int32)
  | unsignedInt (v : UInt32)
  | bigInt (v : Int64)
  | unsignedBigInt (v : UInt64)
  | real (i : Int64) (f : Int32)
  | text (s : ArcCStr)
  | tinyText (s : TinyBytes)
  | timestamp (t : NaiveDateTime)
  deriving DecidableEq

/-- A row of a table or of a view. -/
abbrev Row := List DataType

/-- The bytes of the `&str` that inline bytes convert to: up to the first
    NUL when the last byte is NUL, all of them otherwise. -/
def tinyStr (bytes : List UInt8) : List UInt8 :=
  if bytes.getLast? = some 0 then bytes.takeWhile (· != 0) else bytes

/-- `From<&DataType> for &str` on a tiny text. -/
def TinyBytes.to_str (s : TinyBytes) : List UInt8 := tinyStr s.bytes

namespace DataType

/-- `From<&DataType> for i128`; `none` where the conversion panics. -/
def to_i128 : DataType → Option Int
  | .bigInt v => some v.toInt
  | .unsignedBigInt v => some v.toNat
  | .int v => some v.toInt
  | .unsignedInt v => some v.toNat
  | _ => Option.none

/-- `From<i128> for DataType`, which panics on what is not an `i64`. -/
def from_i128 (n : Int) : Option DataType :=
  if -2 ^ 63 ≤ n ∧ n < 2 ^ 63 then some (.bigInt (Int64.ofInt n)) else Option.none

def is_integer : DataType → Bool
  | .int _ => true
  | .bigInt _ => true
  | _ => false

/-- `TryFrom<&[u8]> for DataType`. -/
def try_from (b : List UInt8) : Except String DataType :=
  if h : b.length ≤ TINYTEXT_WIDTH then
    .ok (.tinyText ⟨b ++ List.replicate (TINYTEXT_WIDTH - b.length) 0, by
      simp; omega⟩)
  else if hn : (0 : UInt8) ∉ b then
    .ok (.text ⟨b, hn, by omega⟩)
  else
    .error "Invalid utf-8 string"

/-! ## Equality and order -/

/-- `PartialEq for DataType`. The shortcut for byte-for-byte identical operands is left out: each
    case below also holds of two identical operands. The twelve pairs of integers of different kinds
    are the ones the last case compares as `i128`. -/
def eq : DataType → DataType → Bool
  | .text a, .text b => a.bytes == b.bytes
  | .tinyText a, .tinyText b => a.bytes == b.bytes
  | .text a, .tinyText b => a.bytes == b.to_str
  | .tinyText a, .text b => a.to_str == b.bytes
  | .bigInt a, .bigInt b => a == b
  | .unsignedBigInt a, .unsignedBigInt b => a == b
  | .int a, .int b => a == b
  | .unsignedInt a, .unsignedInt b => a == b
  | .real ai af, .real bi bf => ai == bi && af == bf
  | .timestamp a, .timestamp b => a == b
  | .none, .none => true
  | a, b =>
    match a.to_i128, b.to_i128 with
    | some x, some y => x == y
    | _, _ => false

instance : BEq DataType := ⟨DataType.eq⟩

end DataType

def compareBytes : List UInt8 → List UInt8 → Ordering
  | [], [] => .eq
  | [], _ :: _ => .lt
  | _ :: _, [] => .gt
  | a :: as, b :: bs => (compare a.toNat b.toNat).then (compareBytes as bs)

/-- `Ord for NaiveDateTime`. -/
def NaiveDateTime.cmp (a b : NaiveDateTime) : Ordering :=
  (compare a.secs b.secs).then (compare a.nanos.val b.nanos.val)

/-- `Ord for DataType`. Values of different families all compare as
    `Greater`, whichever side they stand on. -/
def DataType.cmp : DataType → DataType → Ordering
  | .text a, .text b => compareBytes a.bytes b.bytes
  | .tinyText a, .tinyText b => compareBytes a.bytes b.bytes
  | .text a, .tinyText b => compareBytes a.bytes b.to_str
  | .tinyText a, .text b => compareBytes a.to_str b.bytes
  | .bigInt a, .bigInt b => compare a.toInt b.toInt
  | .unsignedBigInt a, .unsignedBigInt b => compare a.toNat b.toNat
  | .int a, .int b => compare a.toInt b.toInt
  | .unsignedInt a, .unsignedInt b => compare a.toNat b.toNat
  | .real ai af, .real bi bf => (compare ai.toInt bi.toInt).then (compare af.toInt bf.toInt)
  | .timestamp a, .timestamp b => a.cmp b
  | .none, .none => .eq
  | a, b =>
    match a.to_i128, b.to_i128 with
    | some x, some y => compare x y
    | _, _ => .gt

/-! ## Values up to `==` -/

/-- What a `DataType` denotes: its class under `==`. -/
inductive Value where
  | null
  | int (n : Int)
  | real (i f : Int)
  | text (bytes : List UInt8)
  | tinyText (bytes : List UInt8)
  | timestamp (t : NaiveDateTime)
  deriving DecidableEq

abbrev VRow := List Value

/-- The value a `DataType` denotes. -/
def DataType.val : DataType → Value
  | .none => .null
  | .int v => .int v.toInt
  | .unsignedInt v => .int v.toNat
  | .bigInt v => .int v.toInt
  | .unsignedBigInt v => .int v.toNat
  | .real i f => .real i.toInt f.toInt
  | .text s => .text s.bytes
  | .tinyText s => .tinyText s.bytes
  | .timestamp t => .timestamp t

def Row.val (r : Row) : VRow := r.map DataType.val

@[simp] theorem Row.val_nil : Row.val [] = [] := rfl

@[simp] theorem Row.val_cons (d : DataType) (r : Row) : Row.val (d :: r) = d.val :: Row.val r := rfl

@[simp] theorem Row.val_append (r s : Row) : Row.val (r ++ s) = Row.val r ++ Row.val s :=
  map_append

@[simp] theorem Row.length_val (r : Row) : (Row.val r).length = r.length := length_map _

theorem TinyBytes.to_str_ne (t : TinyBytes) (s : ArcCStr) : s.bytes ≠ t.to_str := by
  intro h
  have hlong := s.long
  have hle : t.to_str.length ≤ t.bytes.length := by
    unfold TinyBytes.to_str tinyStr
    split
    · exact (takeWhile_sublist _).length_le
    · exact Nat.le_refl _
  rw [h] at hlong
  rw [t.width] at hle
  omega

theorem TinyBytes.ne_to_str (t : TinyBytes) (s : ArcCStr) : t.to_str ≠ s.bytes :=
  (t.to_str_ne s).symm

theorem ArcCStr.ext_bytes {a b : ArcCStr} (h : a.bytes = b.bytes) : a = b := by
  cases a
  cases b
  cases h
  rfl

theorem TinyBytes.ext_bytes {a b : TinyBytes} (h : a.bytes = b.bytes) : a = b := by
  cases a
  cases b
  cases h
  rfl

/-- **Equality of data is equality of values.** -/
theorem DataType.beq_iff_val (a b : DataType) : (a == b) = true ↔ a.val = b.val := by
  show DataType.eq a b = true ↔ _
  unfold DataType.eq
  -- The pairs of one kind compare payloads, the mixed integer pairs numbers,
  -- the mixed text pairs never agree.
  cases a <;> cases b <;>
    simp [DataType.val, DataType.to_i128, Int64.toInt_inj, Int32.toInt_inj,
      Int.natCast_inj, UInt64.toNat_inj, UInt32.toNat_inj, TinyBytes.to_str_ne, TinyBytes.ne_to_str]

theorem DataType.bne_iff_val (a b : DataType) : (a != b) = true ↔ a.val ≠ b.val := by
  rw [bne, Bool.not_eq_true', ← Bool.not_eq_true, beq_iff_val]

instance : EquivBEq DataType where
  rfl := by intro a; rw [DataType.beq_iff_val]
  symm := by
    intro a b h
    rw [DataType.beq_iff_val] at h ⊢
    exact h.symm
  trans := by
    intro a b c h h'
    rw [DataType.beq_iff_val] at h h' ⊢
    exact h.trans h'

theorem Row.beq_iff_val (r s : Row) : (r == s) = true ↔ Row.val r = Row.val s := by
  induction r generalizing s with
  | nil => cases s <;> simp
  | cons d r ih =>
    cases s with
    | nil => simp
    | cons e s =>
      rw [cons_beq_cons, Bool.and_eq_true, DataType.beq_iff_val, ih]
      simp

instance : EquivBEq Row where
  rfl := by intro r; rw [Row.beq_iff_val]
  symm := by
    intro r s h
    rw [Row.beq_iff_val] at h ⊢
    exact h.symm
  trans := by
    intro r s t h h'
    rw [Row.beq_iff_val] at h h' ⊢
    exact h.trans h'

/-! ### The order on values -/

variable {d : DataType} {r s : Row} {n : Int}

/-- The order of `DataType::cmp`, on values. -/
def Value.cmp : Value → Value → Ordering
  | .null, .null => .eq
  | .int a, .int b => compare a b
  | .real ai af, .real bi bf => (compare ai bi).then (compare af bf)
  | .text a, .text b => compareBytes a b
  | .tinyText a, .tinyText b => compareBytes a b
  | .text a, .tinyText b => compareBytes a (tinyStr b)
  | .tinyText a, .text b => compareBytes (tinyStr a) b
  | .timestamp a, .timestamp b => a.cmp b
  | _, _ => .gt

theorem compare_natCast (a b : Nat) : compare a b = compare (a : Int) (b : Int) := by
  simp only [compare, compareOfLessAndEq, Int.ofNat_lt, Int.natCast_inj]

theorem DataType.cmp_eq_val (a b : DataType) : a.cmp b = a.val.cmp b.val := by
  unfold DataType.cmp
  cases a <;> cases b <;>
    simp [DataType.val, DataType.to_i128, Value.cmp, TinyBytes.to_str, compare_natCast]

/-- The number an integer denotes; other values count as zero. -/
def Value.intOf : Value → Int
  | .int n => n
  | _ => 0

theorem DataType.val_from_i128 (h : -2 ^ 63 ≤ n ∧ n < 2 ^ 63) :
    ∃ d, DataType.from_i128 n = some d ∧ d.val = .int n := by
  refine ⟨.bigInt (Int64.ofInt n), if_pos h, ?_⟩
  show Value.int (Int64.ofInt n).toInt = .int n
  rw [Int64.toInt_ofInt_of_le h.1 h.2]

theorem DataType.val_of_from_i128 (h : DataType.from_i128 n = some d) : d.val = .int n := by
  by_cases hrange : -2 ^ 63 ≤ n ∧ n < 2 ^ 63
  · obtain ⟨d', hd', hval⟩ := DataType.val_from_i128 hrange
    rw [h] at hd'
    cases hd'
    exact hval
  · rw [from_i128, if_neg hrange] at h
    cases h

theorem DataType.to_i128_of_val (h : d.val = .int n) : d.to_i128 = some n := by
  cases d <;> cases h <;> rfl

/-- The columns of a value row at the given positions. -/
def VRow.proj (cols : List Nat) (v : VRow) : VRow := cols.map fun c => v.getD c .null

@[simp] theorem VRow.length_proj (cols : List Nat) (v : VRow) :
    (VRow.proj cols v).length = cols.length := length_map _

/-- Reading several columns of a row. The outer `Option` is the panic on an index out of bounds. -/
def Row.cols (r : Row) (cols : List Nat) : Option Row := cols.mapM fun c => r[c]?

theorem Row.val_getD (r : Row) (c : Nat) (h : r[c]? = some d) :
    (Row.val r).getD c .null = d.val := by
  unfold Row.val
  rw [getD_eq_getElem?_getD, getElem?_map, h]
  rfl

theorem Row.getElem?_val (row : Row) {c : Nat} (h : c < row.length) :
    ∃ d, row[c]? = some d ∧ d.val = (Row.val row).getD c .null :=
  ⟨row[c], getElem?_eq_getElem h, (Row.val_getD row c (getElem?_eq_getElem h)).symm⟩

theorem Row.mapM_val {α : Type} {l : List α} {f : α → Option DataType} {g : α → Value}
    (h : ∀ a ∈ l, ∃ d, f a = some d ∧ d.val = g a) :
    ∃ row : Row, l.mapM f = some row ∧ Row.val row = l.map g := by
  induction l with
  | nil => exact ⟨[], rfl, rfl⟩
  | cons a l ih =>
    obtain ⟨d, hd, hval⟩ := h a mem_cons_self
    obtain ⟨row, hrow, hvals⟩ := ih (forall_mem_cons.mp h).2
    refine ⟨d :: row, ?_, ?_⟩
    · simp [mapM_cons, hd, hrow]
    · rw [Row.val_cons, hval, hvals, map_cons]

theorem Row.val_cols {cols : List Nat} (h : r.cols cols = some s) :
    Row.val s = VRow.proj cols (Row.val r) := by
  induction cols generalizing s with
  | nil =>
    simp only [Row.cols, mapM_nil, Option.pure_def, Option.some.injEq] at h
    subst h
    rfl
  | cons c cs ih =>
    simp only [Row.cols, mapM_cons, Option.pure_def, Option.bind_eq_bind,
      Option.bind_eq_some_iff] at h
    obtain ⟨d, hd, t, ht, hs⟩ := h
    cases hs
    show d.val :: Row.val t = (Row.val r).getD c .null :: VRow.proj cs (Row.val r)
    rw [ih ht, Row.val_getD r c hd]

theorem Row.cols_isSome {cols : List Nat} (h : ∀ c ∈ cols, c < r.length) :
    ∃ s, r.cols cols = some s := by
  induction cols with
  | nil => exact ⟨[], rfl⟩
  | cons c cs ih =>
    obtain ⟨s, hs⟩ := ih (forall_mem_cons.mp h).2
    have hc := h c mem_cons_self
    refine ⟨r[c] :: s, ?_⟩
    unfold Row.cols at hs ⊢
    simp [mapM_cons, hs, getElem?_eq_getElem hc]

theorem Row.length_cols {cols : List Nat} (h : r.cols cols = some s) : s.length = cols.length := by
  rw [← Row.length_val s, Row.val_cols h, VRow.length_proj]

end Noria

import Noria.Data
import Mathlib.Algebra.Group.Nat.Defs

/-! # Arithmetic on `DataType`

  `Add`, `Sub`, `Mul` and `Div` for `DataType` are one macro (`arithmetic_operation` in
  `noria/src/data.rs`). It takes two numbers of different kinds to a common machine type, computes
  there, and takes the result back by the `From` conversion of that type.

  `promotion` is the table of machine types. An operation on two integers
  is exact as long as the pair is in the table and the result fits the
  machine type of the pair: `arithmetic_operation_exact_iff`.
-/

namespace Noria

/-! ## Machine integers -/

inductive ArithmeticOperator where
  | add
  | subtract
  | multiply
  | divide
  deriving DecidableEq

/-- The exact result; division rounds towards zero, and there is none by zero. -/
def ArithmeticOperator.eval : ArithmeticOperator → Int → Int → Option Int
  | .add, a, b => some (a + b)
  | .subtract, a, b => some (a - b)
  | .multiply, a, b => some (a * b)
  | .divide, a, b => if b = 0 then none else some (a.tdiv b)

/-- The machine types that operands are taken to. -/
inductive IntType where
  | i32
  | u32
  | i64
  | u64
  | i128
  deriving DecidableEq

namespace IntType

def bits : IntType → Nat
  | .i32 => 32
  | .u32 => 32
  | .i64 => 64
  | .u64 => 64
  | .i128 => 128

def signed : IntType → Bool
  | .i32 => true
  | .u32 => false
  | .i64 => true
  | .u64 => false
  | .i128 => true

/-- The numbers of a machine type. -/
def Has (t : IntType) (n : Int) : Prop :=
  if t.signed then -2 ^ (t.bits - 1) ≤ n ∧ n < 2 ^ (t.bits - 1) else 0 ≤ n ∧ n < 2 ^ t.bits

instance (t : IntType) (n : Int) : Decidable (t.Has n) :=
  inferInstanceAs (Decidable (if t.signed then _ else _))

/-- The number of the machine type with the same lowest bits. -/
def wrap (t : IntType) (n : Int) : Int :=
  if t.signed then n.bmod (2 ^ t.bits) else n % 2 ^ t.bits

/-- The operation in the machine type. A result that does not fit is a panic where overflow is
    checked and wraps around elsewhere; only for a division it always is a panic. -/
def operate (t : IntType) (overflow_checks : Bool) (op : ArithmeticOperator) (a b : Int) :
    Option Int := do
  let n ← op.eval a b
  if t.Has n then some n
  else if overflow_checks || op == .divide then none
  else some (t.wrap n)

/-- `From<i32>`, `From<u32>`, `From<i64>`, `From<u64>` and `From<i128>` for `DataType`. -/
def into : IntType → Int → Option DataType
  | .i32, n => some (.int (Int32.ofInt n))
  | .u32, n => some (.unsignedInt (UInt32.ofNat n.toNat))
  | .i64, n => some (.bigInt (Int64.ofInt n))
  | .u64, n => some (.unsignedBigInt (UInt64.ofNat n.toNat))
  | .i128, n => DataType.from_i128 n

/-- The machine type that results of the given one are stored in: there is
    no `DataType` for an `i128`. -/
def stored : IntType → IntType
  | .i128 => .i64
  | t => t

/-- Results that come back as a `DataType`. -/
def Fits (t : IntType) (n : Int) : Prop := t.stored.Has n

theorem has_of_fits {t : IntType} {n : Int} (h : t.Fits n) : t.Has n := by
  cases t <;> simp only [Fits, stored, Has, signed, bits] at h ⊢ <;> simp at h ⊢ <;> omega

/-- Numbers of the machine type that fit come back as themselves. -/
theorem into_of_fits {t : IntType} {n : Int} (h : t.Fits n) :
    ∃ d, t.into n = some d ∧ d.val = .int n := by
  cases t with
  | i32 =>
    refine ⟨_, rfl, ?_⟩
    show Value.int (Int32.ofInt n).toInt = .int n
    rw [Int32.toInt_ofInt_of_le h.1 h.2]
  | u32 =>
    refine ⟨_, rfl, ?_⟩
    have hn : n.toNat < 2 ^ 32 := by
      have hlt : n < 2 ^ 32 := h.2
      omega
    show Value.int (UInt32.ofNat n.toNat).toNat = .int n
    rw [UInt32.toNat_ofNat_of_lt' hn, Int.toNat_of_nonneg h.1]
  | i64 =>
    refine ⟨_, rfl, ?_⟩
    show Value.int (Int64.ofInt n).toInt = .int n
    rw [Int64.toInt_ofInt_of_le h.1 h.2]
  | u64 =>
    refine ⟨_, rfl, ?_⟩
    have hn : n.toNat < 2 ^ 64 := by
      have hlt : n < 2 ^ 64 := h.2
      omega
    show Value.int (UInt64.ofNat n.toNat).toNat = .int n
    rw [UInt64.toNat_ofNat_of_lt' hn, Int.toNat_of_nonneg h.1]
  | i128 => exact DataType.val_from_i128 h

/-- Whatever number comes back is one of the stored type. -/
theorem fits_of_into {t : IntType} {m n : Int} {d : DataType} (h : t.into m = some d)
    (hd : d.val = .int n) : t.Fits n := by
  cases t with
  | i32 =>
    cases h
    cases hd
    exact ⟨Int32.le_toInt _, Int32.toInt_lt _⟩
  | u32 =>
    cases h
    cases hd
    exact ⟨Int.natCast_nonneg _, by exact_mod_cast (UInt32.ofNat m.toNat).toNat_lt⟩
  | i64 =>
    cases h
    cases hd
    exact ⟨Int64.le_toInt _, Int64.toInt_lt _⟩
  | u64 =>
    cases h
    cases hd
    exact ⟨Int.natCast_nonneg _, by exact_mod_cast (UInt64.ofNat m.toNat).toNat_lt⟩
  | i128 =>
    rw [DataType.val_of_from_i128 h] at hd
    cases hd
    by_cases hrange : -2 ^ 63 ≤ m ∧ m < 2 ^ 63
    · exact hrange
    · simp only [into, DataType.from_i128, if_neg hrange] at h
      cases h

/-- **Exactness in one machine type**: the exact result comes back if and only if it fits. -/
theorem operate_into_iff {t : IntType} {overflow_checks : Bool} {op : ArithmeticOperator}
    {a b n : Int} (hn : op.eval a b = some n) :
    (∃ d, (t.operate overflow_checks op a b).bind t.into = some d ∧ d.val = .int n) ↔ t.Fits n := by
  constructor
  · rintro ⟨d, hd, hval⟩
    rw [Option.bind_eq_some_iff] at hd
    obtain ⟨m, -, hm⟩ := hd
    exact fits_of_into hm hval
  · intro hfits
    obtain ⟨d, hd, hval⟩ := into_of_fits hfits
    refine ⟨d, ?_, hval⟩
    have hop : t.operate overflow_checks op a b = some n := by
      unfold operate
      rw [hn]
      exact if_pos (has_of_fits hfits)
    rw [hop]
    exact hd

end IntType

/-! ## The operation on two `DataType`s -/

/-- The doubles of the machine: their conversions and their arithmetic. -/
structure Doubles where
  f64 : Type
  from_int : Int → f64
  from_real : Int64 → Int32 → f64
  operate : ArithmeticOperator → f64 → f64 → f64
  /-- `From<f64> for DataType`, which panics on what is not finite. -/
  into : f64 → Option DataType

/-- `From<&DataType> for f64`; `none` where the conversion panics. -/
def Doubles.from_data (doubles : Doubles) : DataType → Option doubles.f64
  | .real i f => some (doubles.from_real i f)
  | .int v => some (doubles.from_int v.toInt)
  | .bigInt v => some (doubles.from_int v.toInt)
  | _ => none

/-- What the meaning of the arithmetic depends on besides the source: the
    build has overflow checks or not, and the machine has doubles. -/
structure Target where
  overflow_checks : Bool
  doubles : Doubles

namespace Target

/-- `(a $op b).into()` in a machine type. -/
def integers (target : Target) (op : ArithmeticOperator) (t : IntType) (a b : Int) :
    Option DataType :=
  (t.operate target.overflow_checks op a b).bind t.into

/-- `(a $op b).into()` on doubles. -/
def reals (target : Target) (op : ArithmeticOperator) (first second : DataType) :
    Option DataType := do
  let a ← target.doubles.from_data first
  let b ← target.doubles.from_data second
  target.doubles.into (target.doubles.operate op a b)

end Target

/-- `arithmetic_operation!`; `none` where it panics. -/
def arithmetic_operation (target : Target) (op : ArithmeticOperator) :
    DataType → DataType → Option DataType
  | .none, _ => some .none
  | _, .none => some .none
  | .int a, .int b => target.integers op .i32 a.toInt b.toInt
  | .unsignedInt a, .unsignedInt b => target.integers op .u32 a.toNat b.toNat
  | .bigInt a, .bigInt b => target.integers op .i64 a.toInt b.toInt
  | .unsignedBigInt a, .unsignedBigInt b => target.integers op .u64 a.toNat b.toNat
  | .int a, .bigInt b => target.integers op .i64 a.toInt b.toInt
  | .bigInt a, .int b => target.integers op .i64 a.toInt b.toInt
  | .int a, .unsignedBigInt b => target.integers op .i128 a.toInt b.toNat
  | .unsignedBigInt a, .int b => target.integers op .i128 a.toNat b.toInt
  | .bigInt a, .unsignedBigInt b => target.integers op .i128 a.toInt b.toNat
  | .unsignedBigInt a, .bigInt b => target.integers op .i128 a.toNat b.toInt
  | .unsignedBigInt a, .unsignedInt b => target.integers op .u64 a.toNat b.toNat
  | .unsignedInt a, .unsignedBigInt b => target.integers op .u64 a.toNat b.toNat
  | .int a, .real i f => target.reals op (.int a) (.real i f)
  | .bigInt a, .real i f => target.reals op (.bigInt a) (.real i f)
  | .unsignedInt a, .real i f => target.reals op (.unsignedInt a) (.real i f)
  | .unsignedBigInt a, .real i f => target.reals op (.unsignedBigInt a) (.real i f)
  | .real i f, .int b => target.reals op (.real i f) (.int b)
  | .real i f, .bigInt b => target.reals op (.real i f) (.bigInt b)
  | .real i f, .unsignedInt b => target.reals op (.real i f) (.unsignedInt b)
  | .real i f, .unsignedBigInt b => target.reals op (.real i f) (.unsignedBigInt b)
  | .real i f, .real j g => target.reals op (.real i f) (.real j g)
  | _, _ => none

/-- The machine type two integers are taken to. There is none for an
    `UnsignedInt` and a signed integer. -/
def promotion : DataType → DataType → Option IntType
  | .int _, .int _ => some .i32
  | .unsignedInt _, .unsignedInt _ => some .u32
  | .bigInt _, .bigInt _ => some .i64
  | .int _, .bigInt _ => some .i64
  | .bigInt _, .int _ => some .i64
  | .unsignedBigInt _, .unsignedBigInt _ => some .u64
  | .unsignedBigInt _, .unsignedInt _ => some .u64
  | .unsignedInt _, .unsignedBigInt _ => some .u64
  | .int _, .unsignedBigInt _ => some .i128
  | .unsignedBigInt _, .int _ => some .i128
  | .bigInt _, .unsignedBigInt _ => some .i128
  | .unsignedBigInt _, .bigInt _ => some .i128
  | _, _ => none

/-- Two integers are combined in the machine type of the table. -/
theorem arithmetic_operation_integers (target : Target) (op : ArithmeticOperator)
    {a b : DataType} {x y : Int} (ha : a.val = .int x) (hb : b.val = .int y) :
    arithmetic_operation target op a b =
      (promotion a b).bind fun t => target.integers op t x y := by
  cases a <;> cases ha <;> cases b <;> cases hb <;> rfl

theorem arithmetic_operation_null (target : Target) (op : ArithmeticOperator) {a b : DataType}
    (h : a = .none ∨ b = .none) : arithmetic_operation target op a b = some .none := by
  rcases h with rfl | rfl
  · cases b <;> rfl
  · cases a <;> rfl

/-! ## Exactness -/

/-- The numbers that some integer kind of `DataType` has. -/
def Representable (n : Int) : Prop := IntType.i64.Has n ∨ IntType.u64.Has n

instance (n : Int) : Decidable (Representable n) :=
  inferInstanceAs (Decidable (IntType.i64.Has n ∨ IntType.u64.Has n))

/-- The result of an operation is the exact one: NULL on NULL, and the
    number itself on two integers whenever some `DataType` can hold it. -/
structure Exact (op : ArithmeticOperator) (a b : DataType) (result : Option DataType) :
    Prop where
  null : a = .none ∨ b = .none → result = some .none
  integer : ∀ x y n, a.val = .int x → b.val = .int y → op.eval x y = some n →
    Representable n → ∃ d, result = some d ∧ d.val = .int n

/-- The result, if it is representable at all, fits the machine type of the two operands. -/
def FitsPromotion (op : ArithmeticOperator) (a b : DataType) : Prop :=
  ∀ x y n, a.val = .int x → b.val = .int y → op.eval x y = some n → Representable n →
    ∃ t, promotion a b = some t ∧ t.Fits n

/-- **Integer arithmetic is exact** where the result fits the machine type
    of the operands, and only there. -/
theorem arithmetic_operation_exact_iff (target : Target) (op : ArithmeticOperator)
    (a b : DataType) :
    Exact op a b (arithmetic_operation target op a b) ↔ FitsPromotion op a b := by
  constructor
  · intro h x y n hx hy hn hrep
    have hexact := h.integer x y n hx hy hn hrep
    rw [arithmetic_operation_integers target op hx hy] at hexact
    cases ht : promotion a b with
    | none =>
      -- a pair that is not in the table panics
      rw [ht] at hexact
      obtain ⟨d, hd, -⟩ := hexact
      cases hd
    | some t =>
      rw [ht] at hexact
      exact ⟨t, rfl, (IntType.operate_into_iff hn).mp hexact⟩
  · intro h
    refine ⟨arithmetic_operation_null target op, fun x y n hx hy hn hrep => ?_⟩
    obtain ⟨t, ht, hfits⟩ := h x y n hx hy hn hrep
    rw [arithmetic_operation_integers target op hx hy, ht]
    exact (IntType.operate_into_iff hn).mpr hfits

end Noria

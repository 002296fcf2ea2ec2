import Mathlib.Algebra.Group.Nat.Defs
import Noria.Data
import Noria.Framework.Decimal

/-! # Parsed SQL

  The part of the parser crate's syntax tree that `dataflow/sql.rs` looks at, and how the texts in
  it are read. Forms that no function looks into are one constructor `other`; the fields of a
  `SELECT` that are never read (compounds, ordering, limits, window clauses) are left out.
-/

namespace Noria.Sqlite

inductive Operator where
  | and
  | or
  | equals
  | notEquals
  | greater
  | greaterEquals
  | less
  | lessEquals
  | other (tag : Nat)
  deriving DecidableEq, Repr

inductive UnaryOperator where
  | negative
  | other (tag : Nat)
  deriving DecidableEq, Repr

inductive Literal where
  | numeric (text : String)
  | string (text : String)
  | blob (text : String)
  | keyword (text : String)
  | null
  | currentDate
  | currentTime
  | currentTimestamp
  deriving DecidableEq, Repr

inductive Expr where
  | binary (left : Expr) (op : Operator) (right : Expr)
  | functionCall (name : String) (args : Option (List Expr))
  | functionCallStar (name : String)
  | id (name : String)
  | literal (lit : Literal)
  | parenthesized (inner : List Expr)
  | qualified (table col : String)
  | unary (op : UnaryOperator) (inner : Expr)
  /-- A placeholder. -/
  | variable (name : String)
  | other (tag : Nat)

inductive ResultColumn where
  | expr (e : Expr) (as_name : Option String)
  | star
  | tableStar (table : String)

inductive SelectTable where
  | table (name : String) (as_name : Option String)
  | select
  | other (tag : Nat)
  deriving DecidableEq

structure JoinFlags where
  left : Bool
  right : Bool
  deriving DecidableEq

inductive JoinOperator where
  | comma
  | typedJoin (flags : Option JoinFlags)
  deriving DecidableEq

inductive JoinConstraint where
  | onExpr (e : Expr)
  | usingCols (cols : List String)

structure JoinedSelectTable where
  operator : JoinOperator
  table : SelectTable
  constraint : Option JoinConstraint

structure FromClause where
  select : Option SelectTable
  joins : Option (List JoinedSelectTable)

/-- The body of a simple `SELECT`. -/
structure SelectBody where
  columns : List ResultColumn
  from_clause : Option FromClause
  where_clause : Option Expr
  group_by : Option (List Expr)

inductive OneSelect where
  | select (body : SelectBody)
  | values

inductive Cmd where
  | select (body : OneSelect)
  | other

/-! ## Texts -/

/-- `str::eq_ignore_ascii_case`. -/
def eq_ignore_ascii_case (a b : String) : Bool :=
  a.toList.map Char.toLower == b.toList.map Char.toLower

/-- An optional sign and what follows it. -/
def splitSign : List Char → Bool × List Char
  | '-' :: cs => (true, cs)
  | '+' :: cs => (false, cs)
  | cs => (false, cs)

/-- `str::parse::<i64>`. -/
def parse_i64 (s : String) : Option Int64 := do
  let (negative, digits) := splitSign s.toList
  let n ← parseDigits digits
  let v : Int := if negative then - n else n
  if -2 ^ 63 ≤ v ∧ v < 2 ^ 63 then some (Int64.ofInt v) else none

/-- A decimal number `mantissa * 10 ^ exponent`. -/
structure Decimal where
  mantissa : Int
  exponent : Int
  deriving DecidableEq, Repr

/-- `str::parse::<f64>` on decimal texts, without the rounding to a double.
    The names of infinities and NaNs are not numeric tokens. -/
def parse_f64 (s : String) : Option Decimal := do
  let (negative, cs) := splitSign s.toList
  let (body, expo) := cs.span fun c => c ≠ 'e' ∧ c ≠ 'E'
  let exponent : Int ←
    match expo with
    | [] => some 0
    | _ :: es => do
      let (eneg, ds) := splitSign es
      let n ← parseDigits ds
      some (if eneg then - (n : Int) else n)
  let (whole, frac) := body.span (· ≠ '.')
  let fraction := frac.drop 1
  let n ← parseDigits (whole ++ fraction)
  some ⟨if negative then - n else n, exponent - fraction.length⟩

/-- `f as i64`, which saturates. -/
def saturate (v : Int) : Int64 :=
  if v < -2 ^ 63 then Int64.ofInt (-2 ^ 63)
  else if 2 ^ 63 ≤ v then Int64.ofInt (2 ^ 63 - 1)
  else Int64.ofInt v

/-- The two parts of a `Real`: the truncated number, and nine decimals of the absolute fraction. -/
def Decimal.toReal (d : Decimal) : DataType :=
  if 0 ≤ d.exponent then
    .real (saturate (d.mantissa * 10 ^ d.exponent.toNat)) 0
  else
    let scale : Nat := 10 ^ (-d.exponent).toNat
    .real (saturate (d.mantissa.tdiv scale))
      (Int32.ofInt (d.mantissa.natAbs % scale * 1000000000 / scale : Nat))

/-- `From<&str> for DataType`; `none` is the panic of its `unwrap`. -/
def DataType.from_str (s : String) : Option DataType :=
  match DataType.try_from s.toUTF8.toList with
  | .ok d => some d
  | .error _ => none

end Noria.Sqlite

import Mathlib.Order.Lattice

/-! # Negations in conditions

  Before a query is planned, `remove_negation` takes the negations out of its conditions
  (`server/src/controller/sql/passes/negation_removal.rs`): a negation turns AND into OR and is
  pushed down to the comparisons, whose operators are replaced by their complements.

  LIKE and IN have no complement among the operators, and a negation that reaches one of them is
  `unreachable!`. `remove_negation_iff` says that this is the only way to fail.
-/

namespace Noria.Server.Sql

open Option

/-! ## Conditions -/

/-- The parser's operators in a WHERE clause. -/
inductive Operator where
  | and
  | or
  | like
  | equal
  | notEqual
  | greater
  | greaterOrEqual
  | less
  | lessOrEqual
  /-- The source's `In`. -/
  | isIn
  deriving DecidableEq

inductive Literal where
  | null
  | integer (n : Int64)
  | unsignedInteger (n : UInt64)
  | fixedPoint (integral : Int32) (fractional : Int32)
  | string (s : String)
  | blob (bytes : List UInt8)
  | currentTime
  | currentDate
  | currentTimestamp
  | placeholder
  deriving DecidableEq

structure Column where
  name : String
  table : Option String
  deriving DecidableEq

/-- Subqueries have been replaced by columns of their views. -/
inductive ConditionBase where
  | field (c : Column)
  | literal (l : Literal)
  | literalList (ls : List Literal)
  deriving DecidableEq

inductive ConditionExpression where
  | comparisonOp (operator : Operator) (left right : ConditionExpression)
  | logicalOp (operator : Operator) (left right : ConditionExpression)
  | negationOp (inner : ConditionExpression)
  | bracketed (inner : ConditionExpression)
  | base (b : ConditionBase)
  | arithmetic
  deriving DecidableEq

inductive JoinConstraint where
  | on (ce : ConditionExpression)
  | using (columns : List Column)

structure SelectStatement where
  where_clause : Option ConditionExpression
  join : List JoinConstraint

/-! ## The pass -/

/-- What a negation makes of AND and OR. -/
def Operator.dual : Operator → Bool → Option Operator
  | op, false => some op
  | .and, true => some .or
  | .or, true => some .and
  | _, true => none

/-- What a negation makes of a comparison. -/
def Operator.complement : Operator → Bool → Option Operator
  | op, false => some op
  | .equal, true => some .notEqual
  | .notEqual, true => some .equal
  | .greater, true => some .lessOrEqual
  | .greaterOrEqual, true => some .less
  | .less, true => some .greaterOrEqual
  | .lessOrEqual, true => some .greater
  | _, true => none

/-- `none` is a panic. -/
def normalize_condition_expr : ConditionExpression → Bool → Option ConditionExpression
  | .logicalOp operator left right, negate => do
    let operator ← operator.dual negate
    let left ← normalize_condition_expr left negate
    let right ← normalize_condition_expr right negate
    some (.logicalOp operator left right)
  | .comparisonOp operator left right, negate => do
    let operator ← operator.complement negate
    let left ← normalize_condition_expr left false
    let right ← normalize_condition_expr right false
    some (.comparisonOp operator left right)
  | .negationOp inner, negate => normalize_condition_expr inner (!negate)
  | .bracketed inner, negate => do
    let inner ← normalize_condition_expr inner negate
    some (.bracketed inner)
  | .base b, _ => some (.base b)
  | .arithmetic, _ => none

def JoinConstraint.remove_negation : JoinConstraint → Option JoinConstraint
  | .on ce => (normalize_condition_expr ce false).map .on
  | .using columns => some (.using columns)

def remove_negation (s : SelectStatement) : Option SelectStatement := do
  let where_clause ← s.where_clause.mapM (normalize_condition_expr · false)
  let join ← s.join.mapM JoinConstraint.remove_negation
  some ⟨where_clause, join⟩

/-! ## Meaning -/

/-- Conjunction of three truth values; `none` is unknown. -/
def and3 : Option Bool → Option Bool → Option Bool
  | some false, _ => some false
  | _, some false => some false
  | some true, some true => some true
  | _, _ => none

/-- Disjunction of three truth values. -/
def or3 : Option Bool → Option Bool → Option Bool
  | some true, _ => some true
  | _, some true => some true
  | some false, some false => some false
  | _, _ => none

theorem not_and3 (a b : Option Bool) : (and3 a b).map not = or3 (a.map not) (b.map not) := by
  rcases a with _ | _ | _ <;> rcases b with _ | _ | _ <;> rfl

theorem not_or3 (a b : Option Bool) : (or3 a b).map not = and3 (a.map not) (b.map not) := by
  rcases a with _ | _ | _ <;> rcases b with _ | _ | _ <;> rfl

/-- What conditions are evaluated over: the values of columns, where `none`
    is NULL, and the meaning of literals and of LIKE. -/
structure Assignment (V : Type) where
  column : Column → Option V
  literal : Literal → Option V
  like : V → V → Bool

namespace Assignment

variable {V : Type} [LinearOrder V] (row : Assignment V)

def scalar : ConditionBase → Option V
  | .field c => row.column c
  | .literal l => row.literal l
  | .literalList _ => none

def members : ConditionBase → List (Option V)
  | .literalList ls => ls.map row.literal
  | b => [row.scalar b]

def test : Operator → V → V → Bool
  | .like, x, y => row.like x y
  | .equal, x, y => decide (x = y)
  | .notEqual, x, y => decide (x ≠ y)
  | .greater, x, y => decide (y < x)
  | .greaterOrEqual, x, y => decide (y ≤ x)
  | .less, x, y => decide (x < y)
  | .lessOrEqual, x, y => decide (x ≤ y)
  | _, _, _ => false

/-- A comparison with NULL is unknown. -/
def compare (op : Operator) (x y : Option V) : Option Bool :=
  x.bind fun x => y.map (row.test op x)

/-- IN is a disjunction of equalities. -/
def comparison (op : Operator) (l r : ConditionBase) : Option Bool :=
  if op = .isIn then
    (row.members r).foldr (fun y => or3 (row.compare .equal (row.scalar l) y)) (some false)
  else row.compare op (row.scalar l) (row.scalar r)

def truth : ConditionExpression → Option Bool
  | .comparisonOp op (.base l) (.base r) => row.comparison op l r
  | .logicalOp .and left right => and3 (truth left) (truth right)
  | .logicalOp .or left right => or3 (truth left) (truth right)
  | .negationOp inner => (truth inner).map not
  | .bracketed inner => truth inner
  | _ => none

/-- The truth value with which a condition is visited. -/
def polar (negate : Bool) (t : Option Bool) : Option Bool := if negate then t.map not else t

variable {row}

theorem comparison_complement {op op' : Operator} (h : op.complement true = some op')
    (l r : ConditionBase) : row.comparison op' l r = (row.comparison op l r).map not := by
  have htest : ∀ x y, row.test op' x y = !row.test op x y := by
    intro x y
    cases op <;> cases h <;>
      simp only [test, ← decide_not, not_lt, not_le, ne_eq, Decidable.not_not]
  have hcompare : ∀ x y, row.compare op' x y = (row.compare op x y).map not := by
    intro x y
    cases x <;> cases y <;> simp [compare, htest]
  have hop : op ≠ .isIn ∧ op' ≠ .isIn := by
    cases op <;> cases h <;> decide
  simp only [comparison, if_neg hop.1, if_neg hop.2, hcompare]

end Assignment

/-! ## Negations are removed -/

namespace ConditionExpression

/-- A condition of AND, OR, NOT and brackets over comparisons. -/
def IsCondition : ConditionExpression → Prop
  | .comparisonOp op left right =>
    op ≠ .and ∧ op ≠ .or ∧ (∃ l, left = .base l) ∧ ∃ r, right = .base r
  | .logicalOp op left right => (op = .and ∨ op = .or) ∧ left.IsCondition ∧ right.IsCondition
  | .negationOp inner => inner.IsCondition
  | .bracketed inner => inner.IsCondition
  | .base _ => False
  | .arithmetic => False

def HasNegation : ConditionExpression → Prop
  | .comparisonOp _ left right => left.HasNegation ∨ right.HasNegation
  | .logicalOp _ left right => left.HasNegation ∨ right.HasNegation
  | .negationOp _ => True
  | .bracketed inner => inner.HasNegation
  | .base _ => False
  | .arithmetic => False

/-- No LIKE and no IN stands under an odd number of negations. The flag is
    the parity of those outside. -/
def Complemented : ConditionExpression → Bool → Prop
  | .comparisonOp op _ _, negate => negate = true → op ≠ .like ∧ op ≠ .isIn
  | .logicalOp _ left right, negate => left.Complemented negate ∧ right.Complemented negate
  | .negationOp inner, negate => inner.Complemented (!negate)
  | .bracketed inner, negate => inner.Complemented negate
  | .base _, _ => True
  | .arithmetic, _ => True

/-- What `normalize_condition_expr` is to return. -/
structure Normalized (e : ConditionExpression) (negate : Bool) (e' : ConditionExpression) :
    Prop where
  positive : ¬e'.HasNegation
  truth : ∀ (V : Type) [LinearOrder V] (row : Assignment V),
    row.truth e' = Assignment.polar negate (row.truth e)

variable {e left right : ConditionExpression} {negate : Bool}

/-- De Morgan, for both operators and both polarities. -/
theorem normalize_logicalOp {op : Operator} (hop : op = .and ∨ op = .or)
    {left' right' : ConditionExpression} (hleft : left.Normalized negate left')
    (hright : right.Normalized negate right') :
    ∃ op', op.dual negate = some op' ∧
      (logicalOp op left right).Normalized negate (.logicalOp op' left' right') := by
  have hpositive : ∀ op', ¬(logicalOp op' left' right').HasNegation := fun _ h =>
    h.elim hleft.positive hright.positive
  cases negate with
  | false =>
    refine ⟨op, rfl, hpositive op, fun V _ row => ?_⟩
    rcases hop with rfl | rfl <;>
      simp [Assignment.truth, Assignment.polar, hleft.truth, hright.truth]
  | true =>
    rcases hop with rfl | rfl
    · refine ⟨.or, rfl, hpositive _, fun V _ row => ?_⟩
      simp [Assignment.truth, Assignment.polar, hleft.truth, hright.truth, not_and3]
    · refine ⟨.and, rfl, hpositive _, fun V _ row => ?_⟩
      simp [Assignment.truth, Assignment.polar, hleft.truth, hright.truth, not_or3]

theorem normalize_comparisonOp {op : Operator} (hand : op ≠ .and) (hor : op ≠ .or)
    (h : negate = true → op ≠ .like ∧ op ≠ .isIn) (l r : ConditionBase) :
    ∃ op', op.complement negate = some op' ∧
      (comparisonOp op (.base l) (.base r)).Normalized negate
        (.comparisonOp op' (.base l) (.base r)) := by
  have hpositive : ∀ op', ¬(comparisonOp op' (.base l) (.base r)).HasNegation := by
    simp [HasNegation]
  cases negate with
  | false => exact ⟨op, rfl, hpositive op, fun _ _ _ => rfl⟩
  | true =>
    obtain ⟨hlike, hin⟩ := h rfl
    have hop : ∃ op', op.complement true = some op' := by
      cases op <;> first | contradiction | exact ⟨_, rfl⟩
    obtain ⟨op', hop'⟩ := hop
    exact ⟨op', hop', hpositive op', fun _ _ _ => Assignment.comparison_complement hop' l r⟩

/-- The pass on a condition, for both polarities at once. -/
theorem normalize_of_complemented (hcond : e.IsCondition) (h : e.Complemented negate) :
    ∃ e', normalize_condition_expr e negate = some e' ∧ e.Normalized negate e' := by
  induction e generalizing negate with
  | comparisonOp op left right =>
    obtain ⟨hand, hor, ⟨l, rfl⟩, ⟨r, rfl⟩⟩ := hcond
    obtain ⟨op', hop', hnormal⟩ := normalize_comparisonOp hand hor h l r
    exact ⟨_, by simp [normalize_condition_expr, hop'], hnormal⟩
  | logicalOp op left right ihl ihr =>
    obtain ⟨left', hleft', hleft⟩ := ihl hcond.2.1 h.1
    obtain ⟨right', hright', hright⟩ := ihr hcond.2.2 h.2
    obtain ⟨op', hop', hnormal⟩ := normalize_logicalOp hcond.1 hleft hright
    exact ⟨_, by simp [normalize_condition_expr, hop', hleft', hright'], hnormal⟩
  | negationOp inner ih =>
    obtain ⟨inner', hinner', hinner⟩ := ih hcond h
    refine ⟨inner', hinner', hinner.positive, fun V _ row => ?_⟩
    rw [hinner.truth]
    cases negate <;> simp [Assignment.truth, Assignment.polar, Function.comp_def]
  | bracketed inner ih =>
    obtain ⟨inner', hinner', hinner⟩ := ih hcond h
    exact ⟨.bracketed inner', by simp [normalize_condition_expr, hinner'], hinner.positive,
      fun V _ row => hinner.truth V row⟩
  | base b => exact hcond.elim
  | arithmetic => exact hcond.elim

/-- A negation that reaches LIKE or IN is a panic. -/
theorem complemented_of_normalize {e' : ConditionExpression}
    (h : normalize_condition_expr e negate = some e') : e.Complemented negate := by
  induction e generalizing negate e' with
  | comparisonOp op left right =>
    rintro rfl
    cases op <;> first | decide | cases h
  | logicalOp op left right ihl ihr =>
    simp only [normalize_condition_expr, bind_eq_bind, bind_eq_some_iff] at h
    obtain ⟨_, _, left', hleft, right', hright, _⟩ := h
    exact ⟨ihl hleft, ihr hright⟩
  | negationOp inner ih => exact ih h
  | bracketed inner ih =>
    simp only [normalize_condition_expr, bind_eq_bind, bind_eq_some_iff] at h
    obtain ⟨inner', hinner, _⟩ := h
    exact ih hinner
  | base b => trivial
  | arithmetic => trivial

end ConditionExpression

/-- **Negations are removed and the truth value stays**, exactly if no LIKE
    and no IN stands under an odd number of them. -/
theorem remove_negation_iff (e : ConditionExpression) (hcond : e.IsCondition) :
    (∃ e', remove_negation ⟨some e, []⟩ = some ⟨some e', []⟩ ∧ ¬e'.HasNegation ∧
      ∀ (V : Type) [LinearOrder V] (row : Assignment V), row.truth e' = row.truth e) ↔
    e.Complemented false := by
  have hquery : ∀ e', remove_negation ⟨some e, []⟩ = some ⟨some e', []⟩ ↔
      normalize_condition_expr e false = some e' := by
    intro e'
    cases h : normalize_condition_expr e false <;> simp [remove_negation, h]
  constructor
  · rintro ⟨e', he', -⟩
    exact ConditionExpression.complemented_of_normalize ((hquery e').mp he')
  · intro h
    obtain ⟨e', he', hnormal⟩ := ConditionExpression.normalize_of_complemented hcond h
    exact ⟨e', (hquery e').mpr he', hnormal.positive, fun V _ row => hnormal.truth V row⟩

/-- The negation of a comparison of a column with a literal. -/
def notComparison (op : Operator) (l : Literal) : ConditionExpression :=
  .negationOp (.comparisonOp op (.base (.field ⟨"a", none⟩)) (.base (.literal l)))

theorem remove_negation_less :
    ∃ e', remove_negation ⟨some (notComparison .less (.integer 5)), []⟩ = some ⟨some e', []⟩ ∧
      ¬e'.HasNegation ∧ ∀ (V : Type) [LinearOrder V] (row : Assignment V),
        row.truth e' = row.truth (notComparison .less (.integer 5)) :=
  (remove_negation_iff (notComparison .less (.integer 5))
    ⟨by decide, by decide, ⟨_, rfl⟩, ⟨_, rfl⟩⟩).mpr fun _ => by decide

theorem remove_negation_like :
    (notComparison .like (.string "x")).IsCondition ∧
      remove_negation ⟨some (notComparison .like (.string "x")), []⟩ = none :=
  ⟨⟨by decide, by decide, ⟨_, rfl⟩, ⟨_, rfl⟩⟩, rfl⟩

end Noria.Server.Sql

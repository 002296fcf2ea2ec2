import Noria.Sqlite.Columns
import Noria.Sqlite.Delta
import Noria.Sqlite.Reals

/-! # WHERE and SQL's three truth values

  In SQL a comparison with NULL is neither true nor false, and a row passes a WHERE clause only if
  the clause is true. The converter turns a clause into conditions that are true or false, and
  compares data with `==` and `cmp`: NULL equals NULL, and data of different kinds are unequal and
  in either direction `Greater`, also integers and reals.

  `Fits` says when a single comparison comes out right all the same. A clause comes out right on a
  row of integers and NULLs exactly if SQL's answer stays the same when the answers to the
  comparisons that do not fit are reversed (`where_right_iff`): they may stand where AND and OR do
  not look at them.
-/

namespace Noria.Sqlite

open List Option

variable {v lit : Value} {left : Expr} {op : Operator} {right : Expr}

/-! ## Truth values -/

inductive Truth where
  | yes
  | no
  | unknown
  deriving DecidableEq, Repr

namespace Truth

def ofBool (b : Bool) : Truth := if b then .yes else .no

def and : Truth → Truth → Truth
  | .no, _ => .no
  | _, .no => .no
  | .yes, .yes => .yes
  | _, _ => .unknown

def or : Truth → Truth → Truth
  | .yes, _ => .yes
  | _, .yes => .yes
  | .no, .no => .no
  | _, _ => .unknown

@[simp] theorem ofBool_eq_yes (b : Bool) : ofBool b = .yes ↔ b = true := by
  cases b <;> decide

@[simp] theorem and_eq_yes (a b : Truth) : a.and b = .yes ↔ a = .yes ∧ b = .yes := by
  cases a <;> cases b <;> decide

@[simp] theorem or_eq_yes (a b : Truth) : a.or b = .yes ↔ a = .yes ∨ b = .yes := by
  cases a <;> cases b <;> decide

end Truth

/-! ## What SQL says -/

def numberOf (text : String) : Option ℚ :=
  match parse_i64 text with
  | some i => some i.toInt
  | none => (parse_f64 text).map Decimal.value

/-- The number or the NULL that an operand denotes, if it is an integer, a
    real or a NULL literal. -/
def Expr.operand : Expr → Option (Option ℚ)
  | .literal .null => some none
  | .literal (.numeric text) => (numberOf text).map some
  | .unary .negative (.literal (.numeric text)) => (numberOf text).map fun q => some (-q)
  | _ => none

/-- Compare two numbers. -/
def Operator.compares (op : Operator) (x y : ℚ) : Bool :=
  match op with
  | .equals => x = y
  | .notEquals => x ≠ y
  | .greater => y < x
  | .greaterEquals => y ≤ x
  | .less => x < y
  | .lessEquals => x ≤ y
  | _ => false

/-- A comparison in SQL: with NULL it is unknown. -/
def sqlCompare (op : Operator) (v : Value) (operand : Option ℚ) : Truth :=
  match v, operand with
  | .int n, some q => .ofBool (op.compares n q)
  | _, _ => .unknown

/-- The truth value of a clause on a row. -/
def Expr.truth (columns : List String) (v : VRow) : Expr → Truth
  | .binary left .and right => (truth columns v left).and (truth columns v right)
  | .binary left .or right => (truth columns v left).or (truth columns v right)
  | .binary left op right =>
    match get_column_index_from_expr left columns, right.operand with
    | some col, some operand => sqlCompare op (v.getD col .null) operand
    | _, _ => .unknown
  | .parenthesized [inner] => truth columns v inner
  | _ => .unknown

/-! ## The comparisons of a clause -/

/-- The comparisons of a clause: left side, operator, right side. -/
def Expr.comparisons : Expr → List (Expr × Operator × Expr)
  | .binary left .and right => left.comparisons ++ right.comparisons
  | .binary left .or right => left.comparisons ++ right.comparisons
  | .binary left op right => [(left, op, right)]
  | .parenthesized [inner] => inner.comparisons
  | _ => []

/-- AND and OR over answers to the comparisons. -/
def Expr.Holds (answer : Expr × Operator × Expr → Prop) : Expr → Prop
  | .binary left .and right => left.Holds answer ∧ right.Holds answer
  | .binary left .or right => left.Holds answer ∨ right.Holds answer
  | .binary left op right => answer (left, op, right)
  | .parenthesized [inner] => inner.Holds answer
  | _ => False

theorem Expr.holds_congr {P Q : Expr × Operator × Expr → Prop} {e : Expr}
    (h : ∀ cmp ∈ e.comparisons, P cmp ↔ Q cmp) : e.Holds P ↔ e.Holds Q := by
  induction e using Expr.Holds.induct with
  | case1 left right ihl ihr =>
    rw [Expr.comparisons, forall_mem_append] at h
    simp only [Expr.Holds, ihl h.1, ihr h.2]
  | case2 left right ihl ihr =>
    rw [Expr.comparisons, forall_mem_append] at h
    simp only [Expr.Holds, ihl h.1, ihr h.2]
  | case3 left op right hand hor =>
    rw [Expr.Holds, Expr.Holds]
    · rw [Expr.comparisons] at h
      · exact h _ mem_cons_self
      · exact hand
      · exact hor
    all_goals assumption
  | case4 inner ih =>
    rw [Expr.Holds, Expr.Holds]
    exact ih h
  | case5 e h₁ h₂ h₃ h₄ =>
    rw [Expr.Holds, Expr.Holds]
    all_goals assumption

/-- SQL says yes to a comparison. -/
def SqlYes (columns : List String) (v : VRow) (cmp : Expr × Operator × Expr) : Prop :=
  ∃ col operand, get_column_index_from_expr cmp.1 columns = some col ∧
    cmp.2.2.operand = some operand ∧ sqlCompare cmp.2.1 (v.getD col .null) operand = .yes

/-- SQL says yes to a clause if AND and OR over the comparisons do. -/
theorem Expr.truth_yes_iff (columns : List String) (v : VRow) (e : Expr) :
    e.truth columns v = .yes ↔ e.Holds (SqlYes columns v) := by
  induction e using Expr.Holds.induct with
  | case1 left right ihl ihr => simp only [Expr.truth, Expr.Holds, Truth.and_eq_yes, ihl, ihr]
  | case2 left right ihl ihr => simp only [Expr.truth, Expr.Holds, Truth.or_eq_yes, ihl, ihr]
  | case3 left op right hand hor =>
    rw [Expr.truth, Expr.Holds]
    · split
      · next col operand hcol ho =>
        simp only [SqlYes, hcol, ho, some.injEq, exists_and_left, exists_eq_left']
      · next hnone =>
        refine iff_of_false (by simp) ?_
        rintro ⟨col, operand, hcol, ho, -⟩
        exact hnone col operand hcol ho
    all_goals assumption
  | case4 inner ih =>
    rw [Expr.truth, Expr.Holds]
    exact ih
  | case5 e h₁ h₂ h₃ h₄ =>
    rw [Expr.truth, Expr.Holds]
    · simp
    all_goals assumption

/-! ## When a comparison comes out right -/

/-- The operators of comparisons. -/
def Operator.comparisons : List Operator :=
  [.equals, .notEquals, .greater, .less, .greaterEquals, .lessEquals]

/-- The operators that hold of data of different kinds. -/
def Operator.holdsOfDifferent : Operator → Bool
  | .notEquals => true
  | .greater => true
  | .greaterEquals => true
  | _ => false

/-- When a comparison comes out right: of the value of the column, the
    converted operand and the number that the operand denotes in SQL. -/
def Fits (op : Operator) (v lit : Value) (operand : Option ℚ) : Prop :=
  match v, lit with
  | .null, .null => op = .notEquals ∨ op = .greater ∨ op = .less
  | .int n, .int m => op.compares n (operand.getD 0) = op.compares n m
  | .int n, .real _ _ => op.compares n (operand.getD 0) = op.holdsOfDifferent
  | _, _ => op.holdsOfDifferent = false

/-- What the condition for a comparison computes. -/
def Operator.passes (op : Operator) (v lit : Value) : Bool :=
  match op with
  | .equals => v = lit
  | .notEquals => v ≠ lit
  | .greater => v.cmp lit == .gt
  | .less => v.cmp lit == .lt
  | .greaterEquals => v.cmp lit == .gt || v = lit
  | .lessEquals => v.cmp lit == .lt || v = lit
  | _ => false

/-- A value of the rows that are considered. -/
def IntOrNull (v : Value) : Prop := v = .null ∨ ∃ n, v = .int n

theorem compare_eq_gt_iff (n m : Int) : (compare n m == .gt) = decide (m < n) := by
  rw [Bool.eq_iff_iff, beq_iff_eq, compare_gt_iff_gt, decide_eq_true_iff]

theorem compare_eq_lt_iff (n m : Int) : (compare n m == .lt) = decide (n < m) := by
  rw [Bool.eq_iff_iff, beq_iff_eq, compare_lt_iff_lt, decide_eq_true_iff]

theorem passes_int (op : Operator) (n m : Int) : op.passes (.int n) (.int m) = op.compares n m := by
  cases op with
  | equals => simp [Operator.passes, Operator.compares]
  | notEquals => simp [Operator.passes, Operator.compares]
  | greater => simp [Operator.passes, Operator.compares, Value.cmp, compare_eq_gt_iff]
  | less => simp [Operator.passes, Operator.compares, Value.cmp, compare_eq_lt_iff]
  | greaterEquals =>
    rw [Bool.eq_iff_iff]
    simp [Operator.passes, Operator.compares, Value.cmp, compare_eq_gt_iff]
    omega
  | lessEquals =>
    rw [Bool.eq_iff_iff]
    simp [Operator.passes, Operator.compares, Value.cmp, compare_eq_lt_iff]
    omega
  | and => rfl
  | or => rfl
  | other tag => rfl

theorem passes_different (op : Operator) (hcmp : v.cmp lit = .gt) (hne : v ≠ lit) :
    op.passes v lit = op.holdsOfDifferent := by
  cases op <;> simp [Operator.passes, Operator.holdsOfDifferent, hcmp, hne]

/-- **A single comparison** comes out right exactly if it fits. -/
theorem passes_right_iff (hop : op ∈ Operator.comparisons) {operand : Option ℚ}
    (hv : IntOrNull v) (hlit : operand = none ∧ lit = .null ∨ operand ≠ none ∧
      ((∃ m, lit = .int m) ∨ ∃ i f, lit = .real i f)) :
    op.passes v lit = decide (sqlCompare op v operand = .yes) ↔ Fits op v lit operand := by
  rcases hlit with ⟨rfl, rfl⟩ | ⟨hsome, hlit⟩
  · -- the operand is NULL: SQL never says yes
    rcases hv with rfl | ⟨n, rfl⟩
    · simp only [Operator.comparisons, mem_cons, not_mem_nil, or_false] at hop
      rcases hop with rfl | rfl | rfl | rfl | rfl | rfl <;>
        simp [Operator.passes, sqlCompare, Fits, Value.cmp]
    · rw [passes_different op rfl (by simp)]
      simp [sqlCompare, Fits]
  · obtain ⟨q, rfl⟩ := ne_none_iff_exists'.mp hsome
    rcases hv with rfl | ⟨n, rfl⟩
    · -- the value is NULL
      rcases hlit with ⟨m, rfl⟩ | ⟨i, f, rfl⟩
      · rw [passes_different op rfl (by simp)]
        simp [sqlCompare, Fits]
      · rw [passes_different op rfl (by simp)]
        simp [sqlCompare, Fits]
    · have hsql : decide (sqlCompare op (.int n) (some q) = .yes) = op.compares n q := by
        simp [sqlCompare]
      rw [hsql]
      rcases hlit with ⟨m, rfl⟩ | ⟨i, f, rfl⟩
      · rw [passes_int]
        exact eq_comm
      · rw [passes_different op rfl (by simp)]
        exact eq_comm

/-! ## The conversion -/

section Convert

variable {env : SqlEnv} {columns : List String}

theorem convert_operand {d : DataType} {operand : Option ℚ}
    (hd : convert_expr_to_datatype env right = .ok d) (ho : right.operand = some operand) :
    operand = none ∧ d.val = .null ∨ operand ≠ none ∧
      ((∃ m, d.val = .int m) ∨ ∃ i f, d.val = .real i f) := by
  unfold Expr.operand at ho
  split at ho
  · cases ho
    cases hd
    exact .inl ⟨rfl, rfl⟩
  · next text =>
    obtain ⟨q, -, rfl⟩ := map_eq_some_iff.mp ho
    refine .inr ⟨some_ne_none q, ?_⟩
    simp only [convert_expr_to_datatype, convert_literal] at hd
    split at hd
    · next i hi =>
      cases hd
      exact .inl ⟨i.toInt, rfl⟩
    · split at hd
      · next f hf =>
        cases hd
        refine .inr ?_
        unfold Decimal.toReal
        split
        · exact ⟨_, _, rfl⟩
        · exact ⟨_, _, rfl⟩
      · cases hd
  · next text =>
    obtain ⟨q, -, rfl⟩ := map_eq_some_iff.mp ho
    cases hd
    exact .inr ⟨some_ne_none _, .inl ⟨_, rfl⟩⟩
  · cases ho

/-- What `==` and `cmp` say to a comparison. A placeholder lets every row through. -/
def PassesOn (env : SqlEnv) (columns : List String) (v : VRow) (cmp : Expr × Operator × Expr) :
    Prop :=
  (∃ name, cmp.2.2 = .variable name) ∨
    ∃ col d, get_column_index_from_expr cmp.1 columns = some col ∧
      convert_expr_to_datatype env cmp.2.2 = .ok d ∧
      cmp.2.1.passes (v.getD col .null) d.val = true

theorem convert_comparison_holds {c : FilterCondition}
    (h : convert_comparison env left op right columns = .ok c) (v : VRow) :
    c.holds v = true ↔ PassesOn env columns v (left, op, right) := by
  unfold convert_comparison at h
  cases hcol : get_column_index_from_expr left columns with
  | none =>
    rw [hcol] at h
    cases h
  | some col =>
    rw [hcol] at h
    simp only at h
    split at h
    · next name =>
      cases h
      exact iff_of_true rfl (.inl ⟨name, rfl⟩)
    · next hvar =>
      obtain ⟨d, hd, hc⟩ := Outcome.bind_ok_iff.mp h
      have hholds : c.holds v = op.passes (v.getD col .null) d.val := by
        cases op <;> cases hc <;>
          simp [FilterCondition.holds, FilterCondition.holdsAny, Operator.passes]
      rw [hholds]
      refine ⟨fun hpass => .inr ⟨col, d, hcol, hd, hpass⟩, ?_⟩
      rintro (⟨name, rfl⟩ | ⟨col', d', hcol', hd', hpass⟩)
      · exact absurd rfl (hvar name)
      · cases hcol.symm.trans hcol'
        cases hd.symm.trans hd'
        exact hpass

/-- **The translation of a clause** is AND and OR over what `==` and `cmp` say. -/
theorem convert_expr_to_filter_holds {e : Expr} {c : FilterCondition}
    (h : convert_expr_to_filter env columns e = .ok c) (v : VRow) :
    c.holds v = true ↔ e.Holds (PassesOn env columns v) := by
  induction e using convert_expr_to_filter.induct generalizing c with
  | case1 left right ihl ihr =>
    rw [convert_expr_to_filter] at h
    obtain ⟨cl, hl, h⟩ := Outcome.bind_ok_iff.mp h
    obtain ⟨cr, hr, h⟩ := Outcome.bind_ok_iff.mp h
    cases h
    simp [FilterCondition.holds, FilterCondition.holdsAll, Expr.Holds, ihl hl, ihr hr]
  | case2 left right ihl ihr =>
    rw [convert_expr_to_filter] at h
    obtain ⟨cl, hl, h⟩ := Outcome.bind_ok_iff.mp h
    obtain ⟨cr, hr, h⟩ := Outcome.bind_ok_iff.mp h
    cases h
    simp [FilterCondition.holds, FilterCondition.holdsAny, Expr.Holds, ihl hl, ihr hr]
  | case3 left tag right =>
    rw [convert_expr_to_filter] at h
    cases h
  | case4 left op right hand hor hother =>
    rw [convert_expr_to_filter] at h
    · rw [Expr.Holds]
      · exact convert_comparison_holds h v
      · exact hand
      · exact hor
    all_goals assumption
  | case5 inner ih =>
    rw [convert_expr_to_filter] at h
    rw [Expr.Holds]
    exact ih h
  | case6 inner hne =>
    rw [convert_expr_to_filter] at h
    · cases h
    · exact hne
  | case7 e h₁ h₂ h₃ h₄ h₅ h₆ =>
    rw [convert_expr_to_filter] at h
    · cases h
    all_goals assumption

/-- Every comparison of an accepted clause is accepted. -/
theorem comparison_accepted {e : Expr} {c : FilterCondition}
    (h : convert_expr_to_filter env columns e = .ok c) {cmp : Expr × Operator × Expr}
    (hcmp : cmp ∈ e.comparisons) :
    cmp.2.1 ∈ Operator.comparisons ∧
      ∃ c', convert_comparison env cmp.1 cmp.2.1 cmp.2.2 columns = .ok c' := by
  induction e using convert_expr_to_filter.induct generalizing c with
  | case1 left right ihl ihr | case2 left right ihl ihr =>
    rw [convert_expr_to_filter] at h
    obtain ⟨cl, hl, h⟩ := Outcome.bind_ok_iff.mp h
    obtain ⟨cr, hr, h⟩ := Outcome.bind_ok_iff.mp h
    rw [Expr.comparisons, mem_append] at hcmp
    exact hcmp.elim (ihl hl) (ihr hr)
  | case3 left tag right =>
    rw [convert_expr_to_filter] at h
    cases h
  | case4 left op right hand hor hother =>
    rw [convert_expr_to_filter] at h
    · rw [Expr.comparisons, mem_singleton] at hcmp
      · subst hcmp
        refine ⟨?_, c, h⟩
        cases op with
        | and => exact absurd rfl hand
        | or => exact absurd rfl hor
        | other tag => exact absurd rfl (hother tag)
        | _ => simp [Operator.comparisons]
      · exact hand
      · exact hor
    all_goals assumption
  | case5 inner ih =>
    rw [convert_expr_to_filter] at h
    exact ih h hcmp
  | case6 inner hne =>
    rw [convert_expr_to_filter] at h
    · cases h
    · exact hne
  | case7 e h₁ h₂ h₃ h₄ h₅ h₆ =>
    rw [convert_expr_to_filter] at h
    · cases h
    all_goals assumption

/-! ## When a clause comes out right -/

/-- The operands are integer, real and NULL literals; in particular there is no placeholder. -/
def Expr.LiteralOperands (e : Expr) : Prop :=
  ∀ cmp ∈ e.comparisons, cmp.2.2.operand.isSome = true

/-- A comparison of a clause fits on a row. -/
def FitsOn (env : SqlEnv) (columns : List String) (v : VRow) (cmp : Expr × Operator × Expr) :
    Prop :=
  ∀ col d, get_column_index_from_expr cmp.1 columns = some col →
    convert_expr_to_datatype env cmp.2.2 = .ok d →
    Fits cmp.2.1 (v.getD col .null) d.val (cmp.2.2.operand.getD none)

theorem eq_true_iff_agrees (b : Bool) (P : Prop) [Decidable P] :
    b = true ↔ (P ↔ b = decide P) := by
  by_cases hP : P <;> cases b <;> simp [hP]

/-- Of a comparison that does not fit, `==` and `cmp` say the opposite of what SQL says. -/
theorem passesOn_iff {c : FilterCondition} {row : Row}
    (hc : convert_comparison env left op right columns = .ok c) (hop : op ∈ Operator.comparisons)
    (ho : right.operand.isSome = true) (hlen : columns.length ≤ row.length)
    (hrow : ∀ d ∈ row, IntOrNull d.val) :
    PassesOn env columns (Row.val row) (left, op, right) ↔
      (SqlYes columns (Row.val row) (left, op, right) ↔
        FitsOn env columns (Row.val row) (left, op, right)) := by
  obtain ⟨operand, ho⟩ := isSome_iff_exists.mp ho
  have hvar : ∀ name, right ≠ .variable name := by
    rintro name rfl
    cases ho
  -- the column and the converted operand are there, since the comparison is accepted
  obtain ⟨col, d, hcol, hd⟩ : ∃ col d, get_column_index_from_expr left columns = some col ∧
      convert_expr_to_datatype env right = .ok d := by
    unfold convert_comparison at hc
    split at hc
    · cases hc
    · next col hcol =>
      split at hc
      · exact absurd rfl (hvar _)
      · obtain ⟨d, hd, -⟩ := Outcome.bind_ok_iff.mp hc
        exact ⟨col, d, hcol, hd⟩
  obtain ⟨x, hx, hval⟩ := Row.getElem?_val row (Nat.lt_of_lt_of_le (get_column_index_lt hcol) hlen)
  have hv : IntOrNull ((Row.val row).getD col .null) := hval ▸ hrow x (mem_of_getElem? hx)
  have hpass : PassesOn env columns (Row.val row) (left, op, right) ↔
      op.passes ((Row.val row).getD col .null) d.val = true := by
    simp only [PassesOn, hvar, exists_false, false_or, hcol, hd, some.injEq, Outcome.ok.injEq,
      exists_and_left, exists_eq_left']
  have hyes : SqlYes columns (Row.val row) (left, op, right) ↔
      sqlCompare op ((Row.val row).getD col .null) operand = .yes := by
    simp only [SqlYes, hcol, ho, some.injEq, exists_and_left, exists_eq_left']
  have hfits : FitsOn env columns (Row.val row) (left, op, right) ↔
      Fits op ((Row.val row).getD col .null) d.val operand := by
    simp only [FitsOn, hcol, hd, ho, some.injEq, Outcome.ok.injEq, Option.getD_some]
    exact ⟨fun h => h col d rfl rfl, fun h col' d' hcol' hd' => hcol' ▸ hd' ▸ h⟩
  rw [hpass, hyes, hfits, ← passes_right_iff hop hv (convert_operand hd ho)]
  exact eq_true_iff_agrees _ _

end Convert

/-- **WHERE clauses.** Let a clause over integer, real and NULL literals, without placeholders, be
    accepted. On a row of integers and NULLs its condition is true exactly where SQL says so if and
    only if SQL's answer to the clause stays the same when its answers to the comparisons that do
    not fit are reversed; so always if all of them fit. -/
theorem where_right_iff (env : SqlEnv) {columns : List String} {e : Expr} {c : FilterCondition}
    (hconv : convert_expr_to_filter env columns e = .ok c) (hlits : e.LiteralOperands) {row : Row}
    (hlen : columns.length ≤ row.length) (hrow : ∀ d ∈ row, IntOrNull d.val) :
    c.evaluate row = some (decide (e.truth columns (Row.val row) = .yes)) ↔
      (e.Holds (fun cmp =>
          SqlYes columns (Row.val row) cmp ↔ FitsOn env columns (Row.val row) cmp) ↔
        e.Holds (SqlYes columns (Row.val row))) := by
  have heval := FilterCondition.evaluate_eq c row fun i hi =>
    Nat.lt_of_lt_of_le (convert_expr_to_filter_columns hconv i hi) hlen
  have hcmp : e.Holds (PassesOn env columns (Row.val row)) ↔
      e.Holds fun cmp =>
        SqlYes columns (Row.val row) cmp ↔ FitsOn env columns (Row.val row) cmp := by
    refine Expr.holds_congr fun cmp hmem => ?_
    obtain ⟨hop, c', hc'⟩ := comparison_accepted hconv hmem
    exact passesOn_iff hc' hop (hlits cmp hmem) hlen hrow
  rw [heval, some.injEq, Bool.eq_iff_iff, decide_eq_true_iff, convert_expr_to_filter_holds hconv,
    Expr.truth_yes_iff, hcmp]

def overFive (column : String) : Expr := .binary (.id column) .greater (.literal (.numeric "5"))

/-- On the row (2, NULL) the clause `a = 1 AND b > 5` comes out right, although `b > 5` does not. -/
theorem undecided_side_is_harmless :
    (FilterCondition.and [.eq 0 (.bigInt 1), .gt 1 (.bigInt 5)]).evaluate [.int 2, .none] =
      some false := by
  have hconv : convert_expr_to_filter plainEnv ["a", "b"]
      (.binary (.binary (.id "a") .equals (.literal (.numeric "1"))) .and (overFive "b")) =
      .ok (.and [.eq 0 (.bigInt 1), .gt 1 (.bigInt 5)]) := rfl
  have hone : ¬ SqlYes ["a", "b"] (Row.val [.int 2, .none])
      (.id "a", .equals, .literal (.numeric "1")) := by
    rintro ⟨col, operand, hcol, hoperand, hyes⟩
    cases hcol
    cases hoperand
    exact absurd hyes (by decide)
  have hfits : FitsOn plainEnv ["a", "b"] (Row.val [.int 2, .none])
      (.id "a", .equals, .literal (.numeric "1")) := by
    intro col d hcol hd
    cases hcol
    cases hd
    rfl
  have hlits : Expr.LiteralOperands
      (.binary (.binary (.id "a") .equals (.literal (.numeric "1"))) .and (overFive "b")) := by
    simp only [Expr.LiteralOperands, Expr.comparisons, overFive, cons_append, nil_append]
    exact forall_mem_cons.mpr ⟨rfl, forall_mem_singleton.mpr rfl⟩
  have hrow : ∀ d ∈ ([.int 2, .none] : Row), IntOrNull d.val :=
    forall_mem_cons.mpr ⟨.inr ⟨2, rfl⟩, forall_mem_singleton.mpr (.inl rfl)⟩
  rw [(where_right_iff plainEnv hconv hlits (by decide) hrow).mpr]
  · rfl
  · exact iff_of_false (fun h => hone (h.1.mpr hfits)) fun h => hone h.1

/-- **NULL passes.** The condition for `a > 5` is true on a NULL, where SQL does not know. -/
theorem null_passes :
    convert_expr_to_filter plainEnv ["a"] (overFive "a") = .ok (.gt 0 (.bigInt 5)) ∧
      (FilterCondition.gt 0 (.bigInt 5)).evaluate [.none] = some true ∧
      (overFive "a").truth ["a"] (Row.val [.none]) = .unknown := ⟨rfl, rfl, rfl⟩

end Noria.Sqlite

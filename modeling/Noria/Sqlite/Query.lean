import Noria.Sqlite.Keyed
import Noria.Sqlite.Where

/-! # What a SELECT over one table returns

  The clauses of a statement that `build_select` drops while it takes the parsed statement apart,
  and the rows that SQL returns for the whole statement. How single expressions are evaluated is
  left to `SqlMeaning`, which fixes them for columns, COUNT and SUM.
-/

namespace Noria.Sqlite

open Multiset List

variable {rows : Multiset VRow}

/-! ## Statements -/

inductive CompoundOperator where
  | union
  | unionAll
  | except
  | intersect
  deriving DecidableEq, Repr

/-- One SELECT of a statement. -/
structure SelectCore where
  body : SelectBody
  distinct : Bool
  having : Option Expr
  /-- A call in the select list is DISTINCT, or has a FILTER or an OVER clause. -/
  modified_calls : Bool

structure Limit where
  expr : Expr
  offset : Option Expr

/-- A SELECT statement; the compound parts read the same table. -/
structure SelectStatement where
  core : SelectCore
  compounds : List (CompoundOperator × SelectCore)
  limit : Option Limit

/-- The part of a parsed statement that the conversion looks at. -/
def SelectStatement.cmd (stmt : SelectStatement) : Cmd := .select (.select stmt.core.body)

/-- How many columns of the result a select list item stands for. -/
def ResultColumn.width (names : List String) : ResultColumn → Nat
  | .expr _ _ => 1
  | .star => names.length
  | .tableStar _ => names.length

/-- The number of result columns. -/
def SelectBody.width (names : List String) (body : SelectBody) : Nat :=
  (body.columns.map (ResultColumn.width names)).sum

/-! ## Expressions -/

/-- How SQL evaluates expressions over a table with the given columns. -/
structure SqlMeaning (env : SqlEnv) (names : List String) where
  /-- A WHERE clause is true on a row. -/
  is_true : Expr → VRow → Bool
  value : Expr → VRow → Value
  /-- The value over the rows of a group; calls are modified or plain. -/
  summary : Bool → Expr → Multiset VRow → Value
  /-- The row that `*` shows of a group. -/
  any_row : Multiset VRow → VRow
  /-- The expression has an aggregate in it. -/
  summarizes : Expr → Bool
  /-- A HAVING clause is true on a group. -/
  having_true : Expr → Multiset VRow → Bool
  /-- The number of rows that a LIMIT allows; `none` for a negative one. -/
  limit_of : Expr → Option Nat
  offset_of : Expr → Nat
  /-- The rows that LIMIT and OFFSET leave. -/
  cut : Option Nat → Nat → Multiset VRow → Multiset VRow
  value_column : ∀ e i v, get_column_index_from_expr e names = some i → value e v = v.getD i .null
  summarizes_column : ∀ e i, get_column_index_from_expr e names = some i → summarizes e = false
  summary_column : ∀ m e i rows x, get_column_index_from_expr e names = some i → rows ≠ 0 →
    (∀ v ∈ rows, v.getD i .null = x) → summary m e rows = x
  summary_count_star : ∀ name rows, env.to_uppercase name = "COUNT" →
    summary false (.functionCallStar name) rows = .int rows.card
  summary_count : ∀ name e rows, env.to_uppercase name = "COUNT" →
    (∀ v ∈ rows, value e v ≠ .null) →
    summary false (.functionCall name (some [e])) rows = .int rows.card
  summary_sum : ∀ name e rows, env.to_uppercase name = "SUM" → rows ≠ 0 →
    (∀ v ∈ rows, ∃ n, value e v = .int n) →
    summary false (.functionCall name (some [e])) rows =
      .int (rows.map fun v => (value e v).intOf).sum
  cut_le : ∀ limit offset rows, cut limit offset rows ≤ rows
  card_cut : ∀ limit offset rows, (cut limit offset rows).card =
    min (limit.getD rows.card) (rows.card - offset)

namespace SqlMeaning

variable {env : SqlEnv} {names : List String} (E : SqlMeaning env names)

/-! ## Results -/

/-- What a select list item shows of a row. -/
def row_column (v : VRow) : ResultColumn → VRow
  | .expr e _ => [E.value e v]
  | .star => v
  | .tableStar _ => v

/-- What it shows of a group. -/
def group_column (modified : Bool) (group : Multiset VRow) : ResultColumn → VRow
  | .expr e _ => [E.summary modified e group]
  | .star => E.any_row group
  | .tableStar _ => E.any_row group

/-- A select list item with an aggregate in it. -/
def column_summarizes : ResultColumn → Bool
  | .expr e _ => E.summarizes e
  | .star => false
  | .tableStar _ => false

/-- The result has a row for each group, and not for each row. -/
def grouped (core : SelectCore) : Bool :=
  core.body.group_by.isSome || core.having.isSome || core.body.columns.any E.column_summarizes

/-- The rows that pass the WHERE clause. -/
def selected (body : SelectBody) (table : Multiset VRow) : Multiset VRow :=
  match body.where_clause with
  | none => table
  | some e => table.filter fun v => E.is_true e v = true

/-- The values of the GROUP BY expressions. -/
def group_key (exprs : List Expr) (v : VRow) : VRow := exprs.map fun e => E.value e v

/-- The groups of the selected rows. Without GROUP BY all rows are one group,
    also if there are none. -/
def groups (body : SelectBody) (table : Multiset VRow) : Multiset (Multiset VRow) :=
  match body.group_by with
  | none => {E.selected body table}
  | some exprs =>
    ((E.selected body table).map (E.group_key exprs)).dedup.map fun k =>
      (E.selected body table).filter fun v => E.group_key exprs v = k

/-- The groups that pass the HAVING clause. -/
def kept_groups (core : SelectCore) (table : Multiset VRow) : Multiset (Multiset VRow) :=
  match core.having with
  | none => E.groups core.body table
  | some e => (E.groups core.body table).filter fun group => E.having_true e group = true

/-- The rows of one SELECT, before DISTINCT. -/
def all_rows (core : SelectCore) (table : Multiset VRow) : Multiset VRow :=
  if E.grouped core then
    (E.kept_groups core table).map fun group =>
      core.body.columns.flatMap (E.group_column core.modified_calls group)
  else (E.selected core.body table).map fun v => core.body.columns.flatMap (E.row_column v)

/-- The rows of one SELECT. -/
def core_rows (core : SelectCore) (table : Multiset VRow) : Multiset VRow :=
  if core.distinct then (E.all_rows core table).dedup else E.all_rows core table

end SqlMeaning

/-- Combine the rows of two parts of a compound. -/
def CompoundOperator.combine (op : CompoundOperator) (left right : Multiset VRow) :
    Multiset VRow :=
  match op with
  | .union => (left + right).dedup
  | .unionAll => left + right
  | .except => left.dedup.filter (· ∉ right)
  | .intersect => left.dedup.filter (· ∈ right)

namespace SqlMeaning

variable {env : SqlEnv} {names : List String} (E : SqlMeaning env names)

/-- The rows of a statement before LIMIT. -/
def compound_rows (stmt : SelectStatement) (table : Multiset VRow) : Multiset VRow :=
  stmt.compounds.foldl (fun rows part => part.1.combine rows (E.core_rows part.2 table))
    (E.core_rows stmt.core table)

/-- **The rows that a statement returns** on a table. -/
def result (stmt : SelectStatement) (table : Multiset VRow) : Multiset VRow :=
  match stmt.limit with
  | none => E.compound_rows stmt table
  | some limit =>
    E.cut (E.limit_of limit.expr) ((limit.offset.map E.offset_of).getD 0)
      (E.compound_rows stmt table)

theorem cut_eq_self {limit : Option Nat} (h : ∀ n, limit = some n → rows.card ≤ n) :
    E.cut limit 0 rows = rows := by
  refine eq_of_le_of_card_le (E.cut_le limit 0 rows) ?_
  rw [E.card_cut, Nat.sub_zero]
  refine Nat.le_min.mpr ⟨?_, Nat.le_refl _⟩
  cases limit with
  | none => exact Nat.le_refl _
  | some n => exact h n rfl

end SqlMeaning

/-! ## SQL over integers -/

/-- The value of a column, and NULL for other expressions. -/
def columnValue (names : List String) (e : Expr) (v : VRow) : Value :=
  ((get_column_index_from_expr e names).map (v.getD · .null)).getD .null

/-- COUNT and SUM skip NULLs, and the sum of no number is NULL. -/
def columnSummary (env : SqlEnv) (names : List String) (name : String) (e : Expr)
    (rows : Multiset VRow) : Value :=
  let present := rows.filter fun v => columnValue names e v ≠ .null
  if env.to_uppercase name = "COUNT" then .int present.card
  else if present = 0 then .null
  else .int (present.map fun v => (columnValue names e v).intOf).sum

/-- Some row of a group, if there is one. -/
noncomputable def anyRow (rows : Multiset VRow) : VRow := rows.toList.headD []

theorem anyRow_mem (h : rows ≠ 0) : anyRow rows ∈ rows := by
  unfold anyRow
  cases hl : rows.toList with
  | nil => exact absurd (toList_eq_nil.mp hl) h
  | cons v l =>
    refine mem_toList.mp ?_
    rw [hl]
    exact mem_cons_self

/-- The value of a select list item over a group. -/
noncomputable def plainSummary (env : SqlEnv) (names : List String) (e : Expr)
    (rows : Multiset VRow) : Value :=
  match e with
  | .functionCallStar _ => .int rows.card
  | .functionCall name (some [e]) => columnSummary env names name e rows
  | e => columnValue names e (anyRow rows)

/-- The calls. -/
def Expr.isCall : Expr → Bool
  | .functionCallStar _ => true
  | .functionCall _ _ => true
  | _ => false

/-- A plain reading of SQL, with WHERE clauses over integers. HAVING is
    true and LIMIT allows all rows. -/
noncomputable def plainSql (env : SqlEnv) (names : List String) : SqlMeaning env names where
  is_true := fun e v => e.truth names v = .yes
  value := columnValue names
  summary := fun _ => plainSummary env names
  any_row := anyRow
  summarizes := Expr.isCall
  having_true := fun _ _ => true
  limit_of := fun _ => none
  offset_of := fun _ => 0
  cut := fun limit offset rows => ↑((rows.toList.drop offset).take (limit.getD rows.card))
  value_column := by
    intro e i v h
    rw [columnValue, h]
    rfl
  summarizes_column := by
    intro e i h
    rcases column_cases h with ⟨name, rfl⟩ | ⟨table, col, rfl⟩ <;> rfl
  summary_column := by
    intro _ e i rows x h hne hall
    have hvalue : columnValue names e (anyRow rows) = x := by
      rw [columnValue, h]
      exact hall _ (anyRow_mem hne)
    rcases column_cases h with ⟨name, rfl⟩ | ⟨table, col, rfl⟩ <;> exact hvalue
  summary_count_star := fun _ _ _ => rfl
  summary_count := by
    intro name e rows h hall
    show columnSummary env names name e rows = _
    unfold columnSummary
    rw [if_pos h, filter_eq_self.mpr hall]
  summary_sum := by
    intro name e rows h hne hall
    have hcount : ¬env.to_uppercase name = "COUNT" := by
      rw [h]
      decide
    have hpresent : rows.filter (fun v => columnValue names e v ≠ .null) = rows := by
      refine filter_eq_self.mpr fun v hv => ?_
      obtain ⟨n, hn⟩ := hall v hv
      rw [hn]
      exact Value.noConfusion
    show columnSummary env names name e rows = _
    unfold columnSummary
    rw [if_neg hcount, hpresent, if_neg hne]
  cut_le := by
    intro limit offset rows
    have hsub : ((rows.toList.drop offset).take (limit.getD rows.card)).Sublist rows.toList :=
      (take_sublist _ _).trans (drop_sublist _ _)
    calc (↑((rows.toList.drop offset).take (limit.getD rows.card)) : Multiset VRow)
        ≤ ↑rows.toList := coe_le.mpr hsub.subperm
      _ = rows := coe_toList rows
  card_cut := by
    intro limit offset rows
    rw [coe_card, length_take, length_drop, length_toList]

end Noria.Sqlite

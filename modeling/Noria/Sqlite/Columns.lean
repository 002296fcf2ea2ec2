import Noria.Sqlite.Sql

/-! # The columns a query reads exist

  Every column index that the converter finds in an expression is the
  index of a column of the table.
-/

namespace Noria.Sqlite

open List

variable {i : Nat} {env : SqlEnv} {cond : FilterCondition} {expr : Expr}

theorem get_column_index_lt {e : Expr} {columns : List String}
    (h : get_column_index_from_expr e columns = some i) : i < columns.length := by
  have hfind : ∀ {p : String → Bool} {i : Nat}, columns.findIdx? p = some i →
      i < columns.length := by
    intro p i hi
    exact (findIdx?_eq_some_iff_getElem.mp hi).1
  cases e with
  | id name => exact hfind h
  | qualified table col =>
    simp only [get_column_index_from_expr] at h
    split at h
    · rename_i j hj
      cases h
      exact hfind hj
    · exact hfind h
  | _ => cases h

variable {columns : List String}

theorem convert_comparison_columns {left right : Expr} {op : Operator}
    (h : convert_comparison env left op right columns = .ok cond) :
    ∀ c ∈ cond.columns, c < columns.length := by
  unfold convert_comparison at h
  split at h
  · cases h
  · rename_i col hcol
    have hlt := get_column_index_lt hcol
    split at h
    · cases h
      exact fun c hc => absurd hc (by simp [FilterCondition.columns])
    · obtain ⟨value, -, h⟩ := Outcome.bind_ok_iff.mp h
      split at h <;> cases h <;> simp [FilterCondition.columns, FilterCondition.columnsList, hlt]

theorem convert_expr_to_filter_columns (h : convert_expr_to_filter env columns expr = .ok cond) :
    ∀ c ∈ cond.columns, c < columns.length := by
  -- a condition made of two: its columns are theirs
  have hboth : ∀ {e₁ e₂ : Expr} {f : FilterCondition → FilterCondition → FilterCondition}
      {cond : FilterCondition},
      (∀ a b, (f a b).columns = a.columns ++ b.columns) →
      (∀ {cond}, convert_expr_to_filter env columns e₁ = .ok cond →
        ∀ c ∈ cond.columns, c < columns.length) →
      (∀ {cond}, convert_expr_to_filter env columns e₂ = .ok cond →
        ∀ c ∈ cond.columns, c < columns.length) →
      (convert_expr_to_filter env columns e₁ >>= fun a =>
        convert_expr_to_filter env columns e₂ >>= fun b => .ok (f a b)) = .ok cond →
      ∀ c ∈ cond.columns, c < columns.length := by
    intro e₁ e₂ f cond hf h₁ h₂ h c hc
    obtain ⟨a, ha, h⟩ := Outcome.bind_ok_iff.mp h
    obtain ⟨b, hb, h⟩ := Outcome.bind_ok_iff.mp h
    cases h
    rw [hf] at hc
    rcases mem_append.mp hc with hc | hc
    · exact h₁ ha c hc
    · exact h₂ hb c hc
  fun_induction convert_expr_to_filter env columns expr generalizing cond with
  | case1 left right ih₁ ih₂ =>
    exact hboth (fun a b => by simp [FilterCondition.columns, FilterCondition.columnsList])
      ih₁ ih₂ h
  | case2 left right ih₁ ih₂ =>
    exact hboth (fun a b => by simp [FilterCondition.columns, FilterCondition.columnsList])
      ih₁ ih₂ h
  | case3 => cases h
  | case4 => exact convert_comparison_columns h
  | case5 inner ih => exact ih h
  | case6 => cases h
  | case7 => cases h

theorem extract_equality_column_lt (h : extract_equality_column columns expr = some i) :
    i < columns.length := by
  fun_induction extract_equality_column columns expr with
  | case1 => exact get_column_index_lt h
  | case2 left right j hj ih =>
    cases h
    exact ih hj
  | case3 left right hnone ih₁ ih₂ => exact ih₂ h
  | case4 inner ih => exact ih h
  | case5 => cases h

theorem extract_key_columns_lt {where_clause : Option Expr} (hne : columns ≠ []) :
    ∀ c ∈ extract_key_columns where_clause columns, c < columns.length := by
  unfold extract_key_columns
  intro c hc
  split at hc
  · rename_i i hi
    obtain ⟨e, -, he⟩ := Option.bind_eq_some_iff.mp hi
    rw [mem_singleton.mp hc]
    exact extract_equality_column_lt he
  · split at hc
    · cases hc
    · rw [mem_singleton.mp hc]
      exact length_pos_iff.mpr hne

theorem first_arg_column_lt (args : Option (List Expr)) (hne : columns ≠ []) :
    first_arg_column args columns < columns.length := by
  have hpos := length_pos_iff.mpr hne
  unfold first_arg_column
  split
  · rename_i first_arg _
    cases h : get_column_index_from_expr first_arg columns with
    | none => exact hpos
    | some i => exact get_column_index_lt h
  · exact hpos

theorem group_indices_lt (body : SelectBody) (hne : columns ≠ []) :
    ∀ c ∈ SqlConverter.group_indices body columns, c < columns.length := by
  unfold SqlConverter.group_indices
  split
  · intro c hc
    obtain ⟨e, -, he⟩ := mem_filterMap.mp hc
    exact get_column_index_lt he
  · exact extract_key_columns_lt hne

theorem projectionLoop_lt {cols : List ResultColumn} {out : List (Nat × String)}
    (h : projectionLoop cols columns = some out) : ∀ p ∈ out, p.1 < columns.length := by
  fun_induction projectionLoop cols columns generalizing out with
  | case1 =>
    cases h
    exact fun p hp => absurd hp not_mem_nil
  | case2 e as_name rest ih =>
    obtain ⟨idx, hidx, h⟩ := Option.bind_eq_some_iff.mp h
    obtain ⟨rest', hrest, h⟩ := Option.bind_eq_some_iff.mp h
    cases h
    intro p hp
    rcases mem_cons.mp hp with rfl | hp
    · exact get_column_index_lt hidx
    · exact ih hrest p hp
  | case3 => cases h

end Noria.Sqlite

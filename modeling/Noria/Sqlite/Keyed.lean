import Noria.Framework.Fill
import Noria.Sqlite.Columns
import Noria.Sqlite.Delta
import Noria.Sqlite.Line

/-! # Lookups by one column

  The queries `SELECT <columns> FROM t WHERE c = ?`, where further conditions may stand beside the
  comparison, and what their views are made of: the filter tests the further conditions and lets the
  comparison pass (the placeholder is matched at lookup time), the projection keeps the selected
  columns and, when `c` is not one of them, `c` behind them, and the state is indexed by the column
  that holds `c`.

  The second part is about a state that is indexed by one column and
  filled on demand (`Bag.Filled`).
-/

namespace Noria.Sqlite

open Bag List Option SqlConverter StateKey

/-! ## The queries -/

/-- The columns a view keeps: the selected ones, and the key column. -/
def layout (sel : List Nat) (c : Nat) : List Nat := if c ∈ sel then sel else sel ++ [c]

/-- Where the key column is among them. -/
def keyPos (sel : List Nat) (c : Nat) : Nat := (sel.findIdx? (· == c)).getD sel.length

/-- A condition whose first equality, from left to right through conjunctions and parentheses,
    compares the column `c` with a placeholder. -/
inductive KeyedBy (names : List String) (c : Nat) : Expr → Prop where
  | equality {left : Expr} (v : String) (h : get_column_index_from_expr left names = some c) :
      KeyedBy names c (.binary left .equals (.variable v))
  | parenthesized {inner : Expr} (h : KeyedBy names c inner) :
      KeyedBy names c (.parenthesized [inner])
  | left {l : Expr} (r : Expr) (h : KeyedBy names c l) : KeyedBy names c (.binary l .and r)
  | right {l r : Expr} (hl : extract_equality_column names l = none) (h : KeyedBy names c r) :
      KeyedBy names c (.binary l .and r)

/-- `SELECT <columns> FROM t WHERE c = ? AND ..`: the selected columns are `sel`, by name or as `*`
    or `t.*`, and the filter of the view tests `cond`. -/
structure KeyedSelect (env : SqlEnv) (body : SelectBody) (table : String) (names : List String)
    (sel : List Nat) (c : Nat) (cond : FilterCondition) : Prop where
  one_table : SqlConverter.OneTable body table
  key : ∃ e, body.where_clause = some e ∧ KeyedBy names c e ∧
    convert_expr_to_filter env names e = .ok cond
  columns : ((body.columns = [.star] ∨ ∃ t, body.columns = [.tableStar t]) ∧
      sel = List.range names.length) ∨
    (sel ≠ [] ∧ ∃ cols, projectionLoop body.columns names = some cols ∧ cols.map Prod.fst = sel)

section Layout

variable {sel : List Nat} {c : Nat}

theorem keyPos_lt_iff : keyPos sel c < sel.length ↔ c ∈ sel := by
  unfold keyPos
  cases hf : sel.findIdx? (· == c) with
  | none =>
    rw [findIdx?_eq_none_iff] at hf
    simp only [getD_none, Nat.lt_irrefl, false_iff]
    intro hm
    have := hf c hm
    simp at this
  | some p =>
    obtain ⟨hlt, heq, -⟩ := findIdx?_eq_some_iff_getElem.mp hf
    simp only [getD_some, hlt, true_iff]
    rw [← eq_of_beq heq]
    exact getElem_mem hlt

theorem keyPos_of_not_mem (h : c ∉ sel) : keyPos sel c = sel.length := by
  unfold keyPos
  rw [findIdx?_eq_none_iff.mpr]
  · rfl
  · intro x hx
    simp only [beq_eq_false_iff_ne]
    rintro rfl
    exact h hx

theorem layout_getElem?_keyPos (sel : List Nat) (c : Nat) :
    (layout sel c)[keyPos sel c]? = some c := by
  by_cases hm : c ∈ sel
  · unfold layout
    rw [if_pos hm]
    cases hf : sel.findIdx? (· == c) with
    | none =>
      rw [findIdx?_eq_none_iff] at hf
      have := hf c hm
      simp at this
    | some p =>
      obtain ⟨hp, heq, -⟩ := findIdx?_eq_some_iff_getElem.mp hf
      have hpos : keyPos sel c = p := by rw [keyPos, hf]; rfl
      rw [hpos, getElem?_eq_getElem hp, eq_of_beq heq]
  · unfold layout
    rw [if_neg hm, keyPos_of_not_mem hm, getElem?_append_right (Nat.le_refl _), Nat.sub_self]
    rfl

theorem keyPos_lt_layout (sel : List Nat) (c : Nat) : keyPos sel c < (layout sel c).length :=
  (List.getElem?_eq_some_iff.mp (layout_getElem?_keyPos sel c)).1

theorem getD_proj_layout (v : VRow) :
    (VRow.proj (layout sel c) v).getD (keyPos sel c) .null = v.getD c .null := by
  rw [VRow.proj, getD_eq_getElem?_getD, getElem?_map, layout_getElem?_keyPos]
  rfl

theorem take_proj_layout (v : VRow) :
    (VRow.proj (layout sel c) v).take sel.length = VRow.proj sel v := by
  unfold layout VRow.proj
  split
  · rw [take_of_length_le]
    rw [length_map]
  · rw [map_append, take_left']
    rw [length_map]

theorem mem_layout {x : Nat} (h : x ∈ layout sel c) : x ∈ sel ∨ x = c := by
  unfold layout at h
  split at h
  · exact .inl h
  · rcases mem_append.mp h with h | h
    · exact .inl h
    · exact .inr (mem_singleton.mp h)

theorem proj_range {v : VRow} {n : Nat} (h : v.length = n) : VRow.proj (List.range n) v = v := by
  subst h
  refine ext_getElem? fun i => ?_
  rw [VRow.proj, getElem?_map]
  by_cases hi : i < v.length
  · rw [getElem?_range hi, getElem?_eq_getElem hi, map_some,
      getD_eq_getElem?_getD, getElem?_eq_getElem hi]
    rfl
  · rw [getElem?_eq_none (by simpa using hi), getElem?_eq_none (by simpa using hi)]
    rfl

end Layout

theorem column_cases {e : Expr} {names : List String} {i : Nat}
    (h : get_column_index_from_expr e names = some i) :
    (∃ name, e = .id name) ∨ ∃ table col, e = .qualified table col := by
  unfold get_column_index_from_expr at h
  split at h
  · exact .inl ⟨_, rfl⟩
  · exact .inr ⟨_, _, rfl⟩
  · cases h

theorem projectionLoop_plain (env : SqlEnv) {columns : List ResultColumn} {names : List String}
    {cols : List (Nat × String)} (h : projectionLoop columns names = some cols) :
    extract_aggregate env columns names = none ∧ SqlConverter.needs_projection columns = true := by
  induction columns generalizing cols with
  | nil => exact ⟨rfl, rfl⟩
  | cons col rest ih =>
    cases col with
    | star => cases h
    | tableStar t => cases h
    | expr e as_name =>
      simp only [projectionLoop, bind_eq_bind, bind_eq_some_iff] at h
      obtain ⟨idx, hidx, rest', hrest, -⟩ := h
      obtain ⟨hagg, hproj⟩ := ih hrest
      have hcol : extract_aggregate_from_expr env e names = none := by
        rcases column_cases hidx with ⟨name, rfl⟩ | ⟨table, col, rfl⟩ <;> rfl
      refine ⟨?_, ?_⟩
      · simp only [extract_aggregate, hcol, hagg]
      · simpa [needs_projection] using hproj

theorem KeyedBy.extract_eq {names : List String} {c : Nat} {e : Expr} (h : KeyedBy names c e) :
    extract_equality_column names e = some c := by
  induction h with
  | equality v h => exact h
  | parenthesized h ih => exact ih
  | left r h ih => simp only [extract_equality_column, ih]
  | right hl h ih => simp only [extract_equality_column, hl, ih]

theorem KeyedBy.lt {names : List String} {c : Nat} {e : Expr} (h : KeyedBy names c e) :
    c < names.length := by
  induction h with
  | equality v h => exact get_column_index_lt h
  | parenthesized h ih => exact ih
  | left r h ih => exact ih
  | right hl h ih => exact ih

namespace KeyedSelect

variable {env : SqlEnv} {body : SelectBody} {table : String} {names : List String}
  {sel : List Nat} {c : Nat} {cond : FilterCondition}

section

variable (h : KeyedSelect env body table names sel c cond)
include h

theorem key_columns_eq : extract_key_columns body.where_clause names = [c] := by
  obtain ⟨e, hwhere, hkey, -⟩ := h.key
  simp only [extract_key_columns, hwhere, bind_some, hkey.extract_eq]

theorem key_lt : c < names.length := by
  obtain ⟨e, -, hkey, -⟩ := h.key
  exact hkey.lt

theorem cond_lt : ∀ x ∈ cond.columns, x < names.length := by
  obtain ⟨e, -, -, hcond⟩ := h.key
  exact convert_expr_to_filter_columns hcond

theorem sel_lt : ∀ x ∈ sel, x < names.length := by
  intro x hx
  rcases h.columns with ⟨-, rfl⟩ | ⟨-, cols, hcols, rfl⟩
  · exact mem_range.mp hx
  · obtain ⟨p, hp, rfl⟩ := mem_map.mp hx
    exact projectionLoop_lt hcols p hp

theorem sel_ne_nil : sel ≠ [] := by
  intro hsel
  rcases h.columns with ⟨-, hrange⟩ | ⟨hne, -⟩
  · have hlen := congrArg List.length (hsel.symm.trans hrange)
    have hlt := h.key_lt
    rw [length_nil, length_range] at hlen
    omega
  · exact hne hsel

theorem layout_lt : ∀ x ∈ layout sel c, x < names.length := by
  intro x hx
  rcases mem_layout hx with hx | rfl
  · exact h.sel_lt x hx
  · exact h.key_lt

end

end KeyedSelect

/-- The projection to the layout. -/
def layoutOps (names : List String) (sel : List Nat) (c : Nat) : List OperatorType :=
  if layout sel c = List.range names.length then []
  else [.project ⟨layout sel c, [keyPos sel c]⟩]

/-- The operators of such a view. -/
def keyedOps (names : List String) (sel : List Nat) (c : Nat) (cond : FilterCondition) :
    List OperatorType :=
  .filter ⟨cond, names.length, [0]⟩ :: layoutOps names sel c

theorem placeKey_layout (names : List String) (sel : List Nat) (c : Nat)
    (new_names : List String) :
    let r := placeKey names (sel, new_names, []) c
    r.1 = layout sel c ∧ r.2.2 = [keyPos sel c] := by
  simp only [placeKey]
  cases hf : sel.findIdx? (· == c) with
  | some p =>
    -- the key column is selected
    have hpos : keyPos sel c = p := by rw [keyPos, hf]; rfl
    have hlt : p < sel.length := (findIdx?_eq_some_iff_getElem.mp hf).1
    have hm : c ∈ sel := keyPos_lt_iff.mp (by rw [hpos]; exact hlt)
    simp [layout, hm, hpos]
  | none =>
    have hm : c ∉ sel := by
      intro hm
      have := findIdx?_eq_none_iff.mp hf c hm
      simp at this
    simp [layout, hm, keyPos_of_not_mem hm]

/-- The projection of a query that lists columns, with its key column behind them if need be. -/
theorem projection_ops_listed {body : SelectBody} {names : List String} {c : Nat}
    {cols : List (Nat × String)} (hcols : projectionLoop body.columns names = some cols)
    (hne : cols ≠ []) (hkeys : extract_key_columns body.where_clause names = [c])
    (hneeds : needs_projection body.columns = true) :
    projection_ops body false names
      = (layoutOps names (cols.map Prod.fst) c, [keyPos (cols.map Prod.fst) c]) := by
  have hget : get_projection body.columns names
      = some (cols.map Prod.fst, cols.map Prod.snd) := by
    cases cols with
    | nil => exact absurd rfl hne
    | cons p ps => simp only [get_projection, hcols]
  obtain ⟨hemit, hkey⟩ := placeKey_layout names (cols.map Prod.fst) c (cols.map Prod.snd)
  by_cases hall : layout (cols.map Prod.fst) c = List.range names.length
  · simp only [projection_ops, projectionPlan, layoutOps, hneeds, hget, hkeys, foldl_cons,
      foldl_nil, hemit, hkey, Bool.not_false, Bool.and_true, if_true, if_pos hall]
  · simp only [projection_ops, projectionPlan, layoutOps, hneeds, hget, hkeys, foldl_cons,
      foldl_nil, hemit, hkey, Bool.not_false, Bool.and_true, if_true, if_neg hall]

namespace KeyedSelect

variable {env : SqlEnv} {body : SelectBody} {table : String} {names : List String}
  {sel : List Nat} {c : Nat} {cond : FilterCondition}

theorem layout_range (h : c < names.length) :
    layout (List.range names.length) c = List.range names.length := if_pos (mem_range.mpr h)

theorem keyPos_range {n : Nat} (h : c < n) : keyPos (List.range n) c = c := by
  have hget := layout_getElem?_keyPos (List.range n) c
  rw [layout, if_pos (mem_range.mpr h)] at hget
  obtain ⟨hlt, heq⟩ := List.getElem?_eq_some_iff.mp hget
  rwa [getElem_range] at heq

theorem projection_ops_eq (h : KeyedSelect env body table names sel c cond) :
    projection_ops body false names = (layoutOps names sel c, [keyPos sel c]) := by
  rcases h.columns with ⟨hall, rfl⟩ | ⟨hne, cols, hcols, rfl⟩
  · -- no projection, and the key column is where it is in the table
    have hproj : projection_ops body false names = ([], [c]) := by
      simp only [projection_ops, projectionPlan, h.key_columns_eq]
      rcases hall with hstar | ⟨t, hstar⟩ <;> rw [hstar] <;> rfl
    rw [hproj, layoutOps, layout_range h.key_lt, if_pos rfl, keyPos_range h.key_lt]
  · refine projection_ops_listed hcols ?_ h.key_columns_eq (projectionLoop_plain env hcols).2
    rintro rfl
    exact hne rfl

theorem extract_aggregate_eq (h : KeyedSelect env body table names sel c cond) :
    extract_aggregate env body.columns names = none := by
  rcases h.columns with ⟨hstar | ⟨t, hstar⟩, -⟩ | ⟨-, cols, hcols, -⟩
  · rw [hstar]
    rfl
  · rw [hstar]
    rfl
  · exact (projectionLoop_plain env hcols).1

/-- **The plan of a lookup by one column.** -/
theorem plan_eq (h : KeyedSelect env body table names sel c cond) (idx : Nat) :
    SqlConverter.plan env idx names body = .ok ⟨keyedOps names sel c cond, [keyPos sel c]⟩ := by
  obtain ⟨e, hwhere, -, hcond⟩ := h.key
  have hfilter : filter_ops env names body.where_clause
      = .ok [.filter ⟨cond, names.length, [0]⟩] := by
    simp only [filter_ops, hwhere, hcond, Outcome.ok_bind]
  have hagg : aggregate_ops env (idx + 1) body names = ([], names, false) := by
    simp only [aggregate_ops, h.extract_aggregate_eq]
  simp only [SqlConverter.plan, hfilter, Outcome.ok_bind, length_singleton, hagg,
    h.projection_ops_eq, append_nil, keyedOps, singleton_append]

end KeyedSelect

/-! ## The way down -/

/-- The records of a batch that pass the filter, taken to the layout of the view. -/
structure Imaged (sel : List Nat) (c : Nat) (cond : FilterCondition) (records out : Records) :
    Prop where
  changes : out.changes = (Records.changes (records.filter fun r => cond.holds (Row.val r.row))).map
    (Change.map (VRow.proj (layout sel c)))
  length_eq : ∀ r ∈ out, r.row.length = (layout sel c).length

namespace Imaged

variable {sel : List Nat} {c : Nat} {cond : FilterCondition} {rs out : Records}

theorem nil_iff (h : Imaged sel c cond [] out) : out = [] := by
  have := h.changes
  exact map_eq_nil_iff.mp this

theorem skip {r : Record} (h : Imaged sel c cond (r :: rs) out)
    (hrow : ¬cond.holds (Row.val r.row) = true) : Imaged sel c cond rs out := by
  refine ⟨?_, h.length_eq⟩
  rw [h.changes, filter_cons, if_neg hrow]

theorem head {r : Record} (h : Imaged sel c cond (r :: rs) out)
    (hrow : cond.holds (Row.val r.row) = true) :
    ∃ o out', out = r.withRow o :: out' ∧ Row.val o = VRow.proj (layout sel c) (Row.val r.row) ∧
      Imaged sel c cond rs out' := by
  obtain ⟨hch, hlen⟩ := h
  rw [filter_cons, if_pos hrow] at hch
  cases out with
  | nil => cases hch
  | cons o out' =>
    rw [Records.changes_cons, Records.changes_cons, map_cons, List.cons.injEq] at hch
    have hrest : Imaged sel c cond rs out' := ⟨hch.2, (forall_mem_cons.mp hlen).2⟩
    -- the record that comes out has the sign of `r`
    cases r with
    | positive row =>
      cases o with
      | positive o => exact ⟨o, out', rfl, Change.ins.inj hch.1, hrest⟩
      | negative o => cases hch.1
    | negative row =>
      cases o with
      | positive o => cases hch.1
      | negative o => exact ⟨o, out', rfl, Change.del.inj hch.1, hrest⟩

end Imaged

section Flow

variable {records : Records} {sel : List Nat} {c : Nat} {cond : FilterCondition}

theorem process_filter (n : Nat) (h : ∀ r ∈ records, ∀ x ∈ cond.columns, x < r.row.length) :
    OperatorType.process (.filter ⟨cond, n, [0]⟩) 0 records none
      = some (.filter ⟨cond, n, [0]⟩,
        ⟨records.filter fun r => cond.holds (Row.val r.row), []⟩) := by
  simp only [OperatorType.process, FilterOp.process, FilterOp.keep_eq cond records h, bind_eq_bind,
    bind_some, map_some]

theorem process_alwaysTrue (n : Nat) (records : Records) :
    OperatorType.process (.filter ⟨.alwaysTrue, n, [0]⟩) 0 records none
      = some (.filter ⟨.alwaysTrue, n, [0]⟩, ⟨records, []⟩) := by
  have hall : (records.filter fun r => FilterCondition.alwaysTrue.holds (Row.val r.row))
      = records := filter_eq_self.mpr fun _ _ => rfl
  rw [process_filter n (by intro r _ c hc; simp [FilterCondition.columns] at hc), hall]

/-- What the projection sends on: each record in the layout of the view. -/
theorem flow_layout {names : List String} (hlt : ∀ x ∈ layout sel c, x < names.length)
    (st : MemoryState) (hlen : ∀ r ∈ records, r.row.length = names.length) :
    ∃ out : Records, out.changes = records.changes.map (Change.map (VRow.proj (layout sel c))) ∧
      (∀ r ∈ out, r.row.length = (layout sel c).length) ∧
      flow (layoutOps names sel c) st records
        = (st.process_records out).map fun st' => (layoutOps names sel c, st') := by
  cases records with
  | nil => exact ⟨[], rfl, by simp, flow_nil _ st⟩
  | cons r rs =>
    generalize hrecs : r :: rs = records at hlen
    have hempty : records.isEmpty = false := by rw [← hrecs]; rfl
    unfold layoutOps
    split
    · -- all columns in their order: there is no projection, and nothing to do
      rename_i hrange
      refine ⟨records, ?_, ?_, flow_end st records⟩
      · refine (map_id' (Records.changes records)).symm.trans
          (map_congr_left fun ch hch => ?_)
        obtain ⟨r', hr', rfl⟩ := mem_map.mp hch
        have hproj : VRow.proj (layout sel c) (Row.val r'.row) = Row.val r'.row := by
          rw [hrange]
          exact proj_range ((Row.length_val _).trans (hlen r' hr'))
        cases r' with
        | positive row => exact congrArg Change.ins hproj.symm
        | negative row => exact congrArg Change.del hproj.symm
      · intro r' hr'
        rw [hrange, length_range]
        exact hlen r' hr'
    · -- the projection finds all its columns
      have hrow : ∀ r ∈ records, ∃ row, r.row.cols (layout sel c) = some row ∧
          Row.val row = VRow.proj (layout sel c) (Row.val r.row) := by
        intro r hr
        obtain ⟨row, hrow⟩ := Row.cols_isSome fun x hx => (hlen r hr).symm ▸ hlt x hx
        exact ⟨row, hrow, Row.val_cols hrow⟩
      obtain ⟨out, hout, hch, hmem⟩ := mapM_rows (fun row => row.cols (layout sel c)) _ hrow
      refine ⟨out, hch, ?_, ?_⟩
      · intro r' hr'
        obtain ⟨r₀, -, hcols⟩ := hmem r' hr'
        exact Row.length_cols hcols
      · have hproject : OperatorType.process (.project ⟨layout sel c, [keyPos sel c]⟩) 0 records
            none = some (.project ⟨layout sel c, [keyPos sel c]⟩, ⟨out, []⟩) := by
          simp only [OperatorType.process, ProjectOp.process, hout, bind_eq_bind,
            bind_some, map_some]
        rw [flow_cons hempty hproject, flow_end, Option.map_map]
        rfl

/-- **What reaches the state of a lookup by one column** are the images of the records that pass. -/
theorem flow_keyed {env : SqlEnv} {body : SelectBody} {table : String} {names : List String}
    (h : KeyedSelect env body table names sel c cond) (st : MemoryState)
    (hlen : ∀ r ∈ records, r.row.length = names.length) :
    ∃ out, Imaged sel c cond records out ∧
      flow (keyedOps names sel c cond) st records
        = (st.process_records out).map fun st' => (keyedOps names sel c cond, st') := by
  by_cases hempty : records.isEmpty = true
  · obtain rfl := isEmpty_iff.mp hempty
    exact ⟨[], ⟨rfl, by simp⟩, rfl⟩
  · have hfilter := process_filter names.length fun r hr x hx => (hlen r hr).symm ▸ h.cond_lt x hx
    obtain ⟨out, hch, hout, hflow⟩ := flow_layout h.layout_lt st fun r hr =>
      hlen r (mem_of_mem_filter hr)
    refine ⟨out, ⟨hch, hout⟩, ?_⟩
    rw [keyedOps, flow_cons (Bool.eq_false_iff.mpr hempty) hfilter, hflow, Option.map_map]
    rfl

end Flow

/-! ## States filled on demand -/

/-- The key of a row, at one column. -/
def keyAt (pos : Nat) (v : VRow) : Value := v.getD pos .null

namespace MemoryState

variable {st st' : MemoryState} {pos : Nat} {records : Records} {d : DataType} {rows : List Row}
  {record : Record}

theorem bucket_single (hok : st.Ok) (hkeys : st.key_columns = [pos]) (d : DataType) :
    ((st.bucket (.single d)).map Row.val : Multiset VRow) = rowsAt (keyAt pos) st.bag d.val := by
  rw [bucket_eq_filter hok, hkeys]
  refine Multiset.filter_congr fun v _ => ?_
  show [v.getD pos .null] = [d.val] ↔ v.getD pos .null = d.val
  simp

theorem lookup_single (hok : st.Ok) (hkeys : st.key_columns = [pos]) (d : DataType) :
    (rowsAt (keyAt pos) st.bag d.val = 0 ∧ st.lookup [d] = .missing) ∨
    (rowsAt (keyAt pos) st.bag d.val ≠ 0 ∧ ∃ rows, st.lookup [d] = .some rows ∧
      (rows.map Row.val : Multiset VRow) = rowsAt (keyAt pos) st.bag d.val) := by
  have hb := bucket_single hok hkeys d
  have hslice : from_slice [d] = .single d := rfl
  unfold lookup lookupIn
  rw [hslice]
  unfold bucket at hb
  cases hg : st.data.get? (.single d) with
  | none =>
    rw [hg] at hb
    exact .inl ⟨hb.symm, rfl⟩
  | some rows =>
    rw [hg] at hb
    -- an emptied bucket has been dropped
    have hne : rows ≠ [] := by
      obtain ⟨k₀, rest, -, -, hperm, -, -⟩ := st.data.exists_split hg
      exact hok.nonempty (k₀, rows) (hperm.mem_iff.mpr mem_cons_self)
    right
    cases rows with
    | nil => exact absurd rfl hne
    | cons r rs =>
      refine ⟨?_, r :: rs, rfl, hb⟩
      rw [← hb]
      simp

theorem process_record_total (hok : st.Ok) (hkeys : st.key_columns = [pos])
    (hpos : pos < record.row.length) :
    ∃ st', st.process_record record = some st' ∧ st'.Ok ∧ st'.key_columns = [pos] := by
  obtain ⟨key, hkey⟩ : ∃ key, st.extract_key record.row = some key :=
    from_row_isSome (by simpa [hkeys] using hpos)
  obtain ⟨st', hst'⟩ := process_record_isSome hkey
  exact ⟨st', hst', process_record_ok hok hst', (key_columns_process_record hst').trans hkeys⟩

theorem bag_ins (hok : st.Ok) {row : Row} (h : st.process_record (.positive row) = some st') :
    st'.bag = Row.val row ::ₘ st.bag := by
  refine (process_record_bag hok h ?_).2
  rw [Record.change_positive, Applies.ins_iff, Applies.nil_iff]

theorem bag_del (hok : st.Ok) {row : Row} (h : st.process_record (.negative row) = some st')
    (hmem : Row.val row ∈ st.bag) : st.bag = Row.val row ::ₘ st'.bag := by
  obtain ⟨m, hm⟩ := Multiset.exists_cons_of_mem hmem
  have hbag := (process_record_bag hok h (by
    rw [Record.change_negative, Applies.del_iff]
    exact ⟨m, hm, Applies.nil_iff.mpr rfl⟩)).2
  rw [hbag, hm]

theorem rowsAt_other (hok : st.Ok) (hkeys : st.key_columns = [pos])
    (h : st.process_record record = some st') (hd : keyAt pos (Row.val record.row) ≠ d.val) :
    rowsAt (keyAt pos) st'.bag d.val = rowsAt (keyAt pos) st.bag d.val := by
  obtain ⟨key, hkey, hcols, hbucket⟩ := process_record_bucket h
  have hne : ¬(key == .single d) = true := by
    rw [beq_iff_vals, vals_from_row hkey, hkeys]
    intro heq
    exact hd (List.cons.inj heq).1
  rw [← bucket_single (process_record_ok hok h) (hcols.trans hkeys), ← bucket_single hok hkeys,
    hbucket, if_neg hne]

/-- A deletion for a key without rows changes nothing. -/
theorem bag_absent (hok : st.Ok) (hkeys : st.key_columns = [pos]) {row : Row}
    (hpos : pos < row.length) (h : st.process_record (.negative row) = some st')
    (hzero : rowsAt (keyAt pos) st.bag (keyAt pos (Row.val row)) = 0) : st'.bag = st.bag := by
  obtain ⟨d, hd, hval⟩ := Row.getElem?_val row hpos
  have hkey : st.extract_key row = some (.single d) := by
    unfold extract_key from_row
    rw [hkeys]
    simp [hd]
  -- without rows for the key there is no bucket to take one from
  have hnone : st.data.get? (.single d) = none := by
    rcases lookup_single hok hkeys d with ⟨-, hmiss⟩ | ⟨hne, -⟩
    · unfold lookup lookupIn at hmiss
      rw [show from_slice [d] = .single d from rfl] at hmiss
      split at hmiss
      · cases hmiss
      · cases hmiss
      · assumption
    · rw [hval] at hne
      exact absurd hzero hne
  unfold process_record at h
  simp only [Record.row_negative, hkey, Record.is_positive, Bool.false_eq_true, if_false, hnone,
    bind_eq_bind, bind_some, Option.some.injEq] at h
  rw [h]

theorem process_records_cons {st₁ : MemoryState} (h : st.process_record record = some st₁) :
    st.process_records (record :: records) = st₁.process_records records := by
  simp only [process_records, foldlM_cons, h, bind_eq_bind, bind_some]

theorem process_records_ins (hok : st.Ok) (hkeys : st.key_columns = [pos])
    (hpos : ∀ row ∈ rows, pos < row.length) :
    ∃ st', st.process_records (rows.map .positive) = some st' ∧ st'.Ok ∧
      st'.key_columns = [pos] ∧ st'.bag = st.bag + (rows.map Row.val : List VRow) := by
  induction rows generalizing st with
  | nil => exact ⟨st, rfl, hok, hkeys, by simp⟩
  | cons row rows ih =>
    have hrow : pos < (Record.positive row).row.length := hpos row mem_cons_self
    obtain ⟨st₁, h₁, hok₁, hkeys₁⟩ := process_record_total hok hkeys hrow
    obtain ⟨st', h', hok', hkeys', hbag'⟩ := ih hok₁ hkeys₁ fun r hr =>
      hpos r (mem_cons_of_mem _ hr)
    refine ⟨st', ?_, hok', hkeys', ?_⟩
    · rw [map_cons, process_records_cons h₁, h']
    · rw [hbag', bag_ins hok h₁, map_cons, ← Multiset.cons_coe, Multiset.cons_add,
        Multiset.add_cons]

/-- **Rows enter a state that is indexed by one column** exactly if all of
    them have this column; under a key come those that have the key. -/
theorem process_records_positive (hkeys : st.key_columns = [pos])
    (h : st.process_records (rows.map .positive) = some st') (d : DataType) :
    (∀ row ∈ rows, pos < row.length) ∧ st'.key_columns = [pos] ∧
      st'.bucket (.single d) = st.bucket (.single d) ++
        rows.filter fun row => keyAt pos (Row.val row) = d.val := by
  induction rows generalizing st with
  | nil =>
    cases h
    exact ⟨fun row hrow => absurd hrow not_mem_nil, hkeys, (append_nil _).symm⟩
  | cons row rows ih =>
    rw [map_cons, process_records, foldlM_cons, bind_eq_bind,
      bind_eq_some_iff] at h
    obtain ⟨st₁, h₁, h⟩ := h
    obtain ⟨key, hkey, hcols, hbucket⟩ := process_record_bucket h₁
    obtain ⟨hpos, hkeys', hrest⟩ := ih (hcols.trans hkeys) h
    -- the first row has a key, so it has the column
    have hrow : ∃ v, row[pos]? = some v ∧ key = .single v := by
      rw [extract_key, hkeys, from_row] at hkey
      simpa [eq_comm] using hkey
    obtain ⟨v, hv, rfl⟩ := hrow
    have hlt : pos < row.length := (List.getElem?_eq_some_iff.mp hv).1
    have hval : keyAt pos (Row.val row) = v.val := Row.val_getD row pos hv
    refine ⟨?_, hkeys', ?_⟩
    · intro row' hrow'
      rcases mem_cons.mp hrow' with rfl | hrow'
      · exact hlt
      · exact hpos row' hrow'
    · rw [hrest, hbucket, filter_cons, hval]
      have hbeq : ((StateKey.single v == .single d) = true) ↔ v.val = d.val := by
        rw [beq_iff_vals]
        exact singleton_inj
      by_cases heq : v.val = d.val
      · rw [if_pos (hbeq.mpr heq), if_pos (decide_eq_true heq), bucketStep]
        simp [Record.is_positive]
      · rw [if_neg (mt hbeq.mp heq), if_neg (by simpa using heq)]

theorem process_records_positive_total (hkeys : st.key_columns = [pos])
    (hpos : ∀ row ∈ rows, pos < row.length) :
    ∃ st', st.process_records (rows.map .positive) = some st' := by
  induction rows generalizing st with
  | nil => exact ⟨st, rfl⟩
  | cons row rows ih =>
    obtain ⟨key, hkey⟩ : ∃ key, st.extract_key row = some key :=
      from_row_isSome (by simpa [hkeys] using hpos row mem_cons_self)
    have hrecord : st.extract_key (Record.positive row).row = some key := hkey
    obtain ⟨st₁, h₁⟩ := process_record_isSome hrecord
    have hkeys₁ := (key_columns_process_record h₁).trans hkeys
    obtain ⟨st', h'⟩ := ih hkeys₁ (forall_mem_cons.mp hpos).2
    exact ⟨st', by rw [map_cons, process_records_cons h₁, h']⟩

theorem lookup_of_bucket (h : st.bucket (.single d) = rows) (hne : rows ≠ []) :
    st.lookup [d] = .some rows := by
  have hslice : from_slice [d] = .single d := rfl
  unfold bucket at h
  unfold lookup lookupIn
  rw [hslice]
  cases hget : st.data.get? (.single d) with
  | none =>
    rw [hget] at h
    exact absurd h.symm hne
  | some found =>
    rw [hget] at h
    cases h
    cases found with
    | nil => exact absurd rfl hne
    | cons row rest => rfl

theorem bucket_of_missing (h : st.lookup [d] = .missing) : st.bucket (.single d) = [] := by
  have hslice : from_slice [d] = .single d := rfl
  unfold lookup lookupIn at h
  rw [hslice] at h
  unfold bucket
  cases hget : st.data.get? (.single d) with
  | none => rfl
  | some found =>
    rw [hget] at h
    cases found <;> cases h

section Invariants

variable {table : Multiset VRow} {row : Row}

theorem filled_ins (hok : st.Ok) (h : st.process_record (.positive row) = some st')
    (hfill : Filled (keyAt pos) table st.bag)
    (hkey : rowsAt (keyAt pos) st.bag (keyAt pos (Row.val row)) ≠ 0 ∨
      rowsAt (keyAt pos) table (keyAt pos (Row.val row)) = 0) :
    Filled (keyAt pos) (Row.val row ::ₘ table) st'.bag := by
  rw [bag_ins hok h]
  exact hfill.insert hkey

/-- A row leaves a state that is filled on demand; a key with rows keeps
    some, or has none left in the table. -/
theorem filled_del (hok : st.Ok) (hkeys : st.key_columns = [pos]) (hpos : pos < row.length)
    (h : st.process_record (.negative row) = some st')
    (hfill : Filled (keyAt pos) (Row.val row ::ₘ table) st.bag) :
    Filled (keyAt pos) table st'.bag ∧
      ∀ k, rowsAt (keyAt pos) st.bag k ≠ 0 →
        rowsAt (keyAt pos) st'.bag k ≠ 0 ∨ rowsAt (keyAt pos) table k = 0 := by
  rcases hfill.mem_or (Multiset.mem_cons_self _ _) with hmem | hzero
  · rw [bag_del hok h hmem] at hfill ⊢
    exact ⟨hfill.delete, fun k hk => hfill.delete_keeps hk⟩
  · rw [bag_absent hok hkeys hpos h hzero]
    exact ⟨hfill.delete_absent hzero, fun k hk => .inl hk⟩

/-- A row enters: a key that was complete stays complete. -/
theorem complete_ins (hok : st.Ok) (h : st.process_record (.positive row) = some st') {k : Value}
    (hk : rowsAt (keyAt pos) st.bag k = rowsAt (keyAt pos) table k) :
    rowsAt (keyAt pos) st'.bag k = rowsAt (keyAt pos) (Row.val row ::ₘ table) k := by
  rw [bag_ins hok h]
  by_cases heq : keyAt pos (Row.val row) = k
  · subst heq
    rw [rowsAt_cons_self, rowsAt_cons_self, hk]
  · rw [rowsAt_cons_ne heq, rowsAt_cons_ne heq, hk]

theorem complete_del (hok : st.Ok) (hkeys : st.key_columns = [pos])
    (h : st.process_record (.negative row) = some st')
    (hk : rowsAt (keyAt pos) st.bag d.val = rowsAt (keyAt pos) (Row.val row ::ₘ table) d.val) :
    rowsAt (keyAt pos) st'.bag d.val = rowsAt (keyAt pos) table d.val ∧
      (keyAt pos (Row.val row) = d.val → st.bag = Row.val row ::ₘ st'.bag) := by
  by_cases heq : keyAt pos (Row.val row) = d.val
  · have hmem : Row.val row ∈ st.bag := by
      have : Row.val row ∈ rowsAt (keyAt pos) st.bag d.val := by
        rw [hk, ← heq, rowsAt_cons_self]
        exact Multiset.mem_cons_self _ _
      exact (mem_rowsAt.mp this).1
    have hbag := bag_del hok h hmem
    refine ⟨?_, fun _ => hbag⟩
    rw [hbag, ← heq, rowsAt_cons_self, rowsAt_cons_self] at hk
    rw [← heq]
    exact (Multiset.cons_inj_right _).mp hk
  · refine ⟨?_, fun h' => absurd h' heq⟩
    rw [rowsAt_other hok hkeys h heq, hk, rowsAt_cons_ne heq]

end Invariants

end MemoryState

end Noria.Sqlite

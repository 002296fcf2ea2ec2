import Noria.Sqlite.LineDelta
import Noria.Sqlite.Query

/-! # Supported forms of a SELECT

  `Supported` names the statements over one table whose views can be right: a list of columns, or
  the GROUP BY columns followed by one COUNT or SUM. `Fitting` says on which contents of the table
  the clauses that are not read would not have removed anything, and those that are read are
  evaluated as in SQL. The plan of a supported form is a filter and operators that turn the selected
  rows into those of the statement (`tail_of_plan`).
-/

namespace Noria.Sqlite

open Bag OperatorType SqlConverter List

variable {as_name : Option String} {group : Multiset VRow} {call : Expr} {func : AggregateFunc}
  {v : VRow} {c : Nat} {item : ResultColumn} {exprs : List (Expr × Option String)}

/-! ## The plan below a table that no view reads -/

/-- No view reads the table yet; it need not have a base node. -/
def LocalExecutor.Unread (ex : LocalExecutor) (table : String) : Prop :=
  ∀ b, ex.base_tables.get? table = some b → ex.Line b [] b none

section Build

open LocalExecutor

variable {env : SqlEnv} {conv : SqlConverter} {ex ex' : LocalExecutor} {body : SelectBody}
  {table : String} {schema : TableSchema} {view : ViewHandle}

theorem get_new_base_table (hbase : ex.base_tables.get? table = none) (columns : List String) :
    Build.get_or_add_base_table table columns ex
      = (.ok ex.nodes.length, (ex.add_base_table table columns).2) := by
  simp only [Build.get_or_add_base_table, get_or_add_base_table, hbase]
  rfl

/-- Accepting a query over a table that no view reads lays out its plan. -/
theorem build_select_unread (hone : OneTable body table)
    (hschema : conv.get_schema table = some schema) (hunread : ex.Unread table)
    (h : build_select env conv (.select body) ex = (.ok view, ex')) :
    ∃ idx p b, plan env idx schema.columns body = .ok p ∧
      ex'.Line b p.ops view.node (some (.new p.key_columns)) ∧
      ex'.base_tables.get? table = some b := by
  cases hbase : ex.base_tables.get? table with
  | some b =>
    obtain ⟨p, hp, -, hline, htabs⟩ := build_select_accepted hone hschema hbase (hunread b hbase) h
    exact ⟨_, p, b, hp, hline, by rw [htabs, hbase]⟩
  | none =>
    -- the first step adds the base node; then it is as if it had been there
    have hadded : (ex.add_base_table table schema.columns).2.base_tables.get? table
        = some ex.nodes.length := by
      show (ex.base_tables.insert table ex.nodes.length).get? table = _
      simp
    have hline : (ex.add_base_table table schema.columns).2.Line ex.nodes.length []
        ex.nodes.length none := by
      refine .last (n := ⟨none, [], [], none, table, schema.columns⟩) ?_ rfl rfl
      show (ex.nodes ++ [_])[ex.nodes.length]? = _
      simp
    have hsame : build_select env conv (.select body) (ex.add_base_table table schema.columns).2
        = (.ok view, ex') := by
      rw [← h]
      obtain ⟨as_name, joins, hfrom, hjoins⟩ := hone.select
      simp only [build_select, hfrom, Keeping.bind_apply,
        build_from_clause_table hschema (get_base_table hadded _) hjoins,
        build_from_clause_table hschema (get_new_base_table hbase _) hjoins]
    obtain ⟨p, hp, -, hline', htabs⟩ := build_select_accepted hone hschema hadded hline hsame
    exact ⟨_, p, ex.nodes.length, hp, hline', by rw [htabs, hadded]⟩

end Build

/-! ## Statements that are supported -/

/-- Select list items that are columns, at the given positions. -/
def Columns (names : List String) (items : List (Expr × Option String)) (idxs : List Nat) : Prop :=
  List.Forall₂ (fun item i => get_column_index_from_expr item.1 names = some i) items idxs

/-- The select list items, as the parser gives them. -/
def asItems (items : List (Expr × Option String)) : List ResultColumn :=
  items.map fun item => .expr item.1 item.2

/-- The calls that are computed as in SQL; a summed column is one of the
    integer columns of the table. -/
inductive PlainCall (env : SqlEnv) (names : List String) (ints : Nat → Prop) :
    Expr → AggregateFunc → Prop where
  | count_star {name : String} (h : env.to_uppercase name = "COUNT") :
      PlainCall env names ints (.functionCallStar name) .count
  | count {name : String} {e : Expr} (h : env.to_uppercase name = "COUNT") :
      PlainCall env names ints (.functionCall name (some [e])) .count
  | sum {name : String} {e : Expr} {i : Nat} (h : env.to_uppercase name = "SUM")
      (he : get_column_index_from_expr e names = some i) (hi : ints i) :
      PlainCall env names ints (.functionCall name (some [e])) (.sum i)

/-- The forms of a SELECT that are supported. -/
inductive Form (env : SqlEnv) (names : List String) (ints : Nat → Prop) (core : SelectCore) :
    Prop where
  /-- `*` or `t.*`. -/
  | all {item : ResultColumn} (hitem : item = .star ∨ ∃ t, item = .tableStar t)
      (hcols : core.body.columns = [item]) (hgroup : core.body.group_by = none)
      (hhaving : core.having = none)
  /-- A list of columns. -/
  | columns {items : List (Expr × Option String)} {idxs : List Nat} (hne : items ≠ [])
      (hitems : Columns names items idxs) (hcols : core.body.columns = asItems items)
      (hgroup : core.body.group_by = none) (hhaving : core.having = none)
  /-- The GROUP BY columns, in their order, and one call. -/
  | grouped {items exprs : List (Expr × Option String)} {idxs : List Nat} {call : Expr}
      {as_name : Option String} {func : AggregateFunc} (hne : items ≠ [])
      (hitems : Columns names items idxs)
      (hexprs : Columns names exprs idxs) (hgroup : core.body.group_by = some (exprs.map Prod.fst))
      (hcall : PlainCall env names ints call func) (hmodified : core.modified_calls = false)
      (hcols : core.body.columns = asItems items ++ [.expr call as_name])

section Meaning

variable {env : SqlEnv} {names : List String} (E : SqlMeaning env names)

/-- A statement without compounds and offsets, in a supported form. -/
structure Supported (ints : Nat → Prop) (stmt : SelectStatement) : Prop where
  compounds : stmt.compounds = []
  offset : ∀ limit o, stmt.limit = some limit → limit.offset = some o → E.offset_of o = 0
  form : Form env names ints stmt.core

/-- A content of the table on which the clauses that are not read remove
    nothing, and those that are read are evaluated as in SQL. -/
structure Fitting (stmt : SelectStatement) (table : Multiset VRow) : Prop where
  /-- AND and OR over what `==` and `cmp` say to the comparisons give SQL's answer. -/
  where_right : ∀ e, stmt.core.body.where_clause = some e → ∀ v ∈ table,
    (e.Holds (PassesOn env names v) ↔ E.is_true e v = true)
  distinct : stmt.core.distinct = true → (E.all_rows stmt.core table).Nodup
  having : ∀ e, stmt.core.having = some e →
    ∀ group ∈ E.groups stmt.core.body table, E.having_true e group = true
  limit : ∀ limit n, stmt.limit = some limit → E.limit_of limit.expr = some n →
    (E.all_rows stmt.core table).card ≤ n
  /-- COUNT of an expression counts rows. -/
  counted : ∀ name e as_name, .expr (.functionCall name (some [e])) as_name ∈
    stmt.core.body.columns → ∀ v ∈ E.selected stmt.core.body table, E.value e v ≠ .null
  in_range : ∀ info, extract_aggregate env stmt.core.body.columns names = some info →
    InRange (group_indices stmt.core.body names) info.func (E.selected stmt.core.body table)

/-- `Loads E s stmt M batches M'`: exact batches of rows of the format `s` lead from the content `M`
    to `M'`, and each of them to a content that fits the statement. -/
inductive Loads (s : Format) (stmt : SelectStatement) :
    Multiset VRow → List Records → Multiset VRow → Prop where
  | nil (M : Multiset VRow) : Loads s stmt M [] M
  | batch {M M' M'' : Multiset VRow} {records : Records} {rest : List Records}
      (hfit : ∀ r ∈ records, s.Fits r.row) (happ : Applies M records.changes M')
      (hfitting : Fitting E stmt M') (h : Loads s stmt M' rest M'') :
      Loads s stmt M (records :: rest) M''

end Meaning

/-! ## Lists of columns -/

namespace Columns

variable {env : SqlEnv} {names : List String} {items : List (Expr × Option String)}
  {idxs : List Nat}

section

variable (h : Columns names items idxs)
include h

theorem length_eq : idxs.length = items.length :=
  (List.Forall₂.length_eq h).symm

theorem lt : ∀ i ∈ idxs, i < names.length := by
  induction h with
  | nil => exact fun i hi => absurd hi not_mem_nil
  | cons hi _ ih => exact forall_mem_cons.mpr ⟨get_column_index_lt hi, ih⟩

theorem width_eq : ((asItems items).map (ResultColumn.width names)).sum = idxs.length := by
  induction h with
  | nil => rfl
  | cons _ _ ih =>
    show 1 + ((asItems _).map (ResultColumn.width names)).sum = _
    rw [ih, length_cons, Nat.add_comm]

theorem filterMap_eq :
    (items.map Prod.fst).filterMap (get_column_index_from_expr · names) = idxs := by
  induction h with
  | nil => rfl
  | cons hi _ ih => simp only [map_cons, filterMap_cons, hi, ih]

theorem projectionLoop_eq :
    ∃ cols, projectionLoop (asItems items) names = some cols ∧ cols.map Prod.fst = idxs := by
  induction h with
  | nil => exact ⟨[], rfl, rfl⟩
  | @cons item i items idxs hi _ ih =>
    obtain ⟨cols, hcols, hidx⟩ := ih
    refine ⟨(i, item.2.getD (names.getD i "")) :: cols, ?_, by rw [map_cons, hidx]⟩
    show (get_column_index_from_expr item.1 names >>= fun idx =>
      projectionLoop (asItems items) names >>= fun rest =>
        some ((idx, item.2.getD (names.getD idx "")) :: rest)) = _
    rw [hi, hcols]
    rfl

theorem extract_aggregate_append (rest : List ResultColumn) :
    extract_aggregate env (asItems items ++ rest) names = extract_aggregate env rest names := by
  induction h with
  | nil => rfl
  | @cons item i items idxs hi _ ih =>
    have hcol : extract_aggregate_from_expr env item.1 names = none := by
      rcases column_cases hi with ⟨name, hname⟩ | ⟨table, col, hname⟩ <;> rw [hname] <;> rfl
    show extract_aggregate env (.expr item.1 item.2 :: (asItems items ++ rest)) names = _
    rw [extract_aggregate, hcol]
    exact ih

end

variable (E : SqlMeaning env names)

theorem group_key_eq (h : Columns names items idxs) (v : VRow) :
    E.group_key (items.map Prod.fst) v = VRow.proj idxs v := by
  induction h with
  | nil => rfl
  | @cons item i items idxs hi _ ih =>
    show E.value item.1 v :: E.group_key (items.map Prod.fst) v = _
    rw [ih, E.value_column _ _ _ hi]
    rfl

theorem flatMap_row_column (h : Columns names items idxs) (v : VRow) :
    (asItems items).flatMap (E.row_column v) = VRow.proj idxs v := by
  induction h with
  | nil => rfl
  | @cons item i items idxs hi _ ih =>
    show E.value item.1 v :: (asItems items).flatMap (E.row_column v) = _
    rw [ih, E.value_column _ _ _ hi]
    rfl

theorem flatMap_group_column (h : Columns names items idxs) (m : Bool) (hne : group ≠ 0)
    (hsame : ∀ i ∈ idxs, ∀ u ∈ group, u.getD i .null = v.getD i .null) :
    (asItems items).flatMap (E.group_column m group) = VRow.proj idxs v := by
  induction h with
  | nil => rfl
  | @cons item i items idxs hi _ ih =>
    show E.summary m item.1 group :: (asItems items).flatMap (E.group_column m group) = _
    rw [ih (forall_mem_cons.mp hsame).2,
      E.summary_column m _ _ _ _ hi hne (hsame i mem_cons_self)]
    rfl

theorem not_summarizes (h : Columns names items idxs) :
    (asItems items).any E.column_summarizes = false := by
  induction h with
  | nil => rfl
  | @cons item i items idxs hi _ ih =>
    show (E.summarizes item.1 || (asItems items).any E.column_summarizes) = false
    rw [ih, E.summarizes_column _ _ hi]
    rfl

end Columns

/-! ## The filter -/

section Filter

variable {env : SqlEnv} {names : List String} {where_clause : Option Expr}
  {filter : List OperatorType} {s : Format}

section

variable (h : filter_ops env names where_clause = .ok filter)
include h

theorem filter_ops_cases : where_clause = none ∧ filter = [] ∨ ∃ e c, where_clause = some e ∧
      convert_expr_to_filter env names e = .ok c ∧ filter = [.filter ⟨c, names.length, [0]⟩] := by
  cases where_clause with
  | none =>
    cases h
    exact .inl ⟨rfl, rfl⟩
  | some e =>
    obtain ⟨c, hc, h⟩ := Outcome.bind_ok_iff.mp h
    cases h
    exact .inr ⟨e, c, rfl, hc, rfl⟩

theorem filter_ops_accepts
    (hs : s.width = names.length) : AcceptsAll filter s ∧ formatAll filter s = s := by
  rcases filter_ops_cases h with ⟨-, rfl⟩ | ⟨e, c, -, hc, rfl⟩
  · exact ⟨trivial, rfl⟩
  · refine ⟨⟨fun i hi => ?_, trivial⟩, rfl⟩
    rw [hs]
    exact convert_expr_to_filter_columns hc i hi

theorem filter_ops_ranged (M : Multiset VRow) : RangedAll filter M := by
  rcases filter_ops_cases h with ⟨-, rfl⟩ | ⟨e, c, -, -, rfl⟩
  · trivial
  · exact ⟨trivial, trivial⟩

theorem filter_ops_fresh : ∀ op ∈ filter, op.shape = op := by
  rcases filter_ops_cases h with ⟨-, rfl⟩ | ⟨e, c, -, -, rfl⟩
  · exact fun op hop => absurd hop not_mem_nil
  · intro op hop
    rw [mem_singleton.mp hop]
    rfl

end

theorem filter_ops_selected (E : SqlMeaning env names) {stmt : SelectStatement}
    {table : Multiset VRow} (hfit : Fitting E stmt table)
    (h : filter_ops env names stmt.core.body.where_clause = .ok filter) :
    evalAll filter table = E.selected stmt.core.body table := by
  unfold SqlMeaning.selected
  rcases filter_ops_cases h with ⟨hw, rfl⟩ | ⟨e, c, hw, hc, rfl⟩
  · rw [hw]
    rfl
  · rw [hw]
    refine Multiset.filter_congr fun v hv => ?_
    rw [convert_expr_to_filter_holds hc, hfit.where_right e hw v hv]

end Filter

/-! ## The operators after the filter -/

/-- What is known of the rows of a table of the format. -/
structure Format.Holds (s : Format) (v : VRow) : Prop where
  length_eq : v.length = s.width
  integer : ∀ c, s.intCol c → ∃ n, v.getD c .null = .int n

theorem Format.Fits.holds {s : Format} {row : Row} (h : s.Fits row) : s.Holds (Row.val row) := by
  refine ⟨?_, fun c hc => ?_⟩
  · rw [← h.length_eq]
    exact length_map _
  · obtain ⟨d, hd, hint⟩ := h.integer c hc
    rw [Row.val_getD row c hd]
    cases d with
    | int n => exact ⟨_, rfl⟩
    | bigInt n => exact ⟨_, rfl⟩
    | _ => cases hint

theorem extract_key_columns_one {names : List String} (hne : names ≠ [])
    (where_clause : Option Expr) :
    ∃ c, extract_key_columns where_clause names = [c] ∧ c < names.length := by
  obtain ⟨c, hc⟩ : ∃ c, extract_key_columns where_clause names = [c] := by
    unfold extract_key_columns
    split
    · exact ⟨_, rfl⟩
    · rw [if_neg (by simpa using hne)]
      exact ⟨0, rfl⟩
  have hmem : c ∈ extract_key_columns where_clause names := by
    rw [hc]
    exact mem_cons_self
  exact ⟨c, hc, extract_key_columns_lt hne c hmem⟩

theorem extract_key_columns_mem_lt {names : List String} {where_clause : Option Expr}
    (h : c ∈ extract_key_columns where_clause names) : c < names.length := by
  by_cases hne : names = []
  · subst hne
    unfold extract_key_columns at h
    split at h
    · next i hi =>
      obtain ⟨e, -, he⟩ := Option.bind_eq_some_iff.mp hi
      exact absurd (extract_equality_column_lt he) (Nat.not_lt_zero i)
    · exact absurd h not_mem_nil
  · exact extract_key_columns_lt hne c h

section Tails

variable {env : SqlEnv} {names : List String} (E : SqlMeaning env names)

/-- What the operators after the filter, and the key columns of the view,
    have to do with the statement. -/
structure Tail (s : Format) (stmt : SelectStatement) (ops : List OperatorType) (keys : List Nat) :
    Prop where
  accepts : AcceptsAll ops s
  fresh : ∀ op ∈ ops, op.shape = op
  keys_lt : ∀ c ∈ keys, c < (formatAll ops s).width
  ranged : ∀ table, Fitting E stmt table → RangedAll ops (E.selected stmt.core.body table)
  right : ∀ table, Fitting E stmt table → (∀ v ∈ table, s.Holds v) →
    (evalAll ops (E.selected stmt.core.body table)).map
      (List.take (stmt.core.body.width names)) = E.all_rows stmt.core table

variable {E} {s : Format} {stmt : SelectStatement}

theorem mem_of_mem_selected {body : SelectBody} {table : Multiset VRow}
    (h : v ∈ E.selected body table) : v ∈ table := by
  unfold SqlMeaning.selected at h
  split at h
  · exact h
  · exact Multiset.mem_of_mem_filter h

theorem all_rows_of_plain {items : List ResultColumn} (hcols : stmt.core.body.columns = items)
    (hgroup : stmt.core.body.group_by = none) (hhaving : stmt.core.having = none)
    (hitems : items.any E.column_summarizes = false) (table : Multiset VRow) :
    E.all_rows stmt.core table =
      (E.selected stmt.core.body table).map fun v => items.flatMap (E.row_column v) := by
  unfold SqlMeaning.all_rows
  rw [if_neg, hcols]
  rw [SqlMeaning.grouped, hgroup, hhaving, hcols, hitems]
  exact Bool.false_ne_true

theorem star_not_summarizes (h : item = .star ∨ ∃ t, item = .tableStar t) :
    [item].any E.column_summarizes = false := by
  rcases h with rfl | ⟨t, rfl⟩ <;> rfl

theorem grouped_of_group_by {exprs : List Expr} (h : stmt.core.body.group_by = some exprs) :
    E.grouped stmt.core = true := by
  rw [SqlMeaning.grouped, h]
  rfl

theorem group_indices_eq {idxs : List Nat} (hexprs : Columns names exprs idxs)
    (h : stmt.core.body.group_by = some (exprs.map Prod.fst)) :
    group_indices stmt.core.body names = idxs := by
  unfold group_indices
  rw [h]
  exact hexprs.filterMap_eq

theorem tail_all (hs : s.width = names.length) (hitem : item = .star ∨ ∃ t, item = .tableStar t)
    (hcols : stmt.core.body.columns = [item]) (hgroup : stmt.core.body.group_by = none)
    (hhaving : stmt.core.having = none) :
    Tail E s stmt [] (extract_key_columns stmt.core.body.where_clause names) where
  accepts := trivial
  fresh := fun op hop => absurd hop not_mem_nil
  keys_lt := by
    intro c hc
    show c < s.width
    rw [hs]
    exact extract_key_columns_mem_lt hc
  ranged := fun _ _ => trivial
  right := by
    intro table _ hholds
    rw [all_rows_of_plain hcols hgroup hhaving (star_not_summarizes hitem)]
    refine Multiset.map_congr rfl fun v hv => ?_
    have hshown : [item].flatMap (E.row_column v) = v := by
      rcases hitem with rfl | ⟨t, rfl⟩ <;> exact append_nil v
    have hwidth : stmt.core.body.width names = names.length := by
      unfold SelectBody.width
      rw [hcols]
      rcases hitem with rfl | ⟨t, rfl⟩ <;> rfl
    rw [hshown, hwidth, take_of_length_le]
    rw [(hholds v (mem_of_mem_selected hv)).length_eq, hs]

theorem tail_columns {items : List (Expr × Option String)} {idxs : List Nat}
    (hs : s.width = names.length) (hitems : Columns names items idxs) (hc : c < names.length)
    (hcols : stmt.core.body.columns = asItems items) (hgroup : stmt.core.body.group_by = none)
    (hhaving : stmt.core.having = none) :
    Tail E s stmt (layoutOps names idxs c) [keyPos idxs c] where
  accepts := by
    unfold layoutOps
    split
    · trivial
    · refine ⟨fun x hx => ?_, trivial⟩
      rw [hs]
      rcases mem_layout hx with hx | rfl
      · exact hitems.lt x hx
      · exact hc
  fresh := by
    unfold layoutOps
    split
    · exact fun op hop => absurd hop not_mem_nil
    · intro op hop
      rw [mem_singleton.mp hop]
      rfl
  keys_lt := by
    intro k hk
    rw [mem_singleton.mp hk]
    have hlt := keyPos_lt_layout idxs c
    unfold layoutOps
    split
    · next hall =>
      rw [hall, length_range, ← hs] at hlt
      exact hlt
    · exact hlt
  ranged := by
    intro table _
    unfold layoutOps
    split
    · trivial
    · exact ⟨trivial, trivial⟩
  right := by
    intro table _ hholds
    rw [all_rows_of_plain hcols hgroup hhaving (hitems.not_summarizes E)]
    have hwidth : stmt.core.body.width names = idxs.length := by
      unfold SelectBody.width
      rw [hcols, hitems.width_eq]
    -- with or without the operator, a row is taken to its layout
    have heval : evalAll (layoutOps names idxs c) (E.selected stmt.core.body table) =
        (E.selected stmt.core.body table).map (VRow.proj (layout idxs c)) := by
      unfold layoutOps
      split
      · next hall =>
        rw [hall]
        refine (Multiset.map_id' _).symm.trans (Multiset.map_congr rfl fun v hv => ?_)
        refine (proj_range ?_).symm
        rw [(hholds v (mem_of_mem_selected hv)).length_eq, hs]
      · rfl
    rw [heval, Multiset.map_map]
    refine Multiset.map_congr rfl fun v _ => ?_
    show ((VRow.proj (layout idxs c) v).take _) = _
    rw [hwidth, take_proj_layout, hitems.flatMap_row_column E]

theorem summary_of_plainCall {ints : Nat → Prop} (hcall : PlainCall env names ints call func)
    (hne : group ≠ 0)
    (hcounted : ∀ name e, call = .functionCall name (some [e]) → ∀ v ∈ group, E.value e v ≠ .null)
    (hints : ∀ i, ints i → ∀ v ∈ group, ∃ n, v.getD i .null = .int n) :
    E.summary false call group = .int (func.over group) := by
  cases hcall with
  | count_star h => exact E.summary_count_star _ _ h
  | count h => exact E.summary_count _ _ _ h (hcounted _ _ rfl)
  | @sum name e i h he hi =>
    have hint : ∀ v ∈ group, ∃ n, E.value e v = .int n := by
      intro v hv
      rw [E.value_column _ _ _ he]
      exact hints i hi v hv
    rw [E.summary_sum _ _ _ h hne hint]
    congr 2
    refine Multiset.map_congr rfl fun v _ => ?_
    rw [E.value_column _ _ _ he]

theorem groups_eq {idxs : List Nat} (hexprs : Columns names exprs idxs)
    (hgroup : stmt.core.body.group_by = some (exprs.map Prod.fst)) (table : Multiset VRow) :
    E.groups stmt.core.body table =
      ((E.selected stmt.core.body table).map (VRow.proj idxs)).dedup.map
        (groupOf idxs (E.selected stmt.core.body table)) := by
  have hkey : E.group_key (exprs.map Prod.fst) = VRow.proj idxs :=
    funext fun v => hexprs.group_key_eq E v
  unfold SqlMeaning.groups
  rw [hgroup]
  simp only [hkey]
  rfl

theorem kept_groups_eq {table : Multiset VRow} (hfit : Fitting E stmt table) :
    E.kept_groups stmt.core table = E.groups stmt.core.body table := by
  unfold SqlMeaning.kept_groups
  split
  · rfl
  · next e he => exact Multiset.filter_eq_self.mpr (hfit.having e he)

/-- The row that SQL shows of a group is that of the operator. -/
theorem group_row_eq {ints : Nat → Prop} {items : List (Expr × Option String)} {idxs : List Nat}
    (as_name : Option String) (hitems : Columns names items idxs)
    (hcall : PlainCall env names ints call func) {R : Multiset VRow} (hv : v ∈ R)
    (hcounted : ∀ name e, call = .functionCall name (some [e]) → ∀ v ∈ R, E.value e v ≠ .null)
    (hints : ∀ i, ints i → ∀ v ∈ R, ∃ n, v.getD i .null = .int n) :
    (asItems items ++ [ResultColumn.expr call as_name]).flatMap
        (E.group_column false (groupOf idxs R (VRow.proj idxs v))) =
      VRow.proj idxs v ++ [.int (func.over (groupOf idxs R (VRow.proj idxs v)))] := by
  have hne : groupOf idxs R (VRow.proj idxs v) ≠ 0 :=
    fun h => card_groupOf_ne_zero hv (Multiset.card_eq_zero.mpr h)
  have hmem : ∀ u ∈ groupOf idxs R (VRow.proj idxs v), u ∈ R :=
    fun u hu => Multiset.mem_of_mem_filter hu
  have hsame : ∀ i ∈ idxs, ∀ u ∈ groupOf idxs R (VRow.proj idxs v),
      u.getD i .null = v.getD i .null := by
    intro i hi u hu
    have hproj : VRow.proj idxs u = VRow.proj idxs v := (Multiset.mem_filter.mp hu).2
    exact map_inj_left.mp hproj i hi
  rw [flatMap_append, hitems.flatMap_group_column E false hne hsame]
  have hcallvalue : E.summary false call (groupOf idxs R (VRow.proj idxs v)) =
      .int (func.over (groupOf idxs R (VRow.proj idxs v))) :=
    summary_of_plainCall hcall hne
      (fun name e he u hu => hcounted name e he u (hmem u hu))
      fun i hi u hu => hints i hi u (hmem u hu)
  show _ ++ [E.summary false call _] = _
  rw [hcallvalue]

theorem tail_grouped {items : List (Expr × Option String)} {idxs : List Nat} {order : HashOrder}
    {keys : List Nat} (hs : s.width = names.length) (hitems : Columns names items idxs)
    (hexprs : Columns names exprs idxs)
    (hgroup : stmt.core.body.group_by = some (exprs.map Prod.fst))
    (hcall : PlainCall env names s.intCol call func) (hmodified : stmt.core.modified_calls = false)
    (hcols : stmt.core.body.columns = asItems items ++ [.expr call as_name])
    (hagg : extract_aggregate env stmt.core.body.columns names = some ⟨func, as_name.getD "agg"⟩)
    (hkeys : ∀ c ∈ keys, c < idxs.length + 1) :
    Tail E s stmt [.aggregate (.new order idxs func idxs)] keys where
  accepts := by
    refine ⟨⟨?_, fun c hc => ?_, fun c hc => ?_⟩, trivial⟩
    · cases hcall with
      | count_star => exact .inl rfl
      | count => exact .inl rfl
      | @sum name e i => exact .inr ⟨i, rfl⟩
    · rw [hs]
      exact hitems.lt c hc
    · cases hcall with
      | count_star => cases hc
      | count => cases hc
      | sum h he hi =>
        cases hc
        exact hi
  fresh := by
    intro op hop
    rw [mem_singleton.mp hop]
    rfl
  keys_lt := hkeys
  ranged := by
    intro table hfit
    refine ⟨?_, trivial⟩
    have hrange := hfit.in_range _ hagg
    rw [group_indices_eq hexprs hgroup] at hrange
    exact hrange
  right := by
    intro table hfit hholds
    have hwidth : stmt.core.body.width names = idxs.length + 1 := by
      unfold SelectBody.width
      rw [hcols, map_append, sum_append, hitems.width_eq]
      rfl
    unfold SqlMeaning.all_rows
    rw [if_pos (grouped_of_group_by hgroup), kept_groups_eq hfit, groups_eq hexprs hgroup,
      Multiset.map_map, hwidth, hmodified, hcols]
    show (groupAggregate idxs func (E.selected stmt.core.body table)).map _ = _
    rw [groupAggregate, Multiset.map_map]
    refine Multiset.map_congr rfl fun g hg => ?_
    obtain ⟨v, hv, rfl⟩ := Multiset.mem_map.mp (Multiset.mem_dedup.mp hg)
    have hrow := group_row_eq as_name hitems hcall hv
      (fun name e he => hfit.counted name e as_name (by rw [hcols, he]; simp))
      fun i hi u hu => (hholds u (mem_of_mem_selected hu)).integer i hi
    show List.take _ _ = List.flatMap _ _
    rw [hrow, take_of_length_le]
    · rfl
    · simp

end Tails

/-! ## The plan of a supported statement -/

section Plans

variable {env : SqlEnv} {names : List String} {E : SqlMeaning env names} {ints : Nat → Prop}
  {stmt : SelectStatement} {p : Plan} {idx : Nat}

theorem extract_aggregate_call (h : PlainCall env names ints call func) (as_name : Option String) :
    extract_aggregate env [.expr call as_name] names = some ⟨func, as_name.getD "agg"⟩ := by
  have hfunc : extract_aggregate_from_expr env call names = some func := by
    cases h with
    | count_star h => rw [extract_aggregate_from_expr, if_pos h]
    | count h => rw [extract_aggregate_from_expr, if_pos h]
    | @sum name e i h he hi =>
      have hne : ¬env.to_uppercase name = "COUNT" := by
        rw [h]
        decide
      have harg : first_arg_column (some [e]) names = i := by
        rw [first_arg_column, he]
        rfl
      rw [extract_aggregate_from_expr, if_neg hne, if_pos h, harg]
  rw [extract_aggregate, hfunc]

theorem aggregate_ops_none {body : SelectBody}
    (h : extract_aggregate env body.columns names = none) (idx : Nat) :
    aggregate_ops env idx body names = ([], names, false) := by
  simp only [aggregate_ops, h]

theorem projection_ops_all (hitem : item = .star ∨ ∃ t, item = .tableStar t)
    (hcols : stmt.core.body.columns = [item]) :
    projection_ops stmt.core.body false names =
      ([], extract_key_columns stmt.core.body.where_clause names) := by
  simp only [projection_ops, projectionPlan, hcols]
  rcases hitem with rfl | ⟨t, rfl⟩ <;> rfl

theorem projection_ops_columns (env : SqlEnv) {items : List (Expr × Option String)}
    {idxs : List Nat} (hne : items ≠ []) (hitems : Columns names items idxs)
    (hcols : stmt.core.body.columns = asItems items)
    (hkeys : extract_key_columns stmt.core.body.where_clause names = [c]) :
    projection_ops stmt.core.body false names =
      (layoutOps names idxs c, [keyPos idxs c]) := by
  obtain ⟨cols, hloop, rfl⟩ := hitems.projectionLoop_eq
  obtain ⟨-, hneeds⟩ := projectionLoop_plain env hloop
  have hsome : cols ≠ [] := by
    rintro rfl
    have hlen := hitems.length_eq
    exact hne (length_eq_zero_iff.mp hlen.symm)
  exact projection_ops_listed (hcols ▸ hloop) hsome hkeys (hcols ▸ hneeds)

/-- **The plan of a supported form** is a filter and operators that are right
    about the selected rows. -/
theorem tail_of_plan (hform : Form env names ints stmt.core)
    (hplan : plan env idx names stmt.core.body = .ok p) :
    ∃ filter tail, filter_ops env names stmt.core.body.where_clause = .ok filter ∧
      p.ops = filter ++ tail ∧ Tail E ⟨names.length, ints⟩ stmt tail p.key_columns := by
  obtain ⟨filter, hfilter, hplan⟩ := Outcome.bind_ok_iff.mp hplan
  cases hplan
  cases hform with
  | @all item hitem hcols hgroup hhaving =>
    have hagg : extract_aggregate env stmt.core.body.columns names = none := by
      rw [hcols]
      rcases hitem with rfl | ⟨t, rfl⟩ <;> rfl
    refine ⟨filter, [], hfilter, ?_, ?_⟩
    · simp only [aggregate_ops_none hagg, projection_ops_all hitem hcols, append_nil]
    · simp only [aggregate_ops_none hagg, projection_ops_all hitem hcols]
      exact tail_all rfl hitem hcols hgroup hhaving
  | @columns items idxs hne hitems hcols hgroup hhaving =>
    obtain ⟨cols, hloop, hidx⟩ := hitems.projectionLoop_eq
    have hagg : extract_aggregate env stmt.core.body.columns names = none := by
      rw [hcols]
      exact (projectionLoop_plain env hloop).1
    -- there is a column, so the view has one key column
    have hnames : names ≠ [] := by
      rintro rfl
      cases hitems with
      | nil => exact hne rfl
      | cons hi _ => exact absurd (get_column_index_lt hi) (Nat.not_lt_zero _)
    obtain ⟨c, hkeys, hc⟩ := extract_key_columns_one hnames stmt.core.body.where_clause
    have hproj := projection_ops_columns env hne hitems hcols hkeys
    refine ⟨filter, layoutOps names idxs c, hfilter, ?_, ?_⟩
    · simp only [aggregate_ops_none hagg, hproj, append_nil]
    · simp only [aggregate_ops_none hagg, hproj]
      exact tail_columns rfl hitems hc hcols hgroup hhaving
  | @grouped items exprs idxs call as_name func hne hitems hexprs hgroup hcall hmodified hcols =>
    have hagg : extract_aggregate env stmt.core.body.columns names =
        some ⟨func, as_name.getD "agg"⟩ := by
      rw [hcols, hitems.extract_aggregate_append, extract_aggregate_call hcall]
    have hidx : group_indices stmt.core.body names = idxs := group_indices_eq hexprs hgroup
    have hops : aggregate_ops env (idx + filter.length) stmt.core.body names =
        ([.aggregate (.new (env.hash_order (idx + filter.length)) idxs func idxs)],
          idxs.map (names.getD · "") ++ [as_name.getD "agg"], true) := by
      simp only [aggregate_ops, hagg, hidx]
    have hproj : ∀ columns, projection_ops stmt.core.body true columns =
        ([], extract_key_columns stmt.core.body.where_clause columns) := by
      intro columns
      simp only [projection_ops, projectionPlan, Bool.not_true, Bool.and_false, Bool.false_eq_true,
        if_false]
    refine ⟨filter, [.aggregate (.new (env.hash_order (idx + filter.length)) idxs func idxs)],
      hfilter, ?_, ?_⟩
    · simp only [hops, hproj, append_nil]
    · simp only [hops, hproj]
      refine tail_grouped rfl hitems hexprs hgroup hcall hmodified hcols hagg fun c hc => ?_
      have hlt := extract_key_columns_mem_lt hc
      rw [length_append, length_map] at hlt
      exact hlt

end Plans

end Noria.Sqlite

import Noria.Sqlite.Aggregate
import Noria.Sqlite.Coherence

/-! # Views with a group and an aggregate

  A view `SELECT g, COUNT(..) FROM t WHERE g = ? GROUP BY g`, or one with SUM. The aggregate of a
  group is kept twice: as counters in the operator, which only see changes, and as a row of the
  state, which an upquery can fill from SQLite. The two are in step for a group whose rows the
  operator has all seen. The rows of the other groups were there before the view; such a group may
  be filled, and then must not change.
-/

namespace Noria.Sqlite

open Bag List SqlConverter Option

/-! ## The rows of an aggregate by group -/

theorem proj_singleton (g : Nat) (v : VRow) : VRow.proj [g] v = [keyAt g v] := rfl

theorem rowsAt_groupAggregate (g : Nat) (func : AggregateFunc) (M : Multiset VRow) (x : Value) :
    rowsAt (keyAt 0) (groupAggregate [g] func M) x = groupRows [g] func M [x] := by
  unfold rowsAt groupAggregate
  rw [Multiset.filter_map]
  have hfilter : ((M.map (VRow.proj [g])).dedup.filter
      ((fun a => keyAt 0 a = x) ∘ fun y => y ++ [.int (func.over (M.filter fun v =>
        VRow.proj [g] v = y))])) = (M.map (VRow.proj [g])).dedup.filter (· = [x]) := by
    refine Multiset.filter_congr fun y hy => ?_
    obtain ⟨v, -, rfl⟩ := Multiset.mem_map.mp (Multiset.mem_dedup.mp hy)
    show keyAt g v = x ↔ [keyAt g v] = [x]
    simp
  rw [hfilter, Multiset.filter_eq']
  unfold groupRows
  by_cases hx : [x] ∈ M.map (VRow.proj [g])
  · rw [Multiset.count_eq_one_of_mem (Multiset.nodup_dedup _) (Multiset.mem_dedup.mpr hx)]
    obtain ⟨v, hv, hvx⟩ := Multiset.mem_map.mp hx
    have hne : (groupOf [g] M [x]).card ≠ 0 := by
      rw [← hvx]
      exact card_groupOf_ne_zero hv
    rw [if_neg hne]
    rfl
  · rw [Multiset.count_eq_zero_of_notMem (by rwa [Multiset.mem_dedup])]
    have hzero : groupOf [g] M [x] = 0 := by
      rw [groupOf, Multiset.filter_eq_nil]
      intro v hv hvx
      exact hx (hvx ▸ Multiset.mem_map_of_mem _ hv)
    rw [hzero]
    rfl

theorem groupOf_eq_rowsAt (g : Nat) (M : Multiset VRow) (x : Value) :
    groupOf [g] M [x] = rowsAt (keyAt g) M x := by
  refine Multiset.filter_congr fun v _ => ?_
  rw [proj_singleton]
  simp

/-! ## The queries -/

/-- The aggregates of a query, as SQL means them. -/
inductive SqlAggregate where
  | countAll
  | count (col : Nat)
  | sum (col : Nat)
  deriving DecidableEq

namespace SqlAggregate

/-- The function the converter takes it for. -/
def func : SqlAggregate → AggregateFunc
  | .countAll => .count
  | .count _ => .count
  | .sum col => .sum col

/-- The aggregate of a group: `COUNT(col)` does not count NULLs. -/
def of_rows (agg : SqlAggregate) (rows : Multiset VRow) : Int :=
  match agg with
  | .countAll => rows.card
  | .count col => (rows.filter fun v => v.getD col .null ≠ .null).card
  | .sum col => (rows.map fun v => (v.getD col .null).intOf).sum

/-- A row on which the two agree: no NULL is counted, and integers are added up. -/
def Plain (agg : SqlAggregate) (v : VRow) : Prop :=
  match agg with
  | .countAll => True
  | .count col => v.getD col .null ≠ .null
  | .sum col => ∃ n, v.getD col .null = .int n

theorem over_eq {agg : SqlAggregate} {rows : Multiset VRow} (h : ∀ v ∈ rows, agg.Plain v) :
    agg.of_rows rows = agg.func.over rows := by
  cases agg with
  | countAll => rfl
  | sum col => rfl
  | count col =>
    have hall : ∀ v ∈ rows, v.getD col .null ≠ .null := h
    show ((rows.filter fun v => v.getD col .null ≠ .null).card : Int) = rows.card
    rw [Multiset.filter_eq_self.mpr hall]

theorem counter_func (agg : SqlAggregate) : AggregateOp.Counter agg.func := by
  cases agg with
  | countAll => exact .inl rfl
  | count col => exact .inl rfl
  | sum col => exact .inr ⟨col, rfl⟩

/-- An expression of a select list stands for an aggregate. -/
inductive Denotes (env : SqlEnv) (names : List String) : Expr → SqlAggregate → Prop where
  | countAll {name : String} (hname : env.to_uppercase name = "COUNT") :
      Denotes env names (.functionCallStar name) .countAll
  | count {name : String} {e : Expr} {col : Nat} (hname : env.to_uppercase name = "COUNT")
      (hcol : get_column_index_from_expr e names = some col) :
      Denotes env names (.functionCall name (some [e])) (.count col)
  | sum {name : String} {e : Expr} {col : Nat} (hname : env.to_uppercase name = "SUM")
      (hcol : get_column_index_from_expr e names = some col) :
      Denotes env names (.functionCall name (some [e])) (.sum col)

theorem Denotes.extract {env : SqlEnv} {names : List String} {e : Expr} {agg : SqlAggregate}
    (h : Denotes env names e agg) : extract_aggregate_from_expr env e names = some agg.func := by
  cases h with
  | countAll hname => simp [extract_aggregate_from_expr, hname, func]
  | count hname hcol => simp [extract_aggregate_from_expr, hname, func]
  | sum hname hcol => simp [extract_aggregate_from_expr, hname, func, first_arg_column, hcol]

end SqlAggregate

/-- `SELECT g, AGG(..) FROM t WHERE g = ? GROUP BY g`. The alias of the
    aggregate does not hide the group column from the WHERE clause. -/
structure GroupedSelect (env : SqlEnv) (body : SelectBody) (table : String)
    (names : List String) (g : Nat) (agg : SqlAggregate) : Prop where
  one_table : SqlConverter.OneTable body table
  columns : ∃ e as_g fe as_name left v,
    body.columns = [.expr e as_g, .expr fe as_name] ∧
    get_column_index_from_expr e names = some g ∧ SqlAggregate.Denotes env names fe agg ∧
    body.where_clause = some (.binary left .equals (.variable v)) ∧
    get_column_index_from_expr left names = some g ∧
    get_column_index_from_expr left [names.getD g "", as_name.getD "agg"] = some 0
  group_by : ∃ e, body.group_by = some [e] ∧ get_column_index_from_expr e names = some g

/-- The operators of such a view. -/
def groupOps (names : List String) (op : AggregateOp) : List OperatorType :=
  [.filter ⟨.alwaysTrue, names.length, [0]⟩, .aggregate op]

theorem GroupedSelect.group_lt {env : SqlEnv} {body : SelectBody} {table : String}
    {names : List String} {g : Nat} {agg : SqlAggregate}
    (h : GroupedSelect env body table names g agg) : g < names.length := by
  obtain ⟨e, -, he⟩ := h.group_by
  exact get_column_index_lt he

/-- **The plan of a view with a group and an aggregate.** -/
theorem GroupedSelect.plan_eq {env : SqlEnv} {body : SelectBody} {table : String}
    {names : List String} {g : Nat} {agg : SqlAggregate}
    (h : GroupedSelect env body table names g agg) (idx : Nat) :
    SqlConverter.plan env idx names body
      = .ok ⟨groupOps names (.new (env.hash_order (idx + 1)) [g] agg.func [g]), [0]⟩ := by
  obtain ⟨e, as_g, fe, as_name, left, v, hcols, he, hfe, hwhere, hleft, hkey⟩ := h.columns
  obtain ⟨e', hgroup, he'⟩ := h.group_by
  have hfilter : filter_ops env names body.where_clause
      = .ok [.filter ⟨.alwaysTrue, names.length, [0]⟩] := by
    simp only [filter_ops, hwhere, convert_expr_to_filter, convert_comparison, hleft,
      Outcome.ok_bind]
  have hnone : extract_aggregate_from_expr env e names = none := by
    rcases column_cases he with ⟨name, rfl⟩ | ⟨table, col, rfl⟩ <;> rfl
  have hindices : group_indices body names = [g] := by
    simp only [group_indices, hgroup, filterMap_cons, he', filterMap_nil]
  have hagg : aggregate_ops env (idx + 1) body names
      = ([.aggregate (.new (env.hash_order (idx + 1)) [g] agg.func [g])],
        [names.getD g "", as_name.getD "agg"], true) := by
    simp only [aggregate_ops, hcols, extract_aggregate, hnone, hfe.extract, hindices,
      map_cons, map_nil, singleton_append]
  have hproj : projection_ops body true [names.getD g "", as_name.getD "agg"]
      = ([], [0]) := by
    simp only [projection_ops, projectionPlan, Bool.not_true, Bool.and_false, Bool.false_eq_true,
      if_false, extract_key_columns, hwhere, bind_some, extract_equality_column, hkey]
  simp only [SqlConverter.plan, hfilter, Outcome.ok_bind, length_singleton, hagg, hproj]
  rfl

/-! ## The way down -/

section Flow

variable {op : AggregateOp} {st : MemoryState} (names : List String)

theorem flow_groupOps {op' : AggregateOp} {records results : Records}
    (hne : records.isEmpty = false) {needed : List (List DataType)}
    (hproc : op.process records = some (op', ⟨results, needed⟩)) :
    flow (groupOps names op) st records
      = (st.process_records results).map fun st' => (groupOps names op', st') := by
  have hagg : OperatorType.process (.aggregate op) 0 records none
      = some (.aggregate op', ⟨results, needed⟩) := by
    simp only [OperatorType.process, hproc, Option.map_some]
  unfold groupOps
  rw [flow_cons hne (process_alwaysTrue _ _), flow_cons hne hagg, flow_end, Option.map_map,
    Option.map_map]
  rfl

/-- **A record of a group that the operator knows** moves the rows it has
    emitted, beside rows that were filled. -/
theorem flow_known {M M' filled : Multiset VRow} {record : Record}
    (hf : AggregateOp.Counter op.func) (hreads : op.Reads record.row)
    (hM : InRange op.group_by op.func M) (hM' : InRange op.group_by op.func M')
    (htracks : op.Tracks M) (happ : Applies M [record.change] M') (hok : st.Ok)
    (hkeys : st.key_columns = [0])
    (hbag : st.bag = groupAggregate op.group_by op.func M + filled) :
    ∃ op' st', flow (groupOps names op) st [record] = some (groupOps names op', st') ∧
      op'.group_by = op.group_by ∧ op'.func = op.func ∧ op'.Tracks M' ∧ st'.Ok ∧
      st'.key_columns = [0] ∧ st'.bag = groupAggregate op.group_by op.func M' + filled := by
  have hread : ∀ r ∈ [record], op.Reads r.row := by simpa using hreads
  obtain ⟨state', results, hproc, hstate, hrows, happ'⟩ :=
    AggregateOp.process_shown hread hM hM' htracks happ
  rw [AggregateOp.shown_eq_over hf] at happ'
  have hlen : ∀ r ∈ results, ∀ c ∈ st.key_columns, c < r.row.length := by
    intro r hr c hc
    obtain ⟨-, -, key, -, x, hx⟩ := hrows r hr
    rw [hkeys, mem_singleton] at hc
    rw [hx, hc, length_append]
    exact Nat.lt_of_lt_of_le Nat.one_pos (Nat.le_add_left _ _)
  obtain ⟨st', hst', hkeys', hok', hbag'⟩ := st.process_records_bag hok hlen
    (by rw [hbag]; exact happ'.add_right filled)
  refine ⟨{ op with internal_state := state', calls := op.calls + 1 }, st', ?_, rfl, rfl, hstate,
    hok', hkeys'.trans hkeys, hbag'⟩
  rw [flow_groupOps names rfl hproc, hst']
  rfl

/-- A row of a group without counters is deleted: the counters fall below
    zero and are dropped, and nothing is emitted. -/
theorem flow_unknown {row : Row} {key : StateKey} {delta : Int64}
    (hkey : StateKey.from_row row op.group_by = some key)
    (hvalue : AggregateOp.value_delta op.func (.negative row) = some delta)
    (hnone : op.internal_state.get? key = none) :
    ∃ op', flow (groupOps names op) st [.negative row] = some (groupOps names op', st) ∧
      op'.group_by = op.group_by ∧ op'.func = op.func ∧
      ∀ k, op'.internal_state.get? k = op.internal_state.get? k := by
  have hchange : AggregateOp.changeGroup op ∅ (.negative row)
      = some ((∅ : AssocMap StateKey (Int64 × Int64)).insert key (0 + -1, 0 + delta)) := by
    simp only [AggregateOp.changeGroup, Record.row_negative, hkey, hvalue, bind_eq_bind,
      bind_some, AssocMap.get?_empty, getD_none]
    rfl
  -- One group changes, so there is only one order to visit it in.
  have horder : (op.order op.calls [(key, ((0 : Int64) + -1, 0 + delta))]).val
      = [(key, (0 + -1, 0 + delta))] := perm_singleton.mp (op.order op.calls _).property
  have hemit : AggregateOp.emitGroup op.func (op.internal_state, []) (key, (0 + -1, 0 + delta))
      = ((op.internal_state.insert key ⟨0 + (0 + -1), 0 + (0 + delta)⟩).erase key, []) := by
    simp only [AggregateOp.emitGroup, hnone, getD_none]
    rfl
  refine ⟨{ op with
    internal_state := (op.internal_state.insert key ⟨0 + (0 + -1), 0 + (0 + delta)⟩).erase key
    calls := op.calls + 1 }, ?_, rfl, rfl, fun k => ?_⟩
  · have hproc : op.process [.negative row] = some ({ op with
        internal_state := (op.internal_state.insert key ⟨0 + (0 + -1), 0 + (0 + delta)⟩).erase key
        calls := op.calls + 1 }, ⟨[], []⟩) := by
      simp only [AggregateOp.process, foldlM_cons, foldlM_nil, hchange,
        Option.bind_eq_bind, Option.bind_some, Option.pure_def]
      have hentries : ((∅ : AssocMap StateKey (Int64 × Int64)).insert key
          (0 + -1, 0 + delta)).entries = [(key, (0 + -1, 0 + delta))] := rfl
      rw [hentries, horder, foldl_cons, foldl_nil, hemit]
    rw [flow_groupOps names rfl hproc]
    rfl
  · rw [AssocMap.get?_erase, AssocMap.get?_insert]
    split
    · rename_i hk
      rw [← op.internal_state.get?_congr hk, hnone]
    · rfl

end Flow

/-! ## A table, an engine and a view with groups -/

/-- A view `SELECT g, AGG(..) FROM t WHERE g = ? GROUP BY g`. -/
structure GroupSite (F : Type) extends Setting F where
  g : Nat
  agg : SqlAggregate

namespace GroupSite

variable {F : Type} (site : GroupSite F)

def content (rows : Multiset (SqliteRow F)) : Multiset VRow :=
  rows.map (SqliteRow.values site.venv)

def matching (rows : Multiset (SqliteRow F)) (p : SqliteValue F) : Multiset (SqliteRow F) :=
  rows.filter fun s => site.equal (s.getD site.g .null) p = true

/-- SQLite's answer to the query of the view: no row for no match, else the
    group value and the aggregate. -/
def Answers (rows : Multiset (SqliteRow F)) (p : SqliteValue F) (answer : List (SqliteRow F)) :
    Prop :=
  (site.matching rows p = 0 ∧ answer = []) ∨
  ∃ s ∈ site.matching rows p, ∃ n : Int64,
    n.toInt = site.agg.of_rows (site.content (site.matching rows p)) ∧
    answer = [[s.getD site.g .null, .integer n]]

/-- SQLite evaluates the query of the view correctly. -/
def Evaluates (w : Deployment F) (conn : Connection F) (key : DataType) : Prop :=
  ∃ stmt p answer, conn.prepare site.view.sql = .ok stmt ∧ stmt.column_count = 2 ∧
    0 < stmt.parameter_count ∧ bind_value site.venv key = some p ∧ stmt.run [p] = .ok answer ∧
    site.Answers w.rows p answer

/-- The calls that can be made: rows are inserted and deleted, and groups are looked up. -/
def Valid (w : Deployment F) : Call F → Prop
  | .insert stored row => site.Exact stored row
  | .delete stored row => stored ∈ w.rows ∧ site.Exact stored row
  | .update _ _ _ _ => False
  | .lookup conn key => site.Evaluates w conn key

/-- How many rows of the group of `row` the operator of the view counts. -/
def counted (w : Deployment F) (row : Row) : Int64 :=
  match w.engine.adapter.executor.nodes[site.view.handle.node]?.bind Node.operator,
      row[site.g]? with
  | some (.aggregate op), some d =>
    ((op.internal_state.get? (.single d)).map AggregateGroupState.count).getD 0
  | _, _ => 0

/-- The operator has seen all rows of the group of `row`. -/
def Knows (w : Deployment F) (row : Row) : Prop :=
  (site.counted w row).toInt
    = (rowsAt (keyAt site.g) (site.content w.rows) (keyAt site.g (Row.val row))).card

/-- The view has no row for the group of `row`. -/
def Missed (w : Deployment F) (row : Row) : Prop :=
  ∃ d, row[site.g]? = some d ∧ w.engine.lookup site.view [d] = some none

/-- A row the aggregate reads as SQL does. The summed column is passed as an `Int` or a `BigInt`. -/
structure Readable (row : Row) : Prop where
  plain : site.agg.Plain (Row.val row)
  integer : ∀ col, site.agg = .sum col → ∃ d, row[col]? = some d ∧ d.is_integer = true

/-- The calls that keep one right row per group. A row is inserted into a group that the operator
    knows, and deleted from such a group or from one that the view has no row for; a group is looked
    up for which SQLite and the engine agree; and counts and sums stay `i64`s. -/
def Careful [DecidableEq F] (w : Deployment F) : Call F → Prop
  | .insert stored row => site.Readable row ∧ site.Knows w row ∧
      InRange [site.g] site.agg.func (site.content (stored ::ₘ w.rows))
  | .delete stored row => site.Readable row ∧ (site.Knows w row ∨ site.Missed w row) ∧
      InRange [site.g] site.agg.func (site.content (w.rows.erase stored))
  | .update _ _ _ _ => True
  | .lookup _ key => ∀ p, bind_value site.venv key = some p → ∀ s ∈ w.rows,
      (site.equal (s.getD site.g .null) p = true ↔
        (s.getD site.g .null).value site.venv = key.val)

/-- **One row per group**: of every group value the state has no row, or
    the one with the aggregate of the group. -/
def OneRow (w : Deployment F) (st : MemoryState) : Prop :=
  ∀ x, rowsAt (keyAt 0) st.bag x = 0 ∨
    rowsAt (keyAt 0) st.bag x
      = {[x, .int (site.agg.of_rows (rowsAt (keyAt site.g) (site.content w.rows) x))]}

/-! ## The invariant -/

/-- The table is made of the rows `known`, which the operator has seen, and
    the rows `other`; no group has rows of both. The state has the rows the
    operator has emitted, and rows for some of the other groups. -/
structure Tracked (w : Deployment F) (op : AggregateOp) (st : MemoryState)
    (known other filled : Multiset VRow) : Prop where
  stored : ∀ s ∈ w.rows, site.Stored s
  plain : ∀ v ∈ site.content w.rows, site.agg.Plain v
  serves : w.engine.Serves site.table site.view (groupOps site.names op) st
  group_by : op.group_by = [site.g]
  func : op.func = site.agg.func
  ok : st.Ok
  keys : st.key_columns = [0]
  split : site.content w.rows = known + other
  apart : ∀ v ∈ known, ∀ u ∈ other, keyAt site.g v ≠ keyAt site.g u
  tracks : op.Tracks known
  range : InRange [site.g] site.agg.func known
  bag : st.bag = groupAggregate [site.g] site.agg.func known + filled
  filled : Filled (keyAt 0) (groupAggregate [site.g] site.agg.func other) filled

variable {site} {w : Deployment F} {op : AggregateOp} {st : MemoryState}
  {known other filled : Multiset VRow}

/-- Two contents without a common group. -/
def Apart (g : Nat) (M N : Multiset VRow) : Prop := ∀ v ∈ M, ∀ u ∈ N, keyAt g v ≠ keyAt g u

theorem Apart.rowsAt_right {g : Nat} {M N : Multiset VRow} (h : Apart g M N) {x : Value}
    (hx : rowsAt (keyAt g) M x ≠ 0) : rowsAt (keyAt g) N x = 0 := by
  obtain ⟨v, hmem⟩ := Multiset.exists_mem_of_ne_zero hx
  obtain ⟨hv, rfl⟩ := mem_rowsAt.mp hmem
  rw [rowsAt, Multiset.filter_eq_nil]
  intro u hu heq
  exact h v hv u hu heq.symm

theorem Apart.inRange {g : Nat} {func : AggregateFunc} {M N : Multiset VRow} (h : Apart g M N)
    (hrange : InRange [g] func (M + N)) : InRange [g] func M := by
  intro y
  by_cases hy : groupOf [g] M y = 0
  · have htotal : func.total 0 = 0 := rfl
    rw [hy, htotal]
    decide
  · -- the group has rows of one part only
    obtain ⟨v, hgroup⟩ := Multiset.exists_mem_of_ne_zero hy
    obtain ⟨hv, rfl⟩ := Multiset.mem_filter.mp hgroup
    have hnone : groupOf [g] N (VRow.proj [g] v) = 0 := by
      rw [proj_singleton, groupOf_eq_rowsAt]
      refine h.rowsAt_right fun hzero => ?_
      have hmem : v ∈ rowsAt (keyAt g) M (keyAt g v) := mem_rowsAt.mpr ⟨hv, rfl⟩
      rw [hzero] at hmem
      exact Multiset.notMem_zero v hmem
    have hgroup := hrange (VRow.proj [g] v)
    rwa [groupOf, Multiset.filter_add, ← groupOf, ← groupOf, hnone, add_zero] at hgroup

theorem groupRows_eq_zero {g : Nat} {func : AggregateFunc} {M : Multiset VRow} {x : Value}
    (h : rowsAt (keyAt g) M x = 0) : groupRows [g] func M [x] = 0 := by
  rw [groupRows, groupOf_eq_rowsAt, h]
  rfl

theorem groupRows_eq_singleton {g : Nat} {func : AggregateFunc} {M : Multiset VRow} {x : Value}
    (h : rowsAt (keyAt g) M x ≠ 0) :
    groupRows [g] func M [x] = {[x, .int (func.over (rowsAt (keyAt g) M x))]} := by
  rw [groupRows, groupOf_eq_rowsAt, if_neg fun hcard => h (Multiset.card_eq_zero.mp hcard)]
  rfl

theorem keyAt_of_getElem? {row : Row} {g : Nat} {d : DataType} (hd : row[g]? = some d) :
    keyAt g (Row.val row) = d.val := Row.val_getD row g hd

theorem keyAt_ne_of_rowsAt {g : Nat} {M : Multiset VRow} {x : Value}
    (h : rowsAt (keyAt g) M x = 0) : ∀ u ∈ M, keyAt g u ≠ x := by
  intro u hu heq
  have hmem : u ∈ rowsAt (keyAt g) M x := mem_rowsAt.mpr ⟨hu, heq⟩
  rw [h] at hmem
  exact Multiset.notMem_zero u hmem

theorem content_cons {s : SqliteRow F} {row : Row} (hexact : site.Exact s row)
    (rows : Multiset (SqliteRow F)) :
    site.content (s ::ₘ rows) = Row.val row ::ₘ site.content rows := by
  rw [content, Multiset.map_cons, ← hexact.val_eq]
  rfl

theorem content_erase [DecidableEq F] {s : SqliteRow F} {row : Row} (hexact : site.Exact s row)
    {rows : Multiset (SqliteRow F)} (hmem : s ∈ rows) :
    site.content rows = Row.val row ::ₘ site.content (rows.erase s) := by
  rw [← content_cons hexact, Multiset.cons_erase hmem]

theorem content_matching {key : DataType} {p : SqliteValue F}
    (hagree : ∀ s ∈ w.rows, (site.equal (s.getD site.g .null) p = true ↔
      (s.getD site.g .null).value site.venv = key.val)) :
    site.content (site.matching w.rows p) =
      rowsAt (keyAt site.g) (site.content w.rows) key.val := by
  rw [content, content, rowsAt, Multiset.filter_map, matching]
  congr 1
  refine Multiset.filter_congr fun s hs => ?_
  rw [hagree s hs, Function.comp_apply, keyAt, SqliteRow.getD_values]

/-- The view is the one that the query was turned into. -/
structure Fits (site : GroupSite F) (env : SqlEnv) (body : SelectBody) : Prop where
  grouped : GroupedSelect env body site.table site.names site.g site.agg
  view_keys : site.view.handle.key_columns = [0]

/-! ### The counters of the operator -/

namespace Tracked

variable (h : site.Tracked w op st known other filled)
include h

theorem operator :
    w.engine.adapter.executor.nodes[site.view.handle.node]?.bind Node.operator
      = some (.aggregate op) := by
  obtain ⟨b, -, hline⟩ := h.serves.line
  cases hline with
  | next _ _ _ _ _ _ _ rest =>
    cases rest with
    | next _ _ _ _ hm hop _ rest =>
      cases rest with
      | last hn =>
        rw [hm, bind_some, hop]

theorem counted_eq {row : Row} {d : DataType} (hd : row[site.g]? = some d) :
    (site.counted w row).toInt = (rowsAt (keyAt site.g) known d.val).card := by
  have hget : op.internal_state.get? (.single d)
      = AggregateOp.counters [site.g] site.agg.func known [d.val] := by
    rw [h.tracks (.single d), h.group_by, h.func]
    rfl
  simp only [counted, h.operator, hd, hget, AggregateOp.counters, groupOf_eq_rowsAt]
  split
  · rename_i hzero
    rw [hzero]
    rfl
  · have hrange := (h.range [d.val]).1
    rw [groupOf_eq_rowsAt] at hrange
    exact Int64.toInt_ofInt_of_le (by omega) hrange

/-- The operator knows a group exactly if no other rows have it. -/
theorem knows_iff {row : Row} {d : DataType} (hd : row[site.g]? = some d) :
    site.Knows w row ↔ rowsAt (keyAt site.g) other d.val = 0 := by
  rw [Knows, h.counted_eq hd, keyAt_of_getElem? hd, h.split, rowsAt_add, Multiset.card_add,
    ← Multiset.card_eq_zero]
  omega

/-! ### What the state has for a group -/

theorem rowsAt_bag (x : Value) :
    rowsAt (keyAt 0) st.bag x
      = groupRows [site.g] site.agg.func known [x] + rowsAt (keyAt 0) filled x := by
  rw [h.bag, rowsAt_add, rowsAt_groupAggregate]

theorem rowsAt_filled (x : Value) :
    rowsAt (keyAt 0) filled x = 0 ∨
      rowsAt (keyAt 0) filled x = groupRows [site.g] site.agg.func other [x] := by
  rw [← rowsAt_groupAggregate]
  exact h.filled x

/-- **The invariant gives one right row per group.** -/
theorem oneRow : site.OneRow w st := by
  intro x
  have hplain : ∀ M : Multiset VRow, (∀ v ∈ M, v ∈ site.content w.rows) →
      site.agg.of_rows (rowsAt (keyAt site.g) M x)
        = site.agg.func.over (rowsAt (keyAt site.g) M x) := by
    intro M hM
    exact SqlAggregate.over_eq fun v hv => h.plain v (hM v (mem_rowsAt.mp hv).1)
  have hcontent : rowsAt (keyAt site.g) (site.content w.rows) x
      = rowsAt (keyAt site.g) known x + rowsAt (keyAt site.g) other x := by
    rw [h.split, rowsAt_add]
  rw [h.rowsAt_bag, hcontent]
  by_cases hx : rowsAt (keyAt site.g) known x = 0
  · rw [groupRows_eq_zero hx, zero_add, hx, zero_add]
    rcases h.rowsAt_filled x with hzero | hrow
    · exact .inl hzero
    · by_cases hy : rowsAt (keyAt site.g) other x = 0
      · rw [groupRows_eq_zero hy] at hrow
        exact .inl hrow
      · rw [hrow, groupRows_eq_singleton hy, hplain other fun v hv => by
          rw [h.split]
          exact Multiset.mem_add.mpr (.inr hv)]
        exact .inr rfl
  · have hother : rowsAt (keyAt site.g) other x = 0 := Apart.rowsAt_right h.apart hx
    have hfilled : rowsAt (keyAt 0) filled x = 0 := by
      rcases h.rowsAt_filled x with hzero | hrow
      · exact hzero
      · rwa [groupRows_eq_zero hother] at hrow
    right
    rw [hother, hfilled, add_zero, add_zero, groupRows_eq_singleton hx, hplain known fun v hv => by
      rw [h.split]
      exact Multiset.mem_add.mpr (.inl hv)]

/-! ## The steps -/

theorem reads {row : Row} (hlen : row.length = site.names.length)
    (hg : site.g < site.names.length) (hread : site.Readable row) :
    op.Reads row ∧ ∃ d, row[site.g]? = some d := by
  have hlt : site.g < row.length := hlen.symm ▸ hg
  refine ⟨⟨?_, ?_⟩, row[site.g], getElem?_eq_getElem hlt⟩
  · intro c hc
    rw [h.group_by, mem_singleton] at hc
    rw [hc]
    exact hlt
  · intro c hc
    rw [h.func] at hc
    cases hagg : site.agg with
    | countAll =>
      rw [hagg] at hc
      cases hc
    | count col =>
      rw [hagg] at hc
      cases hc
    | sum col =>
      rw [hagg] at hc
      cases hc
      exact hread.integer c hagg

theorem flow_known (record : Record) {known' : Multiset VRow} (hreads : op.Reads record.row)
    (happ : Applies known [record.change] known') (hrange : InRange [site.g] site.agg.func known') :
    ∃ op' st', flow (groupOps site.names op) st [record] = some (groupOps site.names op', st') ∧
      op'.group_by = op.group_by ∧ op'.func = op.func ∧ op'.Tracks known' ∧ st'.Ok ∧
      st'.key_columns = [0] ∧ st'.bag = groupAggregate [site.g] site.agg.func known' + filled := by
  have hcounter : AggregateOp.Counter op.func := h.func.symm ▸ site.agg.counter_func
  have hbefore : InRange op.group_by op.func known := by
    rw [h.group_by, h.func]
    exact h.range
  have hafter : InRange op.group_by op.func known' := by
    rw [h.group_by, h.func]
    exact hrange
  have hbag : st.bag = groupAggregate op.group_by op.func known + filled := by
    rw [h.group_by, h.func]
    exact h.bag
  have hlaw := Sqlite.flow_known site.names hcounter hreads hbefore hafter h.tracks happ h.ok
    h.keys hbag
  rwa [h.group_by, h.func] at hlaw ⊢

theorem insert (hg : site.g < site.names.length) {s : SqliteRow F} {row : Row}
    (hexact : site.Exact s row) (hread : site.Readable row) (hknows : site.Knows w row)
    (hrange : InRange [site.g] site.agg.func (site.content (s ::ₘ w.rows))) :
    ∃ eng' op' st', w.engine.apply_insert_row site.table row = some eng' ∧
      site.Tracked ⟨s ::ₘ w.rows, eng'⟩ op' st' (Row.val row ::ₘ known) other filled := by
  obtain ⟨hreads, d, hd⟩ := h.reads hexact.length_eq hg hread
  have hcontent := content_cons hexact w.rows
  have hother := keyAt_ne_of_rowsAt ((h.knows_iff hd).mp hknows)
  have hapart : Apart site.g (Row.val row ::ₘ known) other := by
    intro v hv u hu
    rcases Multiset.mem_cons.mp hv with rfl | hv
    · rw [keyAt_of_getElem? hd]
      exact (hother u hu).symm
    · exact h.apart v hv u hu
  have hsplit : site.content (s ::ₘ w.rows) = (Row.val row ::ₘ known) + other := by
    rw [hcontent, h.split, Multiset.cons_add]
  have hrange' : InRange [site.g] site.agg.func (Row.val row ::ₘ known) :=
    hapart.inRange (hsplit ▸ hrange)
  have happ : Applies known [(Record.positive row).change] (Row.val row ::ₘ known) := by
    rw [Record.change_positive, Applies.ins_iff, Applies.nil_iff]
  obtain ⟨op', st', hflow, hgroup, hfunc, htracks, hok, hkeys, hbag⟩ :=
    h.flow_known (.positive row) hreads happ hrange'
  have hrec : SqliteAdapter.changeRecords .insert (some row) none = some [.positive row] := rfl
  obtain ⟨eng', heng, hserves⟩ := h.serves.handle_change hrec hflow
  have hstored := Multiset.forall_mem_cons.mpr ⟨hexact.stored, h.stored⟩
  have hplain := Multiset.forall_mem_cons.mpr ⟨hread.plain, h.plain⟩
  exact ⟨eng', op', st', heng, hstored, hcontent.symm ▸ hplain, hserves, hgroup.trans h.group_by,
    hfunc.trans h.func, hok, hkeys, hsplit, hapart, htracks, hrange', hbag, h.filled⟩

/-- A row of the table is a known one or one of the others; without it, the table is still one of
    plain rows. -/
theorem erase [DecidableEq F] {s : SqliteRow F} {row : Row} (hmem : s ∈ w.rows)
    (hexact : site.Exact s row) : (Row.val row ∈ known ∨ Row.val row ∈ other) ∧
      (∀ s' ∈ w.rows.erase s, site.Stored s') ∧
      ∀ v ∈ site.content (w.rows.erase s), site.agg.Plain v := by
  have hcontent := content_erase hexact hmem
  refine ⟨?_, fun s' hs' => h.stored s' (Multiset.mem_of_mem_erase hs'), fun v hv => h.plain v ?_⟩
  · rw [← Multiset.mem_add, ← h.split, hcontent]
    exact Multiset.mem_cons_self _ _
  · rw [hcontent]
    exact Multiset.mem_cons_of_mem hv

theorem delete_known [DecidableEq F] (hg : site.g < site.names.length) {s : SqliteRow F}
    {row : Row} (hmem : s ∈ w.rows) (hexact : site.Exact s row) (hread : site.Readable row)
    (hknows : site.Knows w row)
    (hrange : InRange [site.g] site.agg.func (site.content (w.rows.erase s))) :
    ∃ eng' op' st' known', w.engine.apply_delete site.table row = some eng' ∧
      site.Tracked ⟨w.rows.erase s, eng'⟩ op' st' known' other filled := by
  obtain ⟨hreads, d, hd⟩ := h.reads hexact.length_eq hg hread
  have hcontent := content_erase hexact hmem
  obtain ⟨hin, hstored, hplain⟩ := h.erase hmem hexact
  have hother := keyAt_ne_of_rowsAt ((h.knows_iff hd).mp hknows)
  -- the row is a known one
  have hrow : Row.val row ∈ known :=
    hin.resolve_right fun hin => hother _ hin (keyAt_of_getElem? hd)
  obtain ⟨known', rfl⟩ := Multiset.exists_cons_of_mem hrow
  have hapart : Apart site.g known' other :=
    fun v hv u hu => h.apart v (Multiset.mem_cons_of_mem hv) u hu
  have hsplit : site.content (w.rows.erase s) = known' + other := by
    have hboth := hcontent.symm.trans h.split
    rw [Multiset.cons_add] at hboth
    exact (Multiset.cons_inj_right _).mp hboth
  have hrange' : InRange [site.g] site.agg.func known' := hapart.inRange (hsplit ▸ hrange)
  have happ : Applies (Row.val row ::ₘ known') [(Record.negative row).change] known' := by
    rw [Record.change_negative, Applies.del_iff]
    exact ⟨known', rfl, Applies.nil_iff.mpr rfl⟩
  obtain ⟨op', st', hflow, hgroup, hfunc, htracks, hok, hkeys, hbag⟩ :=
    h.flow_known (.negative row) hreads happ hrange'
  have hrec : SqliteAdapter.changeRecords .delete none (some row) = some [.negative row] := rfl
  obtain ⟨eng', heng, hserves⟩ := h.serves.handle_change hrec hflow
  exact ⟨eng', op', st', known', heng, hstored, hplain, hserves, hgroup.trans h.group_by,
    hfunc.trans h.func, hok, hkeys, hsplit, hapart, htracks, hrange', hbag, h.filled⟩

/-- The view has no row for a group: the operator does not know it, and it is not filled. -/
theorem unfilled {x : Value} (hzero : rowsAt (keyAt 0) st.bag x = 0) :
    rowsAt (keyAt site.g) known x = 0 ∧ rowsAt (keyAt 0) filled x = 0 := by
  rw [h.rowsAt_bag] at hzero
  have hfilled : rowsAt (keyAt 0) filled x = 0 :=
    Multiset.le_zero.mp (hzero ▸ Multiset.le_add_left _ _)
  refine ⟨?_, hfilled⟩
  by_contra hx
  rw [groupRows_eq_singleton hx, hfilled, add_zero] at hzero
  exact Multiset.singleton_ne_zero _ hzero

theorem delete_missed [DecidableEq F] (hg : site.g < site.names.length) {s : SqliteRow F}
    {row : Row} (hmem : s ∈ w.rows) (hexact : site.Exact s row) (hread : site.Readable row)
    (hmissed : site.Missed w row) :
    ∃ eng' op' st' other', w.engine.apply_delete site.table row = some eng' ∧
      site.Tracked ⟨w.rows.erase s, eng'⟩ op' st' known other' filled := by
  obtain ⟨hreads, d, hd⟩ := h.reads hexact.length_eq hg hread
  have hcontent := content_erase hexact hmem
  obtain ⟨hin, hstored, hplain⟩ := h.erase hmem hexact
  have hzero : rowsAt (keyAt 0) st.bag d.val = 0 := by
    obtain ⟨d', hd', hlook⟩ := hmissed
    rw [hd] at hd'
    cases hd'
    rcases st.lookup_single h.ok h.keys d with ⟨hzero, -⟩ | ⟨-, rows, hrows, -⟩
    · exact hzero
    · rw [h.serves.lookup, hrows] at hlook
      cases hlook
  obtain ⟨hknown, hfilled⟩ := h.unfilled hzero
  -- the row is one of the others
  have hrow : Row.val row ∈ other :=
    hin.resolve_left fun hin => keyAt_ne_of_rowsAt hknown _ hin (keyAt_of_getElem? hd)
  obtain ⟨other', rfl⟩ := Multiset.exists_cons_of_mem hrow
  have hsplit : site.content (w.rows.erase s) = known + other' := by
    have hboth := hcontent.symm.trans h.split
    rw [Multiset.add_cons] at hboth
    exact (Multiset.cons_inj_right _).mp hboth
  have hkey : StateKey.from_row row op.group_by = some (.single d) := by
    rw [h.group_by, StateKey.from_row]
    simp [hd]
  have hnone : op.internal_state.get? (.single d) = none := by
    rw [h.tracks, h.group_by, AggregateOp.counters]
    refine if_pos ?_
    show (groupOf [site.g] known [d.val]).card = 0
    rw [groupOf_eq_rowsAt, hknown]
    rfl
  have hvalue := AggregateOp.value_delta_eq (show op.Reads (Record.negative row).row from hreads)
  obtain ⟨op', hflow, hgroup, hfunc, hget⟩ := flow_unknown site.names hkey hvalue hnone
  have hrec : SqliteAdapter.changeRecords .delete none (some row) = some [.negative row] := rfl
  obtain ⟨eng', heng, hserves⟩ := h.serves.handle_change hrec hflow
  refine ⟨eng', op', st, other', heng, hstored, hplain, hserves, hgroup.trans h.group_by,
    hfunc.trans h.func, h.ok, h.keys, hsplit, ?_, ?_, h.range, h.bag, ?_⟩
  · exact fun v hv u hu => h.apart v hv u (Multiset.mem_cons_of_mem hu)
  · intro k
    rw [hget, h.tracks, hgroup, hfunc]
  · intro x
    by_cases hx : x = d.val
    · rw [hx]
      exact .inl hfilled
    · -- the other groups have the rows they had
      have hsame : rowsAt (keyAt site.g) (Row.val row ::ₘ other') x
          = rowsAt (keyAt site.g) other' x := by
        refine rowsAt_cons_ne ?_
        rw [keyAt_of_getElem? hd]
        exact Ne.symm hx
      have hrows := h.filled x
      rw [rowsAt_groupAggregate, groupRows, groupOf_eq_rowsAt, hsame] at hrows
      rw [rowsAt_groupAggregate, groupRows, groupOf_eq_rowsAt]
      exact hrows

/-! ### Lookups -/

theorem miss (hview : site.view.handle.key_columns = [0]) {conn : Connection F}
    {key : DataType} (heval : site.Evaluates w conn key)
    (hagree : ∀ p, bind_value site.venv key = some p → ∀ s ∈ w.rows,
      (site.equal (s.getD site.g .null) p = true ↔
        (s.getD site.g .null).value site.venv = key.val))
    (hmiss : st.lookup [key] = .missing) (hzero : rowsAt (keyAt 0) st.bag key.val = 0) :
    ∃ rows eng' st' filled', w.engine.lookup_or_upquery site.venv conn site.view [key]
        = .ok (rows, eng') ∧ site.Tracked ⟨w.rows, eng'⟩ op st' known other filled' := by
  obtain ⟨stmt, p, answer, hprep, hcols, hparams, hp, hrun, hanswers⟩ := heval
  have hbind : NoriaEngine.bind_key site.venv stmt 0 [key] = .ok [p] := by
    simp only [NoriaEngine.bind_key, hp, Outcome.ofOption, Outcome.ok_bind, hparams, if_true]
  rcases hanswers with ⟨-, rfl⟩ | ⟨s, hs, n, hn, rfl⟩
  · -- no row of the table has the key
    have hresult : (([] : List (SqliteRow F)).mapM fun row => row.mapM (·.to_datatype site.venv))
        = some ([] : List Row) := rfl
    obtain ⟨eng', heng, hserves⟩ := h.serves.miss hmiss hprep hbind hrun hresult rfl
    exact ⟨[], eng', st, filled, heng, { h with serves := hserves }⟩
  · obtain ⟨hin, hequal⟩ := Multiset.mem_filter.mp hs
    have hkey := (hagree p hp s hin).mp hequal
    -- the row of the answer is converted, and enters the state as it is
    obtain ⟨d, hd, hval⟩ : ∃ d, (s.getD site.g .null).to_datatype site.venv = some d ∧
        d.val = key.val := by
      have hconv := (h.stored s hin).convertible.select [site.g] _ (mem_singleton_self _)
      obtain ⟨d, hd⟩ := isSome_iff_exists.mp hconv
      refine ⟨d, hd, ?_⟩
      rw [← hkey, SqliteValue.value, hd]
      rfl
    have hresult : ([[s.getD site.g .null, SqliteValue.integer n]].mapM
        fun row => row.mapM (·.to_datatype site.venv)) = some [[d, .bigInt n]] := by
      have hint : (SqliteValue.integer n : SqliteValue F).to_datatype site.venv
          = some (.bigInt n) := rfl
      simp only [mapM_cons, mapM_nil, hd, hint, Option.bind_eq_bind, Option.bind_some,
        Option.pure_def]
    have hpos : ∀ row ∈ [([d, .bigInt n] : Row)], 0 < row.length := by simp
    obtain ⟨st', hst', hok', hkeys', hbag'⟩ := st.process_records_ins h.ok h.keys hpos
    have hwidth : site.view.handle.key_columns.any (stmt.column_count ≤ ·) = false := by
      rw [hview, hcols]
      rfl
    obtain ⟨eng', heng, hserves⟩ := h.serves.miss hmiss hprep hbind hrun hresult
      (by rw [hwidth]; exact hst')
    -- it is the row of a group that the operator does not know
    obtain ⟨hknown, hfilled⟩ := h.unfilled hzero
    have hgroup : rowsAt (keyAt site.g) (site.content w.rows) key.val
        = rowsAt (keyAt site.g) other key.val := by
      rw [h.split, rowsAt_add, hknown, zero_add]
    have hne : rowsAt (keyAt site.g) other key.val ≠ 0 := by
      intro hempty
      have hmem : SqliteRow.values site.venv s ∈ site.content (site.matching w.rows p) :=
        Multiset.mem_map_of_mem _ hs
      rw [content_matching (hagree p hp), hgroup, hempty] at hmem
      exact Multiset.notMem_zero _ hmem
    have hover : n.toInt = site.agg.func.over (rowsAt (keyAt site.g) other key.val) := by
      rw [hn, content_matching (hagree p hp), hgroup]
      refine SqlAggregate.over_eq fun v hv => h.plain v ?_
      rw [h.split]
      exact Multiset.mem_add.mpr (.inr (mem_rowsAt.mp hv).1)
    have hrow : ((([([d, .bigInt n] : Row)].map Row.val : List VRow)) : Multiset VRow)
        = rowsAt (keyAt 0) (groupAggregate [site.g] site.agg.func other) key.val := by
      rw [rowsAt_groupAggregate, groupRows_eq_singleton hne, ← hover, ← hval]
      rfl
    refine ⟨[[d, .bigInt n]], eng', st', filled + _, heng, { h with
      serves := hserves
      ok := hok'
      keys := hkeys'
      bag := ?_
      filled := h.filled.fill hfilled }⟩
    rw [hbag', hrow, h.bag, add_assoc]

/-! ## Careful runs -/

/-- **A careful call succeeds and keeps the invariant.** -/
theorem step [DecidableEq F] {env : SqlEnv} {body : SelectBody} (hfit : site.Fits env body)
    {call : Call F} (hvalid : site.Valid w call) (hcareful : site.Careful w call) :
    ∃ w' out op' st' known' other' filled', site.perform w call = .ok (w', out) ∧
      site.Tracked w' op' st' known' other' filled' := by
  have hg := hfit.grouped.group_lt
  cases call with
  | insert s row =>
    obtain ⟨hread, hknows, hrange⟩ := hcareful
    obtain ⟨eng', op', st', heng, h'⟩ := h.insert hg hvalid hread hknows hrange
    refine ⟨_, none, op', st', _, _, _, ?_, h'⟩
    simp only [Setting.perform, heng, Outcome.ofOption, Outcome.ok_bind]
  | delete s row =>
    obtain ⟨hmem, hexact⟩ := hvalid
    obtain ⟨hread, hknows | hmissed, hrange⟩ := hcareful
    · obtain ⟨eng', op', st', known', heng, h'⟩ := h.delete_known hg hmem hexact hread hknows hrange
      refine ⟨_, none, op', st', _, _, _, ?_, h'⟩
      simp only [Setting.perform, heng, Outcome.ofOption, Outcome.ok_bind]
    · obtain ⟨eng', op', st', other', heng, h'⟩ := h.delete_missed hg hmem hexact hread hmissed
      refine ⟨_, none, op', st', _, _, _, ?_, h'⟩
      simp only [Setting.perform, heng, Outcome.ofOption, Outcome.ok_bind]
  | update old old_row new new_row => exact hvalid.elim
  | lookup conn key =>
    rcases st.lookup_single h.ok h.keys key with ⟨hzero, hmiss⟩ | ⟨-, rows, hlook, -⟩
    · obtain ⟨rows, eng', st', filled', heng, h'⟩ :=
        h.miss hfit.view_keys hvalid hcareful hmiss hzero
      refine ⟨_, some rows, op, st', _, _, _, ?_, h'⟩
      simp only [Setting.perform, heng, Outcome.ok_bind]
    · refine ⟨w, some rows, op, st, _, _, _, ?_, h⟩
      simp only [Setting.perform, h.serves.hit hlook, Outcome.ok_bind]

end Tracked

/-- A view that was just created: the operator knows nothing, and the state is empty. -/
theorem tracked_of_create {env : SqlEnv} {body : SelectBody} {sql : String}
    {eng₀ eng : NoriaEngine} {rows : Multiset (SqliteRow F)}
    (hreg : eng₀.Registered site.table site.names)
    (hparse : env.parse sql = .ok (some (.select (.select body))))
    (hgrouped : GroupedSelect env body site.table site.names site.g site.agg)
    (hview : NoriaEngine.create_view env sql eng₀ = (.ok site.view, eng))
    (hrows : ∀ s ∈ rows, site.Stored s)
    (hplain : ∀ v ∈ site.content rows, site.agg.Plain v) :
    site.Fits env body ∧ ∃ op, site.Tracked ⟨rows, eng⟩ op (.new [0]) 0 (site.content rows) 0 := by
  obtain ⟨p, hplan, hkeys, -, hserves⟩ :=
    NoriaEngine.create_view_serves hreg hparse hgrouped.one_table hview
  rw [hgrouped.plan_eq] at hplan
  cases hplan
  have hrange : InRange [site.g] site.agg.func 0 := by
    intro y
    have htotal : site.agg.func.total 0 = 0 := rfl
    rw [groupOf, Multiset.filter_zero, htotal]
    decide
  refine ⟨⟨hgrouped, hkeys⟩, _, hrows, hplain, hserves, rfl, rfl, MemoryState.ok_new _, rfl,
    (zero_add _).symm, ?_, AggregateOp.tracks_new _ _ _ _, hrange, rfl, Filled.zero⟩
  exact fun v hv => absurd hv (Multiset.notMem_zero v)

/-- **One right row per group in careful runs.** Whatever rows the table has when the view is
    created, after any run of careful calls every further careful call succeeds, and the state of
    the view has for every group no row, or the one with the aggregate of the group's rows. -/
theorem one_row_per_group_in_careful_runs [DecidableEq F] {env : SqlEnv} {body : SelectBody}
    {sql : String} {eng₀ eng : NoriaEngine} {rows : Multiset (SqliteRow F)}
    (hreg : eng₀.Registered site.table site.names)
    (hparse : env.parse sql = .ok (some (.select (.select body))))
    (hgrouped : GroupedSelect env body site.table site.names site.g site.agg)
    (hview : NoriaEngine.create_view env sql eng₀ = (.ok site.view, eng))
    (hrows : ∀ s ∈ rows, site.Stored s)
    (hplain : ∀ v ∈ site.content rows, site.agg.Plain v)
    (hrun : site.Run (fun w call => site.Valid w call ∧ site.Careful w call) ⟨rows, eng⟩ w) :
    (∃ st, w.engine.adapter.executor.stateOf site.view.handle.node = some st ∧
      site.OneRow w st) ∧
    ∀ call, site.Valid w call → site.Careful w call →
      ∃ w' out, site.perform w call = .ok (w', out) := by
  obtain ⟨hfit, op, hstart⟩ := tracked_of_create hreg hparse hgrouped hview hrows hplain
  obtain ⟨op, st, known, other, filled, h⟩ :
      ∃ op st known other filled, site.Tracked w op st known other filled := by
    refine hrun.invariant
      (I := fun w => ∃ op st known other filled, site.Tracked w op st known other filled)
      ⟨op, _, _, _, _, hstart⟩ ?_
    rintro w call ⟨op, st, known, other, filled, h⟩ ⟨hvalid, hcareful⟩
    obtain ⟨w', out, op', st', known', other', filled', hperf, h'⟩ := h.step hfit hvalid hcareful
    exact ⟨w', out, hperf, op', st', known', other', filled', h'⟩
  refine ⟨⟨st, h.serves.stateOf, h.oneRow⟩, fun call hvalid hcareful => ?_⟩
  obtain ⟨w', out, op', st', known', other', filled', hperf, -⟩ := h.step hfit hvalid hcareful
  exact ⟨w', out, hperf⟩

/-! ## A group that was there before the view -/

/-- `SELECT g, COUNT(*) FROM t WHERE g = ? GROUP BY g`. -/
def countByGroup : SelectBody :=
  ⟨[.expr (.id "g") none, .expr (.functionCallStar "COUNT") none],
    some ⟨some (.table "t" none), none⟩,
    some (.binary (.id "g") .equals (.variable "?")), some [.id "g"]⟩

def countSite : GroupSite Unit where
  venv := Site.integerEnv
  equal := fun a b => a ≠ .null ∧ a = b
  table := "t"
  names := ["id", "g"]
  view := ⟨⟨2, [0]⟩, "SELECT g, COUNT(*) FROM t WHERE g = ? GROUP BY g"⟩
  g := 1
  agg := .countAll

def countEngine : NoriaEngine :=
  (NoriaEngine.create_view (LocalExecutor.queryEnv countByGroup)
    "SELECT g, COUNT(*) FROM t WHERE g = ? GROUP BY g"
    (NoriaEngine.new.register_table_schema "t" ["id", "g"])).2

/-- The table has a row of group 5 before the view is there. -/
def countStart : Deployment Unit := ⟨{Site.storedPair 1 5}, countEngine⟩

theorem countSite_grouped : GroupedSelect (LocalExecutor.queryEnv countByGroup) countByGroup
    "t" ["id", "g"] 1 .countAll where
  one_table := ⟨none, none, rfl, rfl⟩
  columns := ⟨.id "g", none, .functionCallStar "COUNT", none, .id "g", "?", rfl, rfl,
    .countAll rfl, rfl, rfl, rfl⟩
  group_by := ⟨.id "g", rfl, rfl⟩

theorem countSite_exact (id g : Int64) :
    countSite.Exact (Site.storedPair id g) (Site.passedPair id g) :=
  ⟨⟨rfl, (Site.groupSite_exact id g).stored.convertible⟩, rfl⟩

def countEngine₁ : NoriaEngine :=
  (countEngine.apply_insert_row "t" (Site.passedPair 2 7)).getD .new

/-- A row of a new group is inserted: one row for group 7, and none yet for group 5. -/
theorem new_group_has_one_row :
    let w : Deployment Unit := ⟨Site.storedPair 2 7 ::ₘ countStart.rows, countEngine₁⟩
    countSite.Run (fun w call => countSite.Valid w call ∧ countSite.Careful w call) countStart w ∧
      ∃ st, w.engine.adapter.executor.stateOf 2 = some st ∧ countSite.OneRow w st := by
  intro w
  have hrange : InRange [1] .count
      (countSite.content (Site.storedPair 2 7 ::ₘ countStart.rows)) := by
    intro y
    have hcard : (groupOf [1] (countSite.content (Site.storedPair 2 7 ::ₘ countStart.rows)) y).card
        ≤ 2 := Multiset.card_le_card (Multiset.filter_le _ _)
    have htotal : AggregateFunc.total .count
        (groupOf [1] (countSite.content (Site.storedPair 2 7 ::ₘ countStart.rows)) y) = 0 := by
      refine Multiset.sum_eq_zero fun n hn => ?_
      obtain ⟨v, -, rfl⟩ := Multiset.mem_map.mp hn
      rfl
    omega
  have hknows : countSite.Knows countStart (Site.passedPair 2 7) := by
    show (countSite.counted countStart (Site.passedPair 2 7)).toInt = _
    decide
  have hvalid : countSite.Valid countStart
      (.insert (Site.storedPair 2 7) (Site.passedPair 2 7)) := countSite_exact 2 7
  have hcareful : countSite.Careful countStart
      (.insert (Site.storedPair 2 7) (Site.passedPair 2 7)) := ⟨⟨trivial, nofun⟩, hknows, hrange⟩
  have hrun : countSite.Run (fun w call => countSite.Valid w call ∧ countSite.Careful w call)
      countStart w := .step .start ⟨hvalid, hcareful⟩ (show _ = Outcome.ok (_, none) from rfl)
  have hview : NoriaEngine.create_view (LocalExecutor.queryEnv countByGroup)
      "SELECT g, COUNT(*) FROM t WHERE g = ? GROUP BY g"
      (NoriaEngine.new.register_table_schema "t" ["id", "g"])
      = (.ok countSite.view, countEngine) := rfl
  have hstored : ∀ s ∈ countStart.rows, countSite.Stored s := by
    intro s hs
    rw [Multiset.mem_singleton.mp hs]
    exact (countSite_exact 1 5).stored
  exact ⟨hrun, (one_row_per_group_in_careful_runs (NoriaEngine.registered_new "t" ["id", "g"]) rfl
    countSite_grouped hview hstored (fun _ _ => trivial) hrun).1⟩

/-- SQLite, counting one row of group 5. -/
def answeringCount : Connection Unit :=
  ⟨fun _ => .ok ⟨2, 1, fun _ => .ok [[.integer 5, .integer 1]]⟩⟩

/-- The engine after group 5 has been looked up, and after the second row is inserted then. -/
def countEngine₂ : NoriaEngine :=
  match countEngine.lookup_or_upquery Site.integerEnv answeringCount countSite.view
      [.bigInt 5] with
  | .ok p => p.2
  | _ => .new

def countEngine₃ : NoriaEngine :=
  (countEngine₂.apply_insert_row "t" (Site.passedPair 2 5)).getD .new

/-- **Two rows for one group.** The group is filled with the count 1 of SQLite; the operator has
    never seen its row, and takes the next one for the first. -/
theorem group_counted_twice :
    let w₁ : Deployment Unit := ⟨countStart.rows, countEngine₂⟩
    let w₂ : Deployment Unit := ⟨Site.storedPair 2 5 ::ₘ countStart.rows, countEngine₃⟩
    countSite.Valid countStart (.lookup answeringCount (.bigInt 5)) ∧
      countSite.perform countStart (.lookup answeringCount (.bigInt 5))
        = .ok (w₁, some [[.bigInt 5, .bigInt 1]]) ∧
      countSite.Valid w₁ (.insert (Site.storedPair 2 5) (Site.passedPair 2 5)) ∧
      countSite.perform w₁ (.insert (Site.storedPair 2 5) (Site.passedPair 2 5)) = .ok (w₂, none) ∧
      ∃ st, w₂.engine.adapter.executor.stateOf 2 = some st ∧
        rowsAt (keyAt 0) st.bag (.int 5) = {[.int 5, .int 1], [.int 5, .int 1]} ∧
        ¬countSite.OneRow w₂ st := by
  intro w₁ w₂
  refine ⟨?_, rfl, countSite_exact 2 5, rfl, _, rfl, ?_, ?_⟩
  · refine ⟨⟨2, 1, fun _ => .ok [[.integer 5, .integer 1]]⟩, .integer 5, [[.integer 5, .integer 1]],
      rfl, rfl, Nat.one_pos, rfl, rfl, .inr ⟨Site.storedPair 1 5, by decide, 1, by decide, rfl⟩⟩
  · decide
  · intro hone
    rcases hone (.int 5) with hzero | hsingle
    · revert hzero
      decide
    · have hcard := congrArg Multiset.card hsingle
      revert hcard
      decide

end GroupSite

end Noria.Sqlite

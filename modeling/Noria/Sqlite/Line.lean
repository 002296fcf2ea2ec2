import Noria.Sqlite.Build

/-! # Views over one table

  A `SELECT` over one table is built as a line: the base node, a filter,
  an aggregate and a projection below one another, as far as the query
  has them, and the state of the view at the last node.

  `Line` describes such a part of the graph, `flow` is what a batch of records does on its way down,
  and `propagate_line` says that propagation through the graph is `flow`. `plan` is the list of
  operators a query is turned into; `build_select_line` says that building the graph lays out the
  plan.
-/

namespace Noria.Sqlite

open List Option Keeping

variable {op' : OperatorType} {output : ProcessingResult} {body : SelectBody} {records : Records}
  {table : String} {op : OperatorType} {schema : TableSchema}

/-! ## Lines of operators -/

/-- From node `i` to node `v` runs a line of operators `ops`; `state` is
    the state of `v`, and the nodes before it have none. -/
inductive LocalExecutor.Line (ex : LocalExecutor) :
    Nat → List OperatorType → Nat → Option MemoryState → Prop where
  | last {i : Nat} {n : Node} {state : Option MemoryState} (hn : ex.nodes[i]? = some n)
      (hstate : n.state = state) (hchildren : n.children = []) : Line ex i [] i state
  | next {i c v : Nat} {n m : Node} {op : OperatorType} {ops : List OperatorType}
      {state : Option MemoryState} (hn : ex.nodes[i]? = some n) (hstate : n.state = none)
      (hchildren : n.children = [c]) (hlt : i < c) (hm : ex.nodes[c]? = some m)
      (hop : m.operator = some op) (hparents : m.parents = [i]) (rest : Line ex c ops v state) :
      Line ex i (op :: ops) v state

/-- Operators with one parent. -/
def OperatorType.unary : OperatorType → Bool
  | .join _ => false
  | _ => true

theorem OperatorType.process_unary (h : op.unary = true) (parent : Nat) (records : Records)
    (state : Option StateSnapshot) :
    op.process parent records state = op.process 0 records none := by
  cases op with
  | join op => cases h
  | filter op => rfl
  | project op => rfl
  | aggregate op => rfl
  | identity op => rfl

def flow : List OperatorType → MemoryState → Records → Option (List OperatorType × MemoryState)
  | [], st, records => do
    let st' ← st.process_records records
    some ([], st')
  | op :: ops, st, records =>
    if records.isEmpty then some (op :: ops, st)
    else do
      let (op', output) ← op.process 0 records none
      let (ops', st') ← flow ops st output.results
      some (op' :: ops', st')

theorem flow_nil (ops : List OperatorType) (st : MemoryState) :
    flow ops st [] = some (ops, st) := by
  cases ops <;> rfl

theorem flow_end (st : MemoryState) (records : Records) :
    flow [] st records = (st.process_records records).map fun st' => ([], st') := by
  unfold flow
  cases st.process_records records <;> rfl

/-- One operator of the line, on a batch that is not empty. -/
theorem flow_cons (hne : records.isEmpty = false)
    (hproc : op.process 0 records none = some (op', output)) (ops : List OperatorType)
    (st : MemoryState) :
    flow (op :: ops) st records = (flow ops st output.results).map fun p => (op' :: p.1, p.2) := by
  simp only [flow, hne, Bool.false_eq_true, if_false, hproc, bind_eq_bind, bind_some]
  cases flow ops st output.results <;> rfl

theorem OperatorType.unary_shape (op : OperatorType) : op.shape.unary = op.unary := by
  cases op <;> rfl

theorem flow_unary {ops ops' : List OperatorType} {st st' : MemoryState}
    (h : flow ops st records = some (ops', st')) (hunary : ∀ op ∈ ops, op.unary = true) :
    ∀ op ∈ ops', op.unary = true := by
  induction ops generalizing records ops' with
  | nil =>
    simp only [flow, bind_eq_bind, bind_eq_some_iff, Option.some.injEq,
      Prod.mk.injEq] at h
    obtain ⟨_, -, rfl, -⟩ := h
    simp
  | cons op ops ih =>
    simp only [flow] at h
    split at h
    · cases h
      exact hunary
    · simp only [bind_eq_bind, bind_eq_some_iff, Option.some.injEq,
        Prod.mk.injEq] at h
      obtain ⟨⟨op', output⟩, hproc, ⟨ops₁, st₁⟩, hrest, rfl, rfl⟩ := h
      have hop : op'.unary = true := by
        rw [← op'.unary_shape, OperatorType.process_shape hproc, op.unary_shape]
        exact hunary op mem_cons_self
      have hops := ih hrest (forall_mem_cons.mp hunary).2
      intro o ho
      rcases mem_cons.mp ho with rfl | ho
      · exact hop
      · exact hops o ho

namespace LocalExecutor

namespace Line

variable {ex ex' : LocalExecutor} {i v : Nat} {ops : List OperatorType}
  {state : Option MemoryState}

theorem length_le (h : ex.Line i ops v state) : i + ops.length ≤ v := by
  induction h with
  | last _ _ _ => simp
  | next _ _ _ hlt _ _ _ _ ih =>
    rw [length_cons]
    omega

theorem node (h : ex.Line i ops v state) : ∃ n, ex.nodes[v]? = some n ∧ n.state = state := by
  induction h with
  | last hn hstate _ => exact ⟨_, hn, hstate⟩
  | next _ _ _ _ _ _ _ _ ih => exact ih

theorem lt_length (h : ex.Line i ops v state) : v < ex.nodes.length := by
  obtain ⟨n, hn, -⟩ := h.node
  exact (List.getElem?_eq_some_iff.mp hn).1

/-- A line only depends on what comes after its first node, and on the
    state and the children of that. -/
theorem congr (h : ex.Line i ops v state)
    (hi : ∀ n, ex.nodes[i]? = some n →
      ∃ n', ex'.nodes[i]? = some n' ∧ n'.state = n.state ∧ n'.children = n.children)
    (hgt : ∀ j, i < j → ex'.nodes[j]? = ex.nodes[j]?) : ex'.Line i ops v state := by
  induction h with
  | last hn hstate hchildren =>
    obtain ⟨n', hn', hs, hc⟩ := hi _ hn
    exact .last hn' (hs.trans hstate) (hc.trans hchildren)
  | next hn hstate hchildren hlt hm hop hparents _ ih =>
    obtain ⟨n', hn', hs, hc⟩ := hi _ hn
    have hm' := (hgt _ hlt).trans hm
    refine .next hn' (hs.trans hstate) (hc.trans hchildren) hlt hm' hop hparents (ih ?_ ?_)
    · intro n hn
      exact ⟨n, (hgt _ hlt).trans hn, rfl, rfl⟩
    · intro j hj
      exact hgt j (Nat.lt_trans hlt hj)

theorem setState (h : ex.Line i ops v state) (st : MemoryState) :
    (ex.setState v st).Line i ops v (some st) := by
  induction h with
  | @last i n _ hn _ hchildren =>
    have hset : (ex.setState i st).nodes[i]? = some { n with state := some st } := by
      rw [nodes_setState, if_pos rfl, hn]
      rfl
    exact .last hset rfl hchildren
  | @next i c v n m op ops _ hn hstate hchildren hlt hm hop hparents rest ih =>
    have hle := rest.length_le
    have hn' : (ex.setState v st).nodes[i]? = some n := by
      rw [nodes_setState, if_neg (by omega), hn]
    -- The next node is the last one or it is untouched; its operator and
    -- parents are the same in both cases.
    obtain ⟨m', hm', hop', hparents'⟩ : ∃ m', (ex.setState v st).nodes[c]? = some m' ∧
        m'.operator = some op ∧ m'.parents = [i] := by
      rw [nodes_setState, hm]
      split
      · exact ⟨_, rfl, hop, hparents⟩
      · exact ⟨_, rfl, hop, hparents⟩
    exact .next hn' hstate hchildren hlt hm' hop' hparents' ih

end Line

/-! ## Propagation -/

variable {ex ex' : LocalExecutor} {i v : Nat} {ops ops' : List OperatorType}
  {st st' : MemoryState}

theorem processChild_line {c : Nat} {m : Node} (hm : ex.nodes[c]? = some m)
    (hop : m.operator = some op) (hparents : m.parents = [i]) (hunary : op.unary = true)
    (hproc : op.process 0 records none = some (op', output)) :
    ex.processChild i c records = some (ex.setOperator c op', output.results) := by
  have hidx : (m.parents.findIdx? (· == i)).getD 0 = 0 := by
    rw [hparents]
    simp
  have hstate : ex.state_for_op m 0 = some (m.state.map MemoryState.snapshot) := by
    unfold state_for_op
    rw [hparents]
    rfl
  unfold processChild
  simp only [hm, hidx, hstate, hop, op.process_unary hunary, hproc, bind_eq_bind,
    bind_some]

/-- **Propagation along a line is `flow`**, and it leaves what is not below the first node alone. -/
theorem propagate_line (h : ex.Line i ops v (some st)) (hunary : ∀ op ∈ ops, op.unary = true)
    {fuel : Nat} (hfuel : ops.length < fuel) (hflow : flow ops st records = some (ops', st')) :
    ∃ ex', ex.propagate fuel i records = some ex' ∧ ex'.Line i ops' v (some st') ∧
      (∀ j, j < i → ex'.nodes[j]? = ex.nodes[j]?) ∧
      ex'.nodes[i]?.map Node.operator = ex.nodes[i]?.map Node.operator := by
  induction ops generalizing ex i fuel records ops' with
  | nil =>
    obtain ⟨fuel, rfl⟩ : ∃ k, fuel = k + 1 := ⟨fuel - 1, by simp at hfuel; omega⟩
    obtain @⟨_, n, _, hn, hstate, hchildren⟩ := h
    simp only [flow, bind_eq_bind, bind_eq_some_iff, Option.some.injEq,
      Prod.mk.injEq] at hflow
    obtain ⟨st₁, hst₁, rfl, rfl⟩ := hflow
    cases records with
    | nil =>
      cases hst₁
      exact ⟨ex, rfl, .last hn hstate hchildren, fun _ _ => rfl, rfl⟩
    | cons r rs =>
      have hset : (ex.setState v st₁).nodes[v]? = some { n with state := some st₁ } := by
        rw [nodes_setState, if_pos rfl, hn]
        rfl
      refine ⟨ex.setState v st₁, ?_, .last hset rfl hchildren, fun j hj => ?_, ?_⟩
      · simp only [propagate, isEmpty_cons, Bool.false_eq_true, if_false, updateState, hn,
          hstate, hst₁, hchildren, foldlM_nil, Option.bind_eq_bind, Option.bind_some,
          Option.pure_def]
      · rw [nodes_setState, if_neg (Nat.ne_of_gt hj)]
      · rw [hset, hn]
        rfl
  | cons op ops ih =>
    obtain ⟨fuel, rfl⟩ : ∃ k, fuel = k + 1 := ⟨fuel - 1, by omega⟩
    obtain _ | @⟨_, c, _, n, m, _, _, _, hn, hstate, hchildren, hlt, hm, hop, hparents, rest⟩ := h
    cases records with
    | nil =>
      cases hflow
      exact ⟨ex, rfl, .next hn hstate hchildren hlt hm hop hparents rest, fun _ _ => rfl, rfl⟩
    | cons r rs =>
      simp only [flow, isEmpty_cons, Bool.false_eq_true, if_false, bind_eq_bind,
        bind_eq_some_iff, Option.some.injEq, Prod.mk.injEq] at hflow
      obtain ⟨⟨op', output⟩, hproc, ⟨ops₁, st₁⟩, hrest, rfl, rfl⟩ := hflow
      have hchild := processChild_line hm hop hparents (hunary op mem_cons_self) hproc
      -- The operator of the next node changes; the line from there on does not.
      have hset : (ex.setOperator c op').nodes[c]? = some { m with operator := some op' } := by
        rw [nodes_setOperator, if_pos rfl, hm]
        rfl
      have hline : (ex.setOperator c op').Line c ops v (some st) := by
        refine rest.congr (fun k hk => ?_) fun j hj => ?_
        · rw [hm] at hk
          cases hk
          exact ⟨_, hset, rfl, rfl⟩
        · rw [nodes_setOperator, if_neg (Nat.ne_of_lt hj)]
      obtain ⟨ex', hprop, hline', hbefore, hoper⟩ := ih hline
        (forall_mem_cons.mp hunary).2 (Nat.lt_of_succ_lt_succ hfuel) hrest
      have hi : ex'.nodes[i]? = some n := by
        rw [hbefore i hlt, nodes_setOperator, if_neg (Nat.ne_of_gt hlt), hn]
      -- The node with the new operator keeps it, and its parent, on the way down.
      obtain ⟨m', hm', hop'⟩ : ∃ m', ex'.nodes[c]? = some m' ∧ m'.operator = some op' := by
        rw [hset] at hoper
        exact map_eq_some_iff.mp hoper
      have hparents' : m'.parents = [i] := by
        have := (propagate_frame hprop).1.parents_eq c
        rw [parents, parents, hm', hset] at this
        exact this.trans hparents
      refine ⟨ex', ?_, .next hi hstate hchildren hlt hm' hop' hparents' hline', fun j hj => ?_, ?_⟩
      · simp only [propagate, isEmpty_cons, Bool.false_eq_true, if_false, updateState, hn,
          hstate, hchildren, foldlM_cons, foldlM_nil, hchild, hprop,
          Option.bind_eq_bind, Option.bind_some, Option.pure_def]
      · rw [hbefore j (Nat.lt_trans hj hlt), nodes_setOperator,
          if_neg (Nat.ne_of_gt (Nat.lt_trans hj hlt))]
      · rw [hi, hn]

theorem Line.apply_write_line (h : ex.Line i ops v (some st)) (hunary : ∀ op ∈ ops, op.unary = true)
    (hbase : ex.base_tables.get? table = some i) (hflow : flow ops st records = some (ops', st')) :
    ∃ ex', ex.apply_write table records = some ex' ∧ ex'.Line i ops' v (some st') ∧
      ex'.base_tables = ex.base_tables := by
  have hfuel : ops.length < ex.nodes.length := by
    have := h.length_le
    have := h.lt_length
    omega
  obtain ⟨ex', hprop, hline, -, -⟩ := propagate_line h hunary hfuel hflow
  have happly : ex.apply_write table records = some ex' := by
    unfold apply_write
    rw [hbase]
    exact hprop
  exact ⟨ex', happly, hline, (apply_write_sameShape happly).tables⟩

theorem Line.lookup_line (h : ex.Line i ops v (some st)) (keys : List Nat) (key : List DataType) :
    ex.lookup ⟨v, keys⟩ key = some (match st.lookup key with
        | .some rows => some rows
        | .empty => some []
        | .missing => none) := by
  obtain ⟨n, hn, hstate⟩ := h.node
  unfold LocalExecutor.lookup
  simp only [hn, hstate, bind_eq_bind, bind_some]
  cases st.lookup key <;> rfl

theorem Line.inject_line (h : ex.Line i ops v (some st)) (keys : List Nat)
    (hproc : st.process_records records = some st') :
    ∃ ex', ex.inject_into_view ⟨v, keys⟩ records = some ex' ∧ ex'.Line i ops v (some st') ∧
      ex'.base_tables = ex.base_tables := by
  obtain ⟨n, hn, hstate⟩ := h.node
  refine ⟨ex.setState v st', ?_, h.setState st', rfl⟩
  unfold inject_into_view updateState
  simp only [hn, hstate, hproc, bind_eq_bind, bind_some]

/-! ## Building a line -/

/-- An operator added below the last node makes the line longer. -/
theorem Line.add_operator (h : ex.Line i ops v none) (name : String) (op : OperatorType)
    (columns : List String) :
    ∃ ex', ex.add_operator name op [v] columns = some (ex.nodes.length, ex') ∧
      ex'.Line i (ops ++ [op]) ex.nodes.length none ∧ ex'.base_tables = ex.base_tables ∧
      ex'.nodes.length = ex.nodes.length + 1 := by
  have hv : ∀ p ∈ [v], p < ex.nodes.length := by
    intro p hp
    rw [mem_singleton.mp hp]
    exact h.lt_length
  obtain ⟨ex', hadd, htabs, hlen, hnodes⟩ := add_operator_eq ex name op columns hv
  refine ⟨ex', hadd, ?_, htabs, hlen⟩
  have hnew : ex'.nodes[ex.nodes.length]? = some ⟨some op, [v], [], none, name, columns⟩ := by
    rw [hnodes, if_pos rfl]
  have hold : ∀ {j : Nat} {n : Node}, ex.nodes[j]? = some n →
      ex'.nodes[j]? = some (withChildren ex.nodes.length ([v].count j) n) := by
    intro j n hn
    have hj := (List.getElem?_eq_some_iff.mp hn).1
    rw [hnodes, if_neg (Nat.ne_of_lt hj), hn]
    rfl
  clear hadd hnodes hlen htabs
  generalize hs : (none : Option MemoryState) = state at h
  induction h with
  | @last v n _ hn hstate hchildren =>
    subst hs
    refine .next (hold hn) hstate ?_ (hv v mem_cons_self) hnew rfl rfl (.last hnew rfl rfl)
    show n.children ++ List.replicate ([v].count v) ex.nodes.length = [ex.nodes.length]
    rw [hchildren, count_singleton_self]
    rfl
  | @next i c v n m op₁ ops state hn hstate hchildren hlt hm hop hparents rest ih =>
    have hle := rest.length_le
    have hcount : [v].count i = 0 := by
      rw [count_eq_zero, mem_singleton]
      omega
    refine .next (hold hn) hstate ?_ hlt (hold hm) hop hparents (ih hv hnew hold hs)
    show n.children ++ List.replicate ([v].count i) ex.nodes.length = [c]
    rw [hchildren, hcount]
    rfl

theorem Line.materialize (h : ex.Line i ops v none) (keys : List Nat) :
    ∃ ex', ex.materialize v keys = some (⟨v, keys⟩, ex') ∧
      ex'.Line i ops v (some (.new keys)) ∧ ex'.base_tables = ex.base_tables := by
  refine ⟨ex.setState v (.new keys), ?_, h.setState _, rfl⟩
  unfold LocalExecutor.materialize
  rw [if_pos h.lt_length]
  rfl

end LocalExecutor

/-! ## The plan of a query -/

/-- What a query over one table is turned into. -/
structure Plan where
  /-- The operators below the base node. -/
  ops : List OperatorType
  key_columns : List Nat

namespace SqlConverter

/-- The filter of a query. -/
def filter_ops (env : SqlEnv) (names : List String) (where_clause : Option Expr) :
    SqlResult (List OperatorType) :=
  match where_clause with
  | none => .ok []
  | some e => do
    let condition ← convert_expr_to_filter env names e
    .ok [.filter ⟨condition, names.length, [0]⟩]

/-- The aggregate of a query, when it becomes node `idx`, and the columns after it. -/
def aggregate_ops (env : SqlEnv) (idx : Nat) (body : SelectBody) (names : List String) :
    List OperatorType × List String × Bool :=
  match extract_aggregate env body.columns names with
  | none => ([], names, false)
  | some agg_info =>
    let group := group_indices body names
    ([.aggregate (.new (env.hash_order idx) group agg_info.func group)],
      group.map (names.getD · "") ++ [agg_info.alias_name], true)

/-- The projection of a query, and the key columns of the view. -/
def projection_ops (body : SelectBody) (has_aggregate : Bool) (names : List String) :
    List OperatorType × List Nat :=
  match projectionPlan body has_aggregate names with
  | (none, keys) => ([], keys)
  | (some (emit, _), keys) => ([.project ⟨emit, keys⟩], keys)

/-- The plan of a query whose first operator becomes node `idx`. -/
def plan (env : SqlEnv) (idx : Nat) (names : List String) (body : SelectBody) :
    SqlResult Plan := do
  let filter ← filter_ops env names body.where_clause
  let agg := aggregate_ops env (idx + filter.length) body names
  let proj := projection_ops body agg.2.2 agg.2.1
  .ok ⟨filter ++ agg.1 ++ proj.1, proj.2⟩

section Build

open LocalExecutor

variable {env : SqlEnv} {conv : SqlConverter} {ex : LocalExecutor} {i v : Nat}
  {ops : List OperatorType} {names : List String}

theorem build_where_line (h : ex.Line i ops v none) (pt : String) {where_clause : Option Expr}
    {filter : List OperatorType} (hf : filter_ops env names where_clause = .ok filter) :
    ∃ v' ex', build_where env pt where_clause v names ex = (.ok v', ex') ∧
      ex'.Line i (ops ++ filter) v' none ∧ ex'.base_tables = ex.base_tables ∧
      ex'.nodes.length = ex.nodes.length + filter.length := by
  cases where_clause with
  | none =>
    cases hf
    exact ⟨v, ex, rfl, by rwa [append_nil], rfl, rfl⟩
  | some e =>
    simp only [filter_ops, Outcome.bind_ok_iff] at hf
    obtain ⟨cond, hcond, hf⟩ := hf
    cases hf
    obtain ⟨ex', hadd, hline, htabs, hlen⟩ := h.add_operator (pt ++ "_filter")
      (.filter ⟨cond, names.length, [0]⟩) names
    refine ⟨_, ex', ?_, hline, htabs, hlen⟩
    simp only [build_where, hcond]
    have hbuild : Build.add_operator (pt ++ "_filter") (.filter ⟨cond, names.length, [0]⟩) [v]
        names ex = (.ok ex.nodes.length, ex') := modifyGet_ok_iff.mpr hadd
    exact hbuild

theorem build_aggregate_line (h : ex.Line i ops v none) (pt : String) (body : SelectBody)
    (names : List String) :
    let agg := aggregate_ops env ex.nodes.length body names
    ∃ v' ex', build_aggregate env pt body v names ex = (.ok (v', agg.2.1, agg.2.2), ex') ∧
      ex'.Line i (ops ++ agg.1) v' none ∧ ex'.base_tables = ex.base_tables := by
  simp only [aggregate_ops, build_aggregate]
  cases extract_aggregate env body.columns names with
  | none => exact ⟨v, ex, rfl, by rwa [append_nil], rfl⟩
  | some agg_info =>
    obtain ⟨ex', hadd, hline, htabs, -⟩ := h.add_operator (pt ++ "_agg")
      (.aggregate (.new (env.hash_order ex.nodes.length) (group_indices body names)
        agg_info.func (group_indices body names)))
      ((group_indices body names).map (names.getD · "") ++ [agg_info.alias_name])
    refine ⟨_, ex', ?_, hline, htabs⟩
    exact bind_ok_iff.mpr ⟨_, _, rfl,
      bind_ok_iff.mpr ⟨_, _, modifyGet_ok_iff.mpr hadd, rfl⟩⟩

theorem build_projection_line (h : ex.Line i ops v none) (pt : String) (body : SelectBody)
    (has_aggregate : Bool) (names : List String) :
    let proj := projection_ops body has_aggregate names
    ∃ v' ex', build_projection pt body has_aggregate v names ex = (.ok (v', proj.2), ex') ∧
      ex'.Line i (ops ++ proj.1) v' none ∧ ex'.base_tables = ex.base_tables := by
  rw [build_projection_eq, projection_ops]
  rcases projectionPlan body has_aggregate names with ⟨_ | ⟨emit, new_names⟩, keys⟩
  · exact ⟨v, ex, rfl, by rwa [append_nil], rfl⟩
  · obtain ⟨ex', hadd, hline, htabs, -⟩ :=
      h.add_operator (pt ++ "_project") (.project ⟨emit, keys⟩) new_names
    exact ⟨_, ex', bind_ok_iff.mpr ⟨_, _, modifyGet_ok_iff.mpr hadd, rfl⟩,
      hline, htabs⟩

/-- A query over one table. -/
structure OneTable (body : SelectBody) (table : String) : Prop where
  select : ∃ as_name joins, body.from_clause = some ⟨some (.table table as_name), joins⟩ ∧
    joins.getD [] = []

/-- The FROM clause of such a query leads to the base node. -/
theorem build_from_clause_table (hschema : conv.get_schema table = some schema)
    (hget : Build.get_or_add_base_table table schema.columns ex = (.ok i, ex'))
    {as_name : Option String} {joins : Option (List JoinedSelectTable)}
    (hjoins : joins.getD [] = []) :
    conv.build_from_clause ⟨some (.table table as_name), joins⟩ ex
      = (.ok (i, schema.columns), ex') := by
  simp only [build_from_clause, build_select_table, hschema, hjoins]
  exact bind_ok_iff.mpr ⟨_, _, bind_ok_iff.mpr ⟨_, _, hget, rfl⟩, rfl⟩

theorem get_base_table (hbase : ex.base_tables.get? table = some i) (columns : List String) :
    Build.get_or_add_base_table table columns ex = (.ok i, ex) := by
  simp only [Build.get_or_add_base_table, get_or_add_base_table, hbase]

/-- **Building the graph of a query over one table lays out its plan**
    below the base node of the table. -/
theorem build_select_line (hone : OneTable body table)
    (hschema : conv.get_schema table = some schema) (hbase : ex.base_tables.get? table = some i)
    (hline : ex.Line i [] i none) {p : Plan}
    (hplan : plan env ex.nodes.length schema.columns body = .ok p) :
    ∃ v ex', build_select env conv (.select body) ex = (.ok ⟨v, p.key_columns⟩, ex') ∧
      ex'.Line i p.ops v (some (.new p.key_columns)) ∧ ex'.base_tables = ex.base_tables := by
  obtain ⟨as_name, joins, hfrom, hjoins⟩ := hone.select
  simp only [plan, Outcome.bind_ok_iff] at hplan
  obtain ⟨filter, hfilter, hplan⟩ := hplan
  cases hplan
  obtain ⟨v₁, ex₁, h₁, hl₁, ht₁, hn₁⟩ := build_where_line hline table hfilter
  obtain ⟨v₂, ex₂, h₂, hl₂, ht₂⟩ := build_aggregate_line hl₁ table body schema.columns
  rw [hn₁] at h₂ hl₂
  obtain ⟨v₃, ex₃, h₃, hl₃, ht₃⟩ := build_projection_line hl₂ table body
    (aggregate_ops env (ex.nodes.length + filter.length) body schema.columns).2.2
    (aggregate_ops env (ex.nodes.length + filter.length) body schema.columns).2.1
  obtain ⟨ex₄, h₄, hl₄, ht₄⟩ := hl₃.materialize _
  refine ⟨v₃, ex₄, ?_, hl₄, ht₄.trans (ht₃.trans (ht₂.trans ht₁))⟩
  have hft : conv.build_from_clause ⟨some (.table table as_name), joins⟩ ex
      = (.ok (i, schema.columns), ex) :=
    build_from_clause_table hschema (get_base_table hbase _) hjoins
  simp only [build_select, hfrom]
  refine bind_ok_iff.mpr ⟨_, _, hft, bind_ok_iff.mpr ⟨_, _, h₁,
    bind_ok_iff.mpr ⟨_, _, h₂, bind_ok_iff.mpr ⟨_, _, h₃, ?_⟩⟩⟩⟩
  exact modifyGet_ok_iff.mpr h₄

/-- **What was accepted was laid out.** -/
theorem build_select_accepted {view : ViewHandle} {ex' : LocalExecutor} (hone : OneTable body table)
    (hschema : conv.get_schema table = some schema) (hbase : ex.base_tables.get? table = some i)
    (hline : ex.Line i [] i none) (h : build_select env conv (.select body) ex = (.ok view, ex')) :
    ∃ p, plan env ex.nodes.length schema.columns body = .ok p ∧
      view.key_columns = p.key_columns ∧
      ex'.Line i p.ops view.node (some (.new p.key_columns)) ∧
      ex'.base_tables = ex.base_tables := by
  obtain ⟨p, hp⟩ : ∃ p, plan env ex.nodes.length schema.columns body = .ok p := by
    obtain ⟨as_name, joins, hfrom, hjoins⟩ := hone.select
    simp only [build_select, hfrom] at h
    obtain ⟨from_, ex₁, h₁, h⟩ := bind_ok_iff.mp h
    rw [build_from_clause_table hschema (get_base_table hbase _) hjoins] at h₁
    cases h₁
    obtain ⟨v₁, ex₁, h₁, -⟩ := bind_ok_iff.mp h
    -- Only the conversion of the WHERE clause can fail.
    have hfilter : ∃ filter, filter_ops env schema.columns body.where_clause = .ok filter := by
      unfold filter_ops
      cases hw : body.where_clause with
      | none => exact ⟨[], rfl⟩
      | some e =>
        rw [hw] at h₁
        obtain ⟨cond, ex₂, hcond, -⟩ := bind_ok_iff.mp h₁
        rw [lift_apply, Prod.mk.injEq] at hcond
        simp only [hcond.1]
        exact ⟨_, rfl⟩
    obtain ⟨filter, hfilter⟩ := hfilter
    exact ⟨_, Outcome.bind_ok_iff.mpr ⟨filter, hfilter, rfl⟩⟩
  obtain ⟨v, ex₁, hbuild, hlaid, htabs⟩ := build_select_line hone hschema hbase hline hp
  rw [h] at hbuild
  cases hbuild
  exact ⟨p, hp, rfl, hlaid, htabs⟩

end Build

end SqlConverter

end Noria.Sqlite

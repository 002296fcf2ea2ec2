import Noria.Sqlite.Sound

/-! # What one more view adds to an executor

  `convert_select` adds nodes, names and edges to new nodes, and leaves the nodes that were there as
  they are, but for the states of base tables that it materializes again. Which tables these are is
  read off the query (`selectTouches`).
-/

namespace Noria.Sqlite

open List SqlConverter

variable {name : String} {node n : Nat} {origin : Option String} {keys : List Nat}

/-! ## The tables a query materializes -/

/-- The base tables that the joins materialize, with the key columns.
    `current` is the table that the joins start from. -/
def joinTouches (conv : SqlConverter) :
    List JoinedSelectTable → Option String → List String → List (String × List Nat)
  | [], _, _ => []
  | join :: joins, current, columns =>
    match join.table with
    | .table name _ =>
      match conv.get_schema name with
      | some schema =>
        match extract_join_keys join.constraint columns schema.columns with
        | .ok (left_key, right_key) =>
          current.toList.map (fun t => (t, [left_key])) ++ (name, [right_key]) ::
            joinTouches conv joins none
              (SqlConverter.joinedColumns columns schema.columns right_key)
        | _ => []
      | none => []
    | _ => []

/-- The base tables that a query materializes: those of its joins, and the
    table itself where the view is nothing but the table. -/
def selectTouches (env : SqlEnv) (conv : SqlConverter) (body : SelectBody) :
    List (String × List Nat) :=
  match body.from_clause with
  | some from_clause =>
    match from_clause.select with
    | some (.table name _) =>
      match conv.get_schema name with
      | some schema =>
        let joins := from_clause.joins.getD []
        joinTouches conv joins (some name) schema.columns ++
          if joins.isEmpty && body.where_clause.isNone &&
              (extract_aggregate env body.columns schema.columns).isNone &&
              (projectionPlan body false schema.columns).1.isNone then
            [(name, (projectionPlan body false schema.columns).2)]
          else []
      | none => []
    | _ => []
  | none => []

/-! ## The columns a query reads exist -/

section Columns

variable {columns : List String}

theorem extract_aggregate_lt {env : SqlEnv} {cols : List ResultColumn} {info : AggInfo}
    (h : extract_aggregate env cols columns = some info) (hne : columns ≠ []) :
    ∀ c, info.func.summed = some c → c < columns.length := by
  have hfunc : ∀ {e : Expr} {func : AggregateFunc},
      extract_aggregate_from_expr env e columns = some func →
      ∀ c, func.summed = some c → c < columns.length := by
    intro e func he c hc
    unfold extract_aggregate_from_expr at he
    split at he
    · rename_i args
      have hlt := first_arg_column_lt args hne
      simp only at he
      split_ifs at he <;> cases he <;> cases hc <;> exact hlt
    · split_ifs at he
      cases he
      cases hc
    · cases he
  fun_induction extract_aggregate env cols columns with
  | case1 => cases h
  | case2 e as_name rest func hf =>
    cases h
    exact hfunc hf
  | case3 e as_name rest hf ih => exact ih h
  | case4 _ rest _ ih => exact ih h

/-- The loop over the key columns: every emitted column exists and has a
    name, and every key column is the position of an emitted one. -/
structure Placed (columns : List String) (placed : List Nat × List String × List Nat) : Prop where
  names : placed.2.1.length = placed.1.length
  emit : ∀ c ∈ placed.1, c < columns.length
  keys : ∀ k ∈ placed.2.2, k < placed.1.length

theorem Placed.placeKey {placed : List Nat × List String × List Nat} (h : Placed columns placed)
    {key : Nat} (hkey : key < columns.length) :
    Placed columns (SqlConverter.placeKey columns placed key) := by
  obtain ⟨emit, names, keys⟩ := placed
  obtain ⟨hnames, hemit, hkeys⟩ := h
  simp only at hnames hemit hkeys
  unfold SqlConverter.placeKey
  simp only
  split
  · rename_i pos hpos
    have hlt := (findIdx?_eq_some_iff_getElem.mp hpos).1
    refine ⟨hnames, hemit, fun k hk => ?_⟩
    rcases mem_append.mp hk with hk | hk
    · exact hkeys k hk
    · rw [mem_singleton.mp hk]
      exact hlt
  · refine ⟨by simp [hnames], fun c hc => ?_, fun k hk => ?_⟩
    · rcases mem_append.mp hc with hc | hc
      · exact hemit c hc
      · rw [mem_singleton.mp hc]
        exact hkey
    · have hlen : (emit ++ [key]).length = emit.length + 1 := length_append
      show k < (emit ++ [key]).length
      rcases mem_append.mp hk with hk | hk
      · have := hkeys k hk
        omega
      · rw [mem_singleton.mp hk]
        omega

theorem Placed.foldl (hkeys : ∀ k ∈ keys, k < columns.length) :
    ∀ {placed : List Nat × List String × List Nat}, Placed columns placed →
      Placed columns (keys.foldl (SqlConverter.placeKey columns) placed) := by
  induction keys with
  | nil => exact fun h => h
  | cons key keys ih =>
    intro placed h
    exact ih (forall_mem_cons.mp hkeys).2 (h.placeKey (hkeys key mem_cons_self))

/-- The columns of a projection and the key columns of its view. -/
theorem projectionPlan_lt (body : SelectBody) (has_aggregate : Bool) (hne : columns ≠ []) :
    match projectionPlan body has_aggregate columns with
    | (none, keys) => ∀ c ∈ keys, c < columns.length
    | (some (emit, names), keys) =>
      names.length = emit.length ∧ (∀ c ∈ emit, c < columns.length) ∧
        ∀ k ∈ keys, k < emit.length := by
  have hkeys : ∀ c ∈ extract_key_columns body.where_clause columns,
      c < columns.length := extract_key_columns_lt hne
  unfold projectionPlan
  by_cases hneed : (needs_projection body.columns && !has_aggregate) = true
  · rw [if_pos hneed]
    cases hget : get_projection body.columns columns with
    | none => exact hkeys
    | some p =>
      obtain ⟨indices, names⟩ := p
      have hstart : Placed columns (indices, names, []) := by
        unfold get_projection at hget
        split at hget
        · cases hget
        · rename_i cols hloop
          cases hget
          refine ⟨by simp, fun c hc => ?_, fun k hk => absurd hk not_mem_nil⟩
          obtain ⟨q, hq, rfl⟩ := mem_map.mp hc
          exact projectionLoop_lt hloop q hq
        · cases hget
      have hplaced := hstart.foldl hkeys
      simp only
      split
      · rename_i emit keys' heq
        split at heq
        · rename_i hrange
          cases heq
          intro c hc
          have := hplaced.keys c hc
          rwa [hrange, length_range] at this
        · cases heq
      · rename_i emit names' keys' heq
        split at heq
        · cases heq
        · cases heq
          exact ⟨hplaced.names, hplaced.emit, hplaced.keys⟩
  · rw [if_neg hneed]
    exact hkeys

end Columns

/-! ## Extensions -/

namespace LocalExecutor

/-- Node `n` is new or the base of a touched table. -/
def NewOrTouched (old : LocalExecutor) (touched : List (String × List Nat)) (ex : LocalExecutor)
    (n : Nat) : Prop :=
  old.nodes.length ≤ n ∨ ∃ t keys, (t, keys) ∈ touched ∧ ex.base_tables.get? t = some n

/-- `ex` is `old` with more nodes. Of the old nodes, bases may have got new
    children, and bases of touched tables an empty state. The new states are
    empty, and new joins have new or touched inputs. -/
structure Extends (old : LocalExecutor) (touched : List (String × List Nat))
    (ex : LocalExecutor) : Prop where
  length_le : old.nodes.length ≤ ex.nodes.length
  core : ∀ i, i < old.nodes.length → ex.core i = old.core i
  children : ∀ i, i < old.nodes.length → ∃ extra, ex.children i = old.children i ++ extra ∧
    (∀ c ∈ extra, old.nodes.length ≤ c) ∧ (old.parents i ≠ [] → extra = [])
  tables : ∀ t b, old.base_tables.get? t = some b → ex.base_tables.get? t = some b
  known : ∀ t b, ex.base_tables.get? t = some b →
    old.base_tables.get? t = some b ∨ old.nodes.length ≤ b
  state : ∀ i, i < old.nodes.length → ex.stateOf i = old.stateOf i ∨
    ∃ t keys, (t, keys) ∈ touched ∧ old.base_tables.get? t = some i ∧
      ex.stateOf i = some (.new keys)
  fresh : ∀ i st, old.nodes.length ≤ i → ex.stateOf i = some st → st = .new st.key_columns
  inputs : ∀ i k j, old.nodes.length ≤ i → ex.core i = some k → k.operator = some (.join j) →
    ∀ p ∈ k.parents, NewOrTouched old touched ex p

section Steps

variable {old ex ex' : LocalExecutor} {touched : List (String × List Nat)}

theorem NewOrTouched.mono (h : NewOrTouched old touched ex n)
    (htab : ∀ t b, ex.base_tables.get? t = some b → ex'.base_tables.get? t = some b) :
    NewOrTouched old touched ex' n :=
  h.imp id fun ⟨t, keys, hmem, hget⟩ => ⟨t, keys, hmem, htab t n hget⟩

theorem Extends.refl (ex : LocalExecutor) (touched : List (String × List Nat)) :
    ex.Extends touched ex where
  length_le := Nat.le_refl _
  core _ _ := rfl
  children _ _ := ⟨[], (append_nil _).symm, (fun _ hc => absurd hc not_mem_nil),
    fun _ => rfl⟩
  tables _ _ h := h
  known _ _ h := .inl h
  state _ _ := .inl rfl
  fresh i st hi hst := by
    rw [stateOf_none hi] at hst
    cases hst
  inputs i k j hi hk := by
    have := core_lt hk
    omega

theorem Extends.add_base_table (h : old.Extends touched ex) (hnew : ex.base_tables.get? name = none)
    (columns : List String) : old.Extends touched (ex.add_base_table name columns).2 := by
  obtain ⟨hlen, htabs, hcore, hchi, hst⟩ := ex.add_base_table_parts name columns
  have hle := h.length_le
  have hkeeps : ∀ t b, ex.base_tables.get? t = some b →
      (ex.add_base_table name columns).2.base_tables.get? t = some b := by
    intro t b hb
    rw [htabs, if_neg]
    · exact hb
    · rintro rfl
      rw [hnew] at hb
      cases hb
  constructor
  · omega
  · intro i hi
    rw [hcore, if_neg (by omega)]
    exact h.core i hi
  · intro i hi
    rw [hchi]
    exact h.children i hi
  · exact fun t b hb => hkeeps t b (h.tables t b hb)
  · intro t b hb
    rw [htabs] at hb
    split at hb
    · cases hb
      exact .inr hle
    · exact h.known t b hb
  · intro i hi
    rw [hst]
    exact h.state i hi
  · intro i st hi hsome
    rw [hst] at hsome
    exact h.fresh i st hi hsome
  · intro i k j hi hk hop p hp
    rw [hcore] at hk
    split at hk
    · cases hk
      cases hop
    · exact (h.inputs i k j hi hk hop p hp).mono hkeeps

theorem Extends.add_operator (h : old.Extends touched ex) {op : OperatorType} {parents : List Nat}
    {columns : List String} {idx : Nat}
    (hadd : ex.add_operator name op parents columns = some (idx, ex'))
    (hbase : ∀ p ∈ parents, p < old.nodes.length → old.parents p = [])
    (hjoin : ∀ j, op = .join j → ∀ p ∈ parents, NewOrTouched old touched ex p) :
    old.Extends touched ex' := by
  obtain ⟨rfl, hlen, -, htabs, hcore, hchi, hst⟩ := add_operator_parts hadd
  have hle := h.length_le
  constructor
  · omega
  · intro i hi
    rw [hcore, if_neg (by omega)]
    exact h.core i hi
  · -- the new node is a child of `i` as often as it names `i` as a parent
    intro i hi
    obtain ⟨extra, hextra, hnew, hnone⟩ := h.children i hi
    refine ⟨extra ++ List.replicate (parents.count i) ex.nodes.length, ?_, fun c hc => ?_,
      fun hpar => ?_⟩
    · rw [hchi, hextra, append_assoc]
    · rcases mem_append.mp hc with hc | hc
      · exact hnew c hc
      · rw [eq_of_mem_replicate hc]
        exact hle
    · have hcount : parents.count i = 0 := count_eq_zero.mpr fun hp => hpar (hbase i hp hi)
      rw [hnone hpar, hcount]
      rfl
  · intro t b hb
    rw [htabs]
    exact h.tables t b hb
  · intro t b hb
    rw [htabs] at hb
    exact h.known t b hb
  · intro i hi
    rw [hst]
    exact h.state i hi
  · intro i st hi hsome
    rw [hst] at hsome
    exact h.fresh i st hi hsome
  · have hkeeps : ∀ t b, ex.base_tables.get? t = some b → ex'.base_tables.get? t = some b := by
      intro t b hb
      rw [htabs]
      exact hb
    intro i k j hi hk hop p hp
    rw [hcore] at hk
    split at hk
    · cases hk
      exact (hjoin j (Option.some.inj hop) p hp).mono hkeeps
    · exact (h.inputs i k j hi hk hop p hp).mono hkeeps

theorem Extends.materialize (h : old.Extends touched ex) {view : ViewHandle}
    (hmat : ex.materialize node keys = some (view, ex'))
    (hnode : old.nodes.length ≤ node ∨
      ∃ t, ex.base_tables.get? t = some node ∧ (t, keys) ∈ touched) :
    old.Extends touched ex' := by
  obtain ⟨-, -, hlen, htabs, hcore, hchi, hst⟩ := materialize_parts hmat
  constructor
  · rw [hlen]
    exact h.length_le
  · intro i hi
    rw [hcore]
    exact h.core i hi
  · intro i hi
    rw [hchi]
    exact h.children i hi
  · intro t b hb
    rw [htabs]
    exact h.tables t b hb
  · intro t b hb
    rw [htabs] at hb
    exact h.known t b hb
  · intro i hi
    rw [hst]
    split
    · rename_i heq
      subst heq
      rcases hnode with hnew | ⟨t, hget, hmem⟩
      · omega
      · rcases h.known t _ hget with hold | hnew
        · exact .inr ⟨t, keys, hmem, hold, rfl⟩
        · omega
    · exact h.state i hi
  · intro i st hi hsome
    rw [hst] at hsome
    split at hsome
    · cases hsome
      rfl
    · exact h.fresh i st hi hsome
  · intro i k j hi hk hop p hp
    rw [hcore] at hk
    refine (h.inputs i k j hi hk hop p hp).mono fun t b hb => ?_
    rw [htabs]
    exact hb

end Steps

/-! ## The steps of a conversion -/

/-- A sound extension of `old`, in the middle of a conversion. -/
structure Growing (conv : SqlConverter) (old : LocalExecutor) (touched : List (String × List Nat))
    (ex : LocalExecutor) : Prop where
  sound : ex.Sound conv
  extends_old : old.Extends touched ex

/-- Node `n` exists and has the columns `columns`, at least one. -/
structure HasColumns (ex : LocalExecutor) (n : Nat) (columns : List String) : Prop where
  lt : n < ex.nodes.length
  width : ex.width n = columns.length
  nonempty : columns ≠ []

/-- Node `n` is the base of the table `t`, or it is new. -/
def ComesFrom (ex old : LocalExecutor) (n : Nat) : Option String → Prop
  | some t => ex.base_tables.get? t = some n
  | none => old.nodes.length ≤ n

section Grows

variable {ex ex' old : LocalExecutor}

theorem Grows.width_eq (h : ex.Grows ex') (hn : n < ex.nodes.length) :
    ex'.width n = ex.width n := by
  obtain ⟨k, hk⟩ := core_isSome hn
  rw [width_of_core hk, width_of_core (h.core n k hk)]

theorem HasColumns.grows {columns : List String} (hc : ex.HasColumns n columns) (h : ex.Grows ex') :
    ex'.HasColumns n columns :=
  ⟨Nat.lt_of_lt_of_le hc.lt h.length_le, (h.width_eq hc.lt).trans hc.width, hc.nonempty⟩

theorem ComesFrom.grows {t : Option String} (hf : ex.ComesFrom old n t) (h : ex.Grows ex') :
    ex'.ComesFrom old n t := by
  cases t with
  | some t => exact h.tables t n hf
  | none => exact hf

end Grows

section Steps

variable {conv : SqlConverter} {old ex : LocalExecutor} {touched : List (String × List Nat)}

open Keeping

variable (hex : Growing conv old touched ex)

include hex

theorem build_select_table_ends (hcols : conv.HasColumns) (table : SelectTable) :
    (conv.build_select_table table).Ends ex
      (fun p ex' => ex.Grows ex' ∧ Growing conv old touched ex' ∧ ex'.HasColumns p.1 p.2 ∧
        ∃ name as_name schema, table = .table name as_name ∧ conv.get_schema name = some schema ∧
          p.2 = schema.columns ∧ ex'.base_tables.get? name = some p.1)
      (Growing conv old touched) := by
  unfold Ends
  rcases hrun : conv.build_select_table table ex with ⟨⟨node, columns⟩ | e | _, ex'⟩
  · obtain ⟨name, as_name, schema, rfl, hschema, rfl, hname, hg, hnamed, -, -, -⟩ :=
      build_select_table_ok hrun hex.sound.named
    obtain ⟨_, _, _, heq, hschema', -, hgo⟩ := build_select_table_eq hrun
    cases heq
    rw [hschema] at hschema'
    cases hschema'
    obtain ⟨schema', hschema', hcore⟩ := hnamed name node hname
    have hgrowing : Growing conv old touched ex' := by
      rcases get_or_add_base_table_parts hgo with ⟨-, rfl⟩ | ⟨hnone, -, rfl⟩
      · exact hex
      · exact ⟨⟨hex.sound.shaped.add_base_table _ _, hnamed⟩,
          hex.extends_old.add_base_table hnone _⟩
    rw [hschema] at hschema'
    cases hschema'
    exact ⟨hg, hgrowing, ⟨core_lt hcore, width_of_core hcore, hcols.get_schema hschema⟩,
      name, as_name, schema, rfl, hschema, rfl, hname⟩
  · -- an unknown table or a subquery: nothing has happened
    have : ex' = ex := by
      cases table with
      | select =>
        cases hrun
        rfl
      | other tag =>
        cases hrun
        rfl
      | table name as_name =>
        simp only [build_select_table] at hrun
        cases hs : conv.get_schema name with
        | none =>
          rw [hs] at hrun
          cases hrun
          rfl
        | some schema =>
          rw [hs] at hrun
          cases hrun
    subst this
    exact hex
  · trivial

theorem add_operator_ends (name : String) (op : OperatorType) (parents : List Nat)
    (columns : List String)
    (hop : op.Typed (parents.map ex.width) columns.length)
    (hfrom : ∀ p ∈ parents, ∃ origin, ex.ComesFrom old p origin)
    (hjoin : ∀ j, op = .join j → ∀ p ∈ parents,
      (ex.stateOf p).isSome ∧ NewOrTouched old touched ex p) :
    (Build.add_operator name op parents columns).Ends ex
      (fun idx ex' => ex.Grows ex' ∧ Growing conv old touched ex' ∧ idx < ex'.nodes.length ∧
        ex'.width idx = columns.length ∧ ex'.ComesFrom old idx none)
      (Growing conv old touched) := by
  refine Ends.modifyGet fun idx ex' hadd => ?_
  obtain ⟨⟨htyped, hnamed⟩, hext⟩ := hex
  obtain ⟨rfl, hlen, -, htabs, hcore, -, -⟩ := add_operator_parts hadd
  have hg := Grows.add_operator hadd
  -- an old parent is the base of a table
  have hbase : ∀ p ∈ parents, p < old.nodes.length → old.parents p = [] := by
    intro p hp hlt
    obtain ⟨origin, hp⟩ := hfrom p hp
    cases origin with
    | none => exact absurd hlt (Nat.not_lt.mpr hp)
    | some t =>
      obtain ⟨schema, -, hk⟩ := hnamed t p hp
      rw [hext.core p hlt] at hk
      exact parents_of_core hk
  refine ⟨hg, ⟨⟨htyped.add_operator hadd hop fun j hj p hp => (hjoin j hj p hp).1,
    hnamed.of_grows hg htabs⟩, hext.add_operator hadd hbase fun j hj p hp => (hjoin j hj p hp).2⟩,
    by omega, ?_, hext.length_le⟩
  exact width_of_core (by rw [hcore, if_pos rfl])

theorem materialize_ends (hkeys : ∀ c ∈ keys, c < ex.width node)
    (hfrom : ex.ComesFrom old node origin) (htouched : ∀ t, origin = some t → (t, keys) ∈ touched) :
    (Build.materialize node keys).Ends ex
      (fun view ex' => ex.Grows ex' ∧ Growing conv old touched ex' ∧ view = ⟨node, keys⟩ ∧
        (ex'.stateOf node).isSome ∧ ∀ i, (ex.stateOf i).isSome → (ex'.stateOf i).isSome)
      (Growing conv old touched) := by
  refine Ends.modifyGet fun view ex' hmat => ?_
  obtain ⟨⟨htyped, hnamed⟩, hext⟩ := hex
  obtain ⟨-, hview, -, htabs, -, -, hst⟩ := materialize_parts hmat
  have hg := Grows.materialize hmat
  have hnode : old.nodes.length ≤ node ∨
      ∃ t, ex.base_tables.get? t = some node ∧ (t, keys) ∈ touched := by
    cases origin with
    | none => exact .inl hfrom
    | some name => exact .inr ⟨name, hfrom, htouched name rfl⟩
  refine ⟨hg, ⟨⟨htyped.materialize hmat hkeys, hnamed.of_grows hg htabs⟩,
    hext.materialize hmat hnode⟩, hview, ?_, fun i hi => ?_⟩
  · rw [hst, if_pos rfl]
    rfl
  · rw [hst]
    split
    · rfl
    · exact hi

omit hex in
theorem build_joins_ends (hcols : conv.HasColumns) (joins : List JoinedSelectTable) :
    ∀ {ex : LocalExecutor} {node : Nat} {columns : List String} {origin : Option String},
      Growing conv old touched ex → ex.HasColumns node columns → ex.ComesFrom old node origin →
      (∀ p ∈ joinTouches conv joins origin columns, p ∈ touched) →
      (conv.build_joins joins node columns).Ends ex
        (fun p ex' => Growing conv old touched ex' ∧ ex'.HasColumns p.1 p.2 ∧
          if joins = [] then p = (node, columns) ∧ ex'.ComesFrom old node origin
          else ex'.ComesFrom old p.1 none) (Growing conv old touched) := by
  induction joins with
  | nil =>
    intro ex node columns origin hex hnode hfrom _
    exact Ends.pure ⟨hex, hnode, rfl, hfrom⟩
  | cons join joins ih =>
    intro ex node columns origin hex hnode hfrom htouched
    refine (build_select_table_ends hex hcols join.table).bind ?_
    rintro ⟨right, right_columns⟩ ex₁ ⟨hg₁, hex₁, hright, name, as_name, schema, htable, hschema,
      rfl, hname⟩
    refine Ends.bind (Q := fun keys ex₂ => ex₂ = ex₁ ∧
      extract_join_keys join.constraint columns schema.columns = .ok keys)
      (Ends.lift (fun _ hkeys => ⟨rfl, hkeys⟩) hex₁) ?_
    rintro ⟨left_key, right_key⟩ _ ⟨rfl, hkeys⟩
    obtain ⟨hl, hr⟩ := extract_join_keys_lt hkeys hnode.nonempty hright.nonempty
    simp only [joinTouches, htable, hschema, hkeys, mem_append, mem_cons] at htouched
    have hnode₁ := hnode.grows hg₁
    -- the left input, then the right one
    refine (materialize_ends hex₁ (by simpa [hnode₁.width] using hl) (hfrom.grows hg₁) ?_).bind ?_
    · rintro t rfl
      exact htouched _ (.inl (mem_map.mpr ⟨t, mem_singleton_self t, rfl⟩))
    rintro - ex₂ ⟨hg₂, hex₂, -, hst₂, -⟩
    have hright₂ := hright.grows hg₂
    refine (materialize_ends hex₂ (by simpa [hright₂.width] using hr)
      (show ex₂.ComesFrom old _ (some name) from hg₂.tables _ _ hname) ?_).bind ?_
    · rintro t ht
      cases ht
      exact htouched _ (.inr (.inl rfl))
    rintro - ex₃ ⟨hg₃, hex₃, -, hst₃, hkept⟩
    have hnode₃ := (hnode₁.grows hg₂).grows hg₃
    have hright₃ := hright₂.grows hg₃
    -- the join node has both inputs' states to look into
    have hleft₃ := ((hfrom.grows hg₁).grows hg₂).grows hg₃
    have hname₃ := hg₃.tables _ _ (hg₂.tables _ _ hname)
    refine (add_operator_ends hex₃ _ _ _ _ ?_ ?_ ?_).bind ?_
    · rw [length_joinedColumns hr]
      refine ⟨(length_joinEmit hr).symm, ?_⟩
      rw [hnode₃.width, hright₃.width]
      exact reads_joinOpFor hl hr
    · intro p hp
      rcases mem_cons.mp hp with rfl | hp
      · exact ⟨origin, hleft₃⟩
      · rw [mem_singleton.mp hp]
        exact ⟨some name, hname₃⟩
    · intro _ _ p hp
      rcases mem_cons.mp hp with rfl | hp
      · refine ⟨hkept _ hst₂, ?_⟩
        cases origin with
        | none => exact .inl hleft₃
        | some t =>
          exact .inr ⟨t, _, htouched _ (.inl (mem_map.mpr
            ⟨t, mem_singleton_self t, rfl⟩)), hleft₃⟩
      · rw [mem_singleton.mp hp]
        exact ⟨hst₃, .inr ⟨name, _, htouched _ (.inr (.inl rfl)), hname₃⟩⟩
    rintro idx ex₄ ⟨hg₄, hex₄, hlt, hwidth, hnew⟩
    have hcolumns : SqlConverter.joinedColumns columns schema.columns right_key ≠ [] := by
      intro hnil
      have hlen := congrArg List.length hnil
      rw [length_joinedColumns hr] at hlen
      have := length_pos_iff.mpr hnode.nonempty
      simp only [length_nil] at hlen
      omega
    refine (ih hex₄ ⟨hlt, hwidth, hcolumns⟩ (show ex₄.ComesFrom old idx none from hnew)
      fun p hp => htouched p (.inr (.inr hp))).mono ?_
    rintro p ex' ⟨hex', hnode', hend⟩
    refine ⟨hex', hnode', ?_⟩
    split at hend
    · rw [hend.1]
      exact hend.2
    · exact hend

section Node

variable {columns : List String} (hnode : ex.HasColumns node columns)
  (hfrom : ex.ComesFrom old node origin)

include hnode hfrom

theorem build_where_ends (env : SqlEnv) (primary_table : String) (where_clause : Option Expr) :
    (SqlConverter.build_where env primary_table where_clause node columns).Ends ex
      (fun n ex' => Growing conv old touched ex' ∧ ex'.HasColumns n columns ∧
        ex'.ComesFrom old n (if where_clause.isNone then origin else none))
      (Growing conv old touched) := by
  cases where_clause with
  | none => exact Ends.pure ⟨hex, hnode, hfrom⟩
  | some where_expr =>
    refine Ends.bind (Q := fun cond ex₁ => ex₁ = ex ∧
      convert_expr_to_filter env columns where_expr = .ok cond)
      (Ends.lift (fun _ hcond => ⟨rfl, hcond⟩) hex) ?_
    rintro cond _ ⟨rfl, hcond⟩
    refine (add_operator_ends hex _ _ _ _ ?_ (by simpa using ⟨_, hfrom⟩) (by simp)).mono ?_
    · refine ⟨hnode.width.symm, fun c hc => ?_⟩
      rw [hnode.width]
      exact convert_expr_to_filter_columns hcond c hc
    · rintro n ex' ⟨-, hex', hlt, hwidth, hnew⟩
      exact ⟨hex', ⟨hlt, hwidth, hnode.nonempty⟩, hnew⟩

theorem build_aggregate_ends (env : SqlEnv) (primary_table : String) (body : SelectBody) :
    (SqlConverter.build_aggregate env primary_table body node columns).Ends ex
      (fun p ex' => Growing conv old touched ex' ∧ ex'.HasColumns p.1 p.2.1 ∧
        ((extract_aggregate env body.columns columns = none ∧ p.2 = (columns, false) ∧
          ex'.ComesFrom old p.1 origin) ∨ ex'.ComesFrom old p.1 none))
      (Growing conv old touched) := by
  unfold build_aggregate
  cases hagg : extract_aggregate env body.columns columns with
  | none => exact Ends.pure ⟨hex, hnode, .inl ⟨rfl, rfl, hfrom⟩⟩
  | some info =>
    refine Ends.bind (Q := fun _ ex₁ => ex₁ = ex) rfl ?_
    rintro idx _ rfl
    refine (add_operator_ends hex _ _ _ _ ?_ (by simpa using ⟨_, hfrom⟩) (by simp)).bind ?_
    · refine ⟨by simp [AggregateOp.new], fun c hc => ?_, fun c hc => ?_⟩
      · rw [hnode.width]
        exact group_indices_lt body hnode.nonempty c hc
      · rw [hnode.width]
        exact extract_aggregate_lt hagg hnode.nonempty c hc
    · rintro n ex' ⟨-, hex', hlt, hwidth, hnew⟩
      exact Ends.pure ⟨hex', ⟨hlt, hwidth, by simp⟩, .inr hnew⟩

theorem build_projection_ends (primary_table : String) (body : SelectBody)
    (has_aggregate : Bool) :
    (SqlConverter.build_projection primary_table body has_aggregate node columns).Ends ex
      (fun p ex' => Growing conv old touched ex' ∧ (∀ c ∈ p.2, c < ex'.width p.1) ∧
        p.2 = (projectionPlan body has_aggregate columns).2 ∧
        ex'.ComesFrom old p.1
          (if (projectionPlan body has_aggregate columns).1.isNone then origin else none))
      (Growing conv old touched) := by
  have hplan := projectionPlan_lt body has_aggregate hnode.nonempty
  rw [build_projection_eq]
  rcases hp : projectionPlan body has_aggregate columns with ⟨_ | ⟨emit, names⟩, keys⟩ <;>
    rw [hp] at hplan
  · refine Ends.pure ⟨hex, ?_, rfl, hfrom⟩
    rw [hnode.width]
    exact hplan
  · obtain ⟨hnames, hemit, hkeys⟩ := hplan
    refine (add_operator_ends hex _ _ _ _ ?_ (by simpa using ⟨_, hfrom⟩) (by simp)).bind ?_
    · refine ⟨hnames, fun c hc => ?_⟩
      rw [hnode.width]
      exact hemit c hc
    · rintro n ex' ⟨-, hex', -, hwidth, hnew⟩
      refine Ends.pure ⟨hex', fun c hc => ?_, rfl, hnew⟩
      rw [hwidth, hnames]
      exact hkeys c hc

end Node

/-- A whole SELECT. The view's node is a base node only where the query is
    nothing but its table, and the key columns are then touched. -/
theorem build_select_ends (hcols : conv.HasColumns) (env : SqlEnv) (body : SelectBody)
    (htouched : ∀ p ∈ selectTouches env conv body, p ∈ touched) :
    (SqlConverter.build_select env conv (.select body)).Ends ex
      (fun view ex' => Growing conv old touched ex' ∧ (ex'.stateOf view.node).isSome)
      (Growing conv old touched) := by
  simp only [build_select]
  cases hfrom : body.from_clause with
  | none => exact Ends.lift (fun _ h => nomatch h) hex
  | some from_clause =>
    have hclause : (conv.build_from_clause from_clause).Ends ex
        (fun p ex' => Growing conv old touched ex' ∧ ex'.HasColumns p.1 p.2 ∧
          ∃ origin, ex'.ComesFrom old p.1 origin ∧ ∀ t, origin = some t →
            body.where_clause.isNone → extract_aggregate env body.columns p.2 = none →
            (projectionPlan body false p.2).1.isNone →
            (t, (projectionPlan body false p.2).2) ∈ touched) (Growing conv old touched) := by
      unfold build_from_clause
      cases hsel : from_clause.select with
      | none => exact Ends.lift (fun _ h => nomatch h) hex
      | some table =>
        refine (build_select_table_ends hex hcols table).bind ?_
        rintro ⟨node, columns⟩ ex₁ ⟨-, hex₁, hnode, name, as_name, schema, rfl, hschema, rfl, hname⟩
        simp only [selectTouches, hfrom, hsel, hschema, mem_append] at htouched
        refine (build_joins_ends hcols _ hex₁ hnode
          (show ex₁.ComesFrom old node (some name) from hname) fun p hp =>
          htouched p (.inl hp)).mono ?_
        rintro ⟨n, cols⟩ ex' ⟨hex', hn, hend⟩
        refine ⟨hex', hn, ?_⟩
        split at hend
        · rename_i hjoins
          obtain ⟨hp, hbase⟩ := hend
          cases hp
          refine ⟨some name, hbase, fun t ht hwhere hagg hproj => ?_⟩
          cases ht
          refine htouched _ (.inr ?_)
          rw [if_pos (by simp [hjoins, hagg, hproj, Option.isNone_iff_eq_none.mp hwhere])]
          exact mem_singleton_self _
        · exact ⟨none, hend, fun t ht => nomatch ht⟩
    refine hclause.bind ?_
    rintro ⟨node, columns⟩ ex₁ ⟨hex₁, hnode₁, origin, hfrom₁, horigin⟩
    refine (build_where_ends hex₁ hnode₁ hfrom₁ env _ body.where_clause).bind ?_
    rintro node₂ ex₂ ⟨hex₂, hnode₂, hfrom₂⟩
    refine (build_aggregate_ends hex₂ hnode₂ hfrom₂ env _ body).bind ?_
    rintro ⟨node₃, columns₃, has_aggregate⟩ ex₃ ⟨hex₃, hnode₃, hfrom₃⟩
    -- where the node is still the table's, nothing has been added so far
    obtain ⟨origin₃, hfrom₃, horigin₃⟩ : ∃ origin₃, ex₃.ComesFrom old node₃ origin₃ ∧
        ∀ t, origin₃ = some t → body.where_clause.isNone ∧ origin = some t ∧
          extract_aggregate env body.columns columns = none ∧ columns₃ = columns ∧
          has_aggregate = false := by
      rcases hfrom₃ with ⟨hagg, hp, hfrom₃⟩ | hnew
      · cases hp
        refine ⟨_, hfrom₃, fun t ht => ?_⟩
        split at ht
        · rename_i hwhere
          exact ⟨hwhere, ht, hagg, rfl, rfl⟩
        · cases ht
      · exact ⟨none, hnew, fun t ht => nomatch ht⟩
    refine (build_projection_ends hex₃ hnode₃ hfrom₃ _ body has_aggregate).bind ?_
    rintro ⟨node₄, keys⟩ ex₄ ⟨hex₄, hkeys₄, hplan, hfrom₄⟩
    refine (materialize_ends hex₄ hkeys₄ hfrom₄ fun t ht => ?_).mono fun view ex' h => ⟨h.2.1, ?_⟩
    · split at ht
      · rename_i hproj
        obtain ⟨hwhere, horig, hagg, rfl, rfl⟩ := horigin₃ t ht
        rw [hplan]
        exact horigin t horig hwhere hagg hproj
      · cases ht
    · rw [h.2.2.1]
      exact h.2.2.2.1

omit hex in
/-- A conversion, from a sound executor: what it adds, whether it succeeds or stops half way. -/
theorem convert_select_ends (hcols : conv.HasColumns) (hex : ex.Sound conv) (env : SqlEnv)
    (sql : String) :
    (SqlConverter.convert_select env conv sql).Ends ex
      (fun view ex' => (ex'.stateOf view.node).isSome ∧
        ∃ body, env.parse sql = .ok (some (.select (.select body))) ∧
          Growing conv ex (selectTouches env conv body) ex')
      (fun ex' => ∃ touched, Growing conv ex touched ex') := by
  have hstart : ∀ touched, Growing conv ex touched ex := fun touched => ⟨hex, .refl ex touched⟩
  unfold convert_select
  split
  · exact Ends.lift (fun _ h => nomatch h) ⟨[], hstart _⟩
  · exact Ends.lift (fun _ h => nomatch h) ⟨[], hstart _⟩
  · rename_i select hparse
    cases select with
    | values => exact Ends.lift (fun _ h => nomatch h) ⟨[], hstart _⟩
    | select body =>
      have hbuild := build_select_ends (hstart _) hcols env body fun p hp => hp
      unfold Ends at hbuild ⊢
      split
      · rename_i view ex' hrun
        rw [hrun] at hbuild
        exact ⟨hbuild.2, body, hparse, hbuild.1⟩
      · rename_i e ex' hrun
        rw [hrun] at hbuild
        exact ⟨_, hbuild⟩
      · trivial
  · exact Ends.lift (fun _ h => nomatch h) ⟨[], hstart _⟩

end Steps

end LocalExecutor

end Noria.Sqlite

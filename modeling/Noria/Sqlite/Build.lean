import Noria.Sqlite.Graph
import Noria.Sqlite.Sql

/-! # What the converter builds

  The graph that a FROM clause becomes, described by the cores, the children and the states of its
  nodes.
-/

namespace Noria.Sqlite

open List LocalExecutor

variable {i node idx : Nat} {columns : List String} {name : String} {k : NodeCore}
  {op : OperatorType} {parents keys : List Nat} {view : ViewHandle}

/-! ## Tables -/

/-- The known names lead to base nodes with the columns of their schema. -/
def LocalExecutor.TablesNamed (ex : LocalExecutor) (conv : SqlConverter) : Prop :=
  ∀ t b, ex.base_tables.get? t = some b →
    ∃ schema, conv.get_schema t = some schema ∧ ex.core b = some ⟨none, [], t, schema.columns⟩

/-- What building adds: nodes, names and children come on top of what was there. -/
structure LocalExecutor.Grows (ex ex' : LocalExecutor) : Prop where
  length_le : ex.nodes.length ≤ ex'.nodes.length
  core : ∀ i k, ex.core i = some k → ex'.core i = some k
  tables : ∀ t b, ex.base_tables.get? t = some b → ex'.base_tables.get? t = some b

theorem LocalExecutor.Grows.refl (ex : LocalExecutor) : ex.Grows ex :=
  ⟨Nat.le_refl _, fun _ _ h => h, fun _ _ h => h⟩

theorem LocalExecutor.Grows.trans {a b c : LocalExecutor} (h : a.Grows b) (h' : b.Grows c) :
    a.Grows c :=
  ⟨Nat.le_trans h.length_le h'.length_le, fun i k hk => h'.core i k (h.core i k hk),
    fun t n ht => h'.tables t n (h.tables t n ht)⟩

section Steps

variable {conv : SqlConverter} {ex ex' : LocalExecutor}

theorem build_select_table_eq {table : SelectTable}
    (h : conv.build_select_table table ex = (.ok (node, columns), ex')) :
    ∃ name as_name schema, table = .table name as_name ∧ conv.get_schema name = some schema ∧
      columns = schema.columns ∧ ex.get_or_add_base_table name schema.columns = (node, ex') := by
  cases table with
  | select => cases h
  | other tag => cases h
  | table name as_name =>
    simp only [SqlConverter.build_select_table] at h
    cases hs : conv.get_schema name with
    | none =>
      rw [hs] at h
      cases h
    | some schema =>
      rw [hs] at h
      obtain ⟨idx, ex₁, h₁, h₂⟩ := Keeping.bind_ok_iff.mp h
      cases h₂
      simp only [Build.get_or_add_base_table, Prod.mk.injEq, Outcome.ok.injEq] at h₁
      exact ⟨name, as_name, schema, rfl, hs, rfl, Prod.ext h₁.1 h₁.2⟩

theorem build_select_table_ok {table : SelectTable}
    (h : conv.build_select_table table ex = (.ok (node, columns), ex'))
    (htab : ex.TablesNamed conv) :
    ∃ name as_name schema, table = .table name as_name ∧ conv.get_schema name = some schema ∧
      columns = schema.columns ∧ ex'.base_tables.get? name = some node ∧ ex.Grows ex' ∧
      ex'.TablesNamed conv ∧ (∀ i, ex'.children i = ex.children i) ∧
      (∀ i, ex'.stateOf i = ex.stateOf i) ∧
      ∀ t b, ex'.base_tables.get? t = some b → ex.base_tables.get? t = some b ∨ t = name := by
  obtain ⟨name, as_name, schema, rfl, hs, rfl, hgo⟩ := build_select_table_eq h
  refine ⟨name, as_name, schema, rfl, hs, rfl, ?_⟩
  rcases get_or_add_base_table_parts hgo with ⟨hget, rfl⟩ | ⟨hget, rfl, rfl⟩
  · exact ⟨hget, .refl _, htab, fun _ => rfl, fun _ => rfl, fun t b h => .inl h⟩
  · obtain ⟨hlen, htabs, hcore, hchi, hst⟩ := ex.add_base_table_parts name schema.columns
    refine ⟨by rw [htabs, if_pos rfl], ⟨by omega, ?_, ?_⟩, ?_, hchi, hst, ?_⟩
    · intro i k hk
      rw [hcore, if_neg (Nat.ne_of_lt (core_lt hk))]
      exact hk
    · intro t b ht
      rw [htabs, if_neg]
      · exact ht
      · rintro rfl
        rw [hget] at ht
        cases ht
    · intro t b ht
      rw [htabs] at ht
      split at ht
      · rename_i hname
        cases ht
        subst hname
        exact ⟨schema, hs, by rw [hcore, if_pos rfl]⟩
      · obtain ⟨schema', hs', hk⟩ := htab t b ht
        refine ⟨schema', hs', ?_⟩
        rw [hcore, if_neg (Nat.ne_of_lt (core_lt hk))]
        exact hk
    · intro t b ht
      rw [htabs] at ht
      split at ht
      · rename_i hname
        exact .inr hname.symm
      · exact .inl ht

theorem add_operator_ok (h : Build.add_operator name op parents columns ex = (.ok idx, ex')) :
    ex.add_operator name op parents columns = some (idx, ex') := Keeping.modifyGet_ok_iff.mp h

theorem materialize_ok (h : Build.materialize node keys ex = (.ok view, ex')) :
    ex.materialize node keys = some (view, ex') := Keeping.modifyGet_ok_iff.mp h

theorem LocalExecutor.Grows.add_operator
    (h : ex.add_operator name op parents columns = some (idx, ex')) : ex.Grows ex' := by
  obtain ⟨hidx, hlen, -, htabs, hcore, -, -⟩ := add_operator_parts h
  refine ⟨by omega, fun i k hk => ?_, fun t b ht => by rw [htabs]; exact ht⟩
  have hne : i ≠ idx := by
    rw [hidx]
    exact Nat.ne_of_lt (core_lt hk)
  rw [hcore, if_neg hne]
  exact hk

theorem LocalExecutor.Grows.materialize (h : ex.materialize node keys = some (view, ex')) :
    ex.Grows ex' := by
  obtain ⟨-, -, hlen, htabs, hcore, -, -⟩ := materialize_parts h
  exact ⟨by omega, fun i k hk => by rw [hcore]; exact hk, fun t b ht => by rw [htabs]; exact ht⟩

theorem LocalExecutor.TablesNamed.of_grows (htab : ex.TablesNamed conv) (hg : ex.Grows ex')
    (hsame : ex'.base_tables = ex.base_tables) : ex'.TablesNamed conv := by
  intro t b ht
  rw [hsame] at ht
  obtain ⟨schema, hs, hk⟩ := htab t b ht
  exact ⟨schema, hs, hg.core b _ hk⟩

end Steps

/-! ## Joins -/

/-- One join of a FROM clause: the table on its right and its operator. -/
structure JoinStep where
  table : String
  op : JoinOp

/-- The joins of a FROM clause and the columns they end with, read off the
    clause and the schemas. -/
def joinSteps (conv : SqlConverter) :
    List JoinedSelectTable → List String → Option (List JoinStep × List String)
  | [], columns => some ([], columns)
  | join :: joins, columns =>
    match join.table with
    | .table name _ =>
      match conv.get_schema name with
      | some schema =>
        match extract_join_keys join.constraint columns schema.columns with
        | .ok (left_key, right_key) => do
          let (steps, final) ← joinSteps conv joins
            (SqlConverter.joinedColumns columns schema.columns right_key)
          some (⟨name, SqlConverter.joinOpFor join.operator left_key right_key columns.length
            schema.columns.length⟩ :: steps, final)
        | _ => none
      | none => none
    | _ => none

/-- One join of a chain: its right base table, its own node and its operator. -/
structure Link where
  right : Nat
  node : Nat
  op : JoinOp

/-- The children that the joins from node `c` on give to node `i`. -/
def newChildren (i : Nat) : Nat → List Link → List Nat
  | _, [] => []
  | c, l :: rest =>
    (if c = i then [l.node] else []) ++ (if l.right = i then [l.node] else []) ++
      newChildren i l.node rest

/-- The column on which the joins from node `c` on leave node `i` materialized. -/
def lastIndex (i : Nat) : Nat → List Link → Option Nat
  | _, [] => none
  | c, l :: rest =>
    match lastIndex i l.node rest with
    | some k => some k
    | none =>
      if l.right = i then some l.op.right_key else if c = i then some l.op.left_key else none

def lastNode : Nat → List Link → Nat
  | c, [] => c
  | _, l :: rest => lastNode l.node rest

/-- The join nodes from node `c` on; all of them are new. -/
def LocalExecutor.JoinNodes (ex : LocalExecutor) (old : Nat) : Nat → List Link → Prop
  | _, [] => True
  | c, l :: rest =>
    (∃ columns, ex.core l.node = some ⟨some (.join l.op), [c, l.right], "join", columns⟩) ∧
      c < l.node ∧ l.right < l.node ∧ old ≤ l.node ∧ JoinNodes ex old l.node rest

theorem LocalExecutor.JoinNodes.grows {ex ex' : LocalExecutor} {old old' : Nat}
    {links : List Link} {c : Nat} (h : ex.JoinNodes old' c links) (hold : old ≤ old')
    (hcore : ∀ i k, ex.core i = some k → ex'.core i = some k) : ex'.JoinNodes old c links := by
  induction links generalizing c with
  | nil => trivial
  | cons l rest ih =>
    obtain ⟨⟨columns, hk⟩, hc, hr, ho, hrest⟩ := h
    exact ⟨⟨columns, hcore _ _ hk⟩, hc, hr, Nat.le_trans hold ho, ih hrest⟩

/-- The graph after the joins from node `c` on have been added. -/
structure LocalExecutor.JoinsAdded (ex ex' : LocalExecutor) (c : Nat) (links : List Link) :
    Prop where
  grows : ex.Grows ex'
  children : ∀ i, ex'.children i = ex.children i ++ newChildren i c links
  state : ∀ i, ex'.stateOf i
    = match lastIndex i c links with
      | some k => some (.new [k])
      | none => ex.stateOf i
  joins : ex'.JoinNodes ex.nodes.length c links

theorem replicate_count_pair (a b i n : Nat) :
    List.replicate (([a, b] : List Nat).count i) n
      = (if a = i then [n] else []) ++ if b = i then [n] else [] := by
  rw [count_cons, count_cons, count_nil]
  by_cases ha : a = i
  · by_cases hb : b = i
    · rw [if_pos (beq_iff_eq.mpr ha), if_pos (beq_iff_eq.mpr hb), if_pos ha, if_pos hb]
      rfl
    · simp [ha, hb]
  · by_cases hb : b = i <;> simp [ha, hb]

theorem build_joins_ok {conv : SqlConverter} {ex ex' : LocalExecutor}
    {joins : List JoinedSelectTable} {cur : Nat} {columns' : List String}
    (h : conv.build_joins joins cur columns ex = (.ok (node, columns'), ex'))
    (htab : ex.TablesNamed conv) :
    ∃ links steps, joinSteps conv joins columns = some (steps, columns') ∧
      List.Forall₂ (fun (l : Link) (s : JoinStep) => l.op = s.op ∧
        ex'.base_tables.get? s.table = some l.right) links steps ∧
      ex.JoinsAdded ex' cur links ∧ node = lastNode cur links ∧ ex'.TablesNamed conv ∧
      ∀ t b, ex'.base_tables.get? t = some b →
        ex.base_tables.get? t = some b ∨ ∃ s ∈ steps, s.table = t := by
  induction joins generalizing ex cur columns with
  | nil =>
    cases h
    refine ⟨[], [], rfl, .nil, ⟨.refl _, ?_, ?_, trivial⟩, rfl, htab, fun t b ht => .inl ht⟩
    · intro i
      exact (append_nil _).symm
    · intro i
      rfl
  | cons join joins ih =>
    obtain ⟨⟨right, right_columns⟩, ex₁, h₁, h⟩ := Keeping.bind_ok_iff.mp h
    obtain ⟨⟨left_key, right_key⟩, ex₁', hk, h⟩ := Keeping.bind_ok_iff.mp h
    rw [Keeping.lift_apply, Prod.mk.injEq] at hk
    obtain ⟨hkeys, rfl⟩ := hk
    obtain ⟨v₁, ex₂, hm₁, h⟩ := Keeping.bind_ok_iff.mp h
    obtain ⟨v₂, ex₃, hm₂, h⟩ := Keeping.bind_ok_iff.mp h
    obtain ⟨idx, ex₄, hop, h⟩ := Keeping.bind_ok_iff.mp h
    have hg₂ := LocalExecutor.Grows.materialize (materialize_ok hm₁)
    have hg₃ := LocalExecutor.Grows.materialize (materialize_ok hm₂)
    have hg₄ := LocalExecutor.Grows.add_operator (add_operator_ok hop)
    obtain ⟨name, as_name, schema, htable, hschema, rfl, hname, hg₁, htab₁, hchi₁, hst₁, hnew₁⟩ :=
      build_select_table_ok h₁ htab
    obtain ⟨-, -, hlen₂, htabs₂, -, hchi₂, hst₂⟩ :=
      materialize_parts (materialize_ok hm₁)
    obtain ⟨-, -, hlen₃, htabs₃, -, hchi₃, hst₃⟩ :=
      materialize_parts (materialize_ok hm₂)
    obtain ⟨hidx, hlen₄, hpar, htabs₄, hcore₄, hchi₄, hst₄⟩ :=
      add_operator_parts (add_operator_ok hop)
    have hg₁₄ : ex₁.Grows ex₄ := hg₂.trans (hg₃.trans hg₄)
    have htabs : ex₄.base_tables = ex₁.base_tables := htabs₄.trans (htabs₃.trans htabs₂)
    obtain ⟨links, steps, hsteps, hfor, hadd, hnode, htab', hnew⟩ :=
      ih h (htab₁.of_grows hg₁₄ htabs)
    let l : Link := ⟨right, idx, SqlConverter.joinOpFor join.operator left_key right_key
      columns.length schema.columns.length⟩
    refine ⟨l :: links, ⟨name, l.op⟩ :: steps, ?_, ?_, ?_, hnode, htab', ?_⟩
    · simp only [joinSteps, htable, hschema, hkeys, hsteps]
      rfl
    · refine .cons ⟨rfl, hadd.grows.tables name right ?_⟩ hfor
      rw [htabs]
      exact hname
    · refine ⟨hg₁.trans (hg₁₄.trans hadd.grows), fun i => ?_, fun i => ?_, ?_⟩
      · -- the new join is a child of both its parents, once for each mention
        rw [hadd.children, hchi₄, hchi₃, hchi₂, hchi₁, replicate_count_pair,
          newChildren, append_assoc]
      · rw [hadd.state, lastIndex]
        cases lastIndex i idx links with
        | some k => rfl
        | none =>
          rw [hst₄, hst₃, hst₂, hst₁]
          by_cases hr : right = i
          · rw [if_pos hr, if_pos hr]
            rfl
          · rw [if_neg hr, if_neg hr]
            by_cases hc : cur = i
            · rw [if_pos hc, if_pos hc]
              rfl
            · rw [if_neg hc, if_neg hc]
      · have hlen₁ := hg₁.length_le
        refine ⟨⟨_, hadd.grows.core _ _ (by rw [hcore₄, if_pos rfl])⟩, ?_, ?_, ?_,
          hadd.joins.grows (by omega) fun _ _ hk => hk⟩
        · show cur < idx
          rw [hidx]
          exact hpar cur mem_cons_self
        · show right < idx
          rw [hidx]
          exact hpar right (mem_cons_of_mem _ mem_cons_self)
        · show ex.nodes.length ≤ idx
          omega
    · intro t b ht
      rcases hnew t b ht with hold | ⟨s, hs, hst⟩
      · rw [htabs] at hold
        rcases hnew₁ t b hold with hold | hnm
        · exact .inl hold
        · exact .inr ⟨_, mem_cons_self, hnm.symm⟩
      · exact .inr ⟨s, mem_cons_of_mem _ hs, hst⟩

/-! ## The projection -/

/-- The projection that a query needs, if any, and the key columns of its view. -/
def projectionPlan (body : SelectBody) (has_aggregate : Bool) (columns : List String) :
    Option (List Nat × List String) × List Nat :=
  let keys := extract_key_columns body.where_clause columns
  if SqlConverter.needs_projection body.columns && !has_aggregate then
    match get_projection body.columns columns with
    | none => (none, keys)
    | some (indices, names) =>
      let placed := keys.foldl (SqlConverter.placeKey columns) (indices, names, [])
      if placed.1 = List.range columns.length then (none, placed.2.2)
      else (some (placed.1, placed.2.1), placed.2.2)
  else
    (none, keys)

theorem build_projection_eq (primary_table : String) (body : SelectBody) (has_aggregate : Bool)
    (node : Nat) (columns : List String) :
    SqlConverter.build_projection primary_table body has_aggregate node columns
      = match projectionPlan body has_aggregate columns with
        | (none, keys) => pure (node, keys)
        | (some (emit, names), keys) =>
          Build.add_operator (primary_table ++ "_project") (.project ⟨emit, keys⟩) [node] names
            >>= fun node => pure (node, keys) := by
  unfold SqlConverter.build_projection projectionPlan
  split
  · split
    · rename_i hget
      simp only [hget]
    · rename_i indices names hget
      simp only [hget]
      split <;> rfl
  · rfl

end Noria.Sqlite

import Noria.Sqlite.Forms

/-! # What is accepted and what is supported

  `build_select` takes a select list, a FROM, a WHERE and a GROUP BY clause out of a parsed
  statement and drops the rest. Views of supported statements hold the statement's result as long as
  each batch leads to a content that fits (`supported_views_right`). Every other statement is
  accepted all the same: of `SELECT DISTINCT g` the view holds duplicates (`distinct_dropped`).
-/

namespace Noria.Sqlite

open Bag OperatorType SqlConverter Multiset LocalExecutor

variable {M M' : Multiset VRow} {batches : List Records}

/-! ## Views of supported statements -/

section Views

variable {env : SqlEnv} {names : List String} {E : SqlMeaning env names} {ints : Nat → Prop}
  {stmt : SelectStatement}

theorem result_eq_all_rows (hsup : Supported E ints stmt) {table : Multiset VRow}
    (hfit : Fitting E stmt table) : E.result stmt table = E.all_rows stmt.core table := by
  have hcore : E.core_rows stmt.core table = E.all_rows stmt.core table := by
    unfold SqlMeaning.core_rows
    split
    · next hdistinct => exact dedup_eq_self.mpr (hfit.distinct hdistinct)
    · rfl
  have hcompound : E.compound_rows stmt table = E.all_rows stmt.core table := by
    unfold SqlMeaning.compound_rows
    rw [hsup.compounds, List.foldl_nil, hcore]
  unfold SqlMeaning.result
  rw [hcompound]
  split
  · rfl
  · next limit hlimit =>
    have hoffset : (limit.offset.map E.offset_of).getD 0 = 0 := by
      cases ho : limit.offset with
      | none => rfl
      | some o => exact hsup.offset limit o hlimit ho
    rw [hoffset]
    exact E.cut_eq_self fun n hn => hfit.limit limit n hlimit hn

theorem selected_zero (body : SelectBody) : E.selected body 0 = 0 := by
  unfold SqlMeaning.selected
  split <;> rfl

theorem all_rows_zero (hform : Form env names ints stmt.core) : E.all_rows stmt.core 0 = 0 := by
  cases hform with
  | @all item hitem hcols hgroup hhaving =>
    rw [all_rows_of_plain hcols hgroup hhaving (star_not_summarizes hitem), selected_zero]
    rfl
  | columns hne hitems hcols hgroup hhaving =>
    rw [all_rows_of_plain hcols hgroup hhaving (hitems.not_summarizes E), selected_zero]
    rfl
  | grouped hne hitems hexprs hgroup hcall hmodified hcols =>
    have hgroups : E.groups stmt.core.body 0 = 0 := by
      rw [groups_eq hexprs hgroup, selected_zero]
      rfl
    unfold SqlMeaning.all_rows SqlMeaning.kept_groups
    rw [if_pos (grouped_of_group_by hgroup), hgroups]
    split <;> rfl

theorem fitting_zero (hform : Form env names ints stmt.core) : Fitting E stmt 0 where
  where_right := fun _ _ v hv => absurd hv (notMem_zero v)
  distinct := by
    intro _
    rw [all_rows_zero hform]
    exact nodup_zero
  having := by
    intro e he group hgroup
    cases hform with
    | all hitem hcols hg hhaving => rw [hhaving] at he; cases he
    | columns hne hitems hcols hg hhaving => rw [hhaving] at he; cases he
    | grouped hne hitems hexprs hg hcall hmodified hcols =>
      rw [groups_eq hexprs hg, selected_zero] at hgroup
      exact absurd hgroup (notMem_zero group)
  limit := by
    intro limit n _ _
    rw [all_rows_zero hform]
    exact Nat.zero_le n
  counted := by
    intro name e as_name _ v hv
    rw [selected_zero] at hv
    exact absurd hv (notMem_zero v)
  in_range := by
    intro info _ g
    rw [selected_zero]
    simp [groupOf, AggregateFunc.total]

theorem Loads.holds {s : Format} (h : Loads E s stmt M batches M') (hM : ∀ v ∈ M, s.Holds v) :
    ∀ v ∈ M', s.Holds v := by
  induction h with
  | nil M => exact hM
  | batch hfit happ _ _ ih =>
    refine ih (happ.forall_mem hM fun c hc => ?_)
    obtain ⟨r, hr, rfl⟩ := List.mem_map.mp hc
    rw [Record.elem_change]
    exact (hfit r hr).holds

theorem Loads.fitting {s : Format} (h : Loads E s stmt M batches M') (hM : Fitting E stmt M) :
    Fitting E stmt M' := by
  induction h with
  | nil M => exact hM
  | batch _ _ hfitting _ ih => exact ih hfitting

section Run

variable {s : Format} {filter tail : List OperatorType} {keys : List Nat}
  (hfilter : filter_ops env names stmt.core.body.where_clause = .ok filter)
  (htail : Tail E s stmt tail keys) (hs : s.width = names.length)

include hfilter

theorem evalAll_plan (hfit : Fitting E stmt M) :
    evalAll (filter ++ tail) M = evalAll tail (E.selected stmt.core.body M) := by
  rw [evalAll_append, filter_ops_selected E hfit hfilter]

include htail

theorem rangedAll_plan (hfit : Fitting E stmt M) : RangedAll (filter ++ tail) M := by
  refine rangedAll_append.mpr ⟨filter_ops_ranged hfilter M, ?_⟩
  rw [filter_ops_selected E hfit hfilter]
  exact htail.ranged M hfit

include hs

theorem Loads.shows {ex : LocalExecutor} {table : String} {v : Nat}
    (h : Loads E s stmt M batches M') (hM : Fitting E stmt M)
    (hshows : ex.Shows table v (filter ++ tail) keys M) :
    ∃ ex', ex.apply_writes (batches.map fun records => (table, records)) = some ex' ∧
      ex'.Shows table v (filter ++ tail) keys M' := by
  obtain ⟨hacc, hformat⟩ := filter_ops_accepts hfilter hs
  have haccepts : AcceptsAll (filter ++ tail) s := by
    refine acceptsAll_append.mpr ⟨hacc, ?_⟩
    rw [hformat]
    exact htail.accepts
  have hkeys : ∀ c ∈ keys, c < (formatAll (filter ++ tail) s).width := by
    rw [formatAll_append, hformat]
    exact htail.keys_lt
  induction h generalizing ex with
  | nil M => exact ⟨ex, rfl, hshows⟩
  | batch hfit happ hfitting _ ih =>
    obtain ⟨ex₁, hex₁, hshows₁⟩ := hshows.apply_write haccepts hkeys hfit
      (rangedAll_plan hfilter htail hM) (rangedAll_plan hfilter htail hfitting) happ
    obtain ⟨ex', hex', hshows'⟩ := ih hfitting hshows₁
    refine ⟨ex', ?_, hshows'⟩
    simp only [List.map_cons, apply_writes, List.foldlM_cons, hex₁,
      Option.bind_eq_bind, Option.bind_some]
    exact hex'

end Run

end Views

/-- **Views of supported statements.** Let a statement over one table be supported and accepted
    while no view reads the table. After any number of exact batches that each lead to a fitting
    content, the view holds the rows that the statement returns, in its first columns. -/
theorem supported_views_right {env : SqlEnv} {conv : SqlConverter} {schema : TableSchema}
    (E : SqlMeaning env schema.columns) {ints : Nat → Prop} {stmt : SelectStatement}
    (hsup : Supported E ints stmt) {table sql : String} {ex ex' : LocalExecutor}
    {view : ViewHandle} (hone : OneTable stmt.core.body table)
    (hschema : conv.get_schema table = some schema) (hunread : ex.Unread table)
    (hparse : env.parse sql = .ok (some stmt.cmd))
    (hconv : convert_select env conv sql ex = (.ok view, ex')) {batches : List Records}
    {M : Multiset VRow} (hloads : Loads E ⟨schema.columns.length, ints⟩ stmt 0 batches M) :
    ∃ ex'' st, ex'.apply_writes (batches.map fun records => (table, records)) = some ex'' ∧
      ex''.stateOf view.node = some st ∧
      st.bag.map (List.take (stmt.core.body.width schema.columns)) = E.result stmt M := by
  have hbuild : build_select env conv (.select stmt.core.body) ex = (.ok view, ex') := by
    rw [← hconv]
    unfold convert_select
    rw [hparse]
    rfl
  obtain ⟨idx, p, b, hplan, hline, hbase⟩ := build_select_unread hone hschema hunread hbuild
  obtain ⟨filter, tail, hfilter, hops, htail⟩ := tail_of_plan (E := E) hsup.form hplan
  have hfresh : ∀ op ∈ filter ++ tail, op.shape = op :=
    List.forall_mem_append.mpr ⟨filter_ops_fresh hfilter, htail.fresh⟩
  have hzero : Fitting E stmt 0 := fitting_zero hsup.form
  have hshows : ex'.Shows table view.node (filter ++ tail) p.key_columns 0 := by
    refine ⟨b, filter ++ tail, .new p.key_columns, hbase, ?_, rfl, tracksAll_zero hfresh,
      MemoryState.ok_new _, rfl, ?_⟩
    · rw [← hops]
      exact hline
    · rw [evalAll_zero]
      exact MemoryState.bag_new _
  obtain ⟨ex'', hex'', hshows'⟩ := hloads.shows hfilter htail rfl hzero hshows
  obtain ⟨st, hst, hbag⟩ := hshows'.stateOf
  have hfit : Fitting E stmt M := hloads.fitting hzero
  have hholds : ∀ v ∈ M, Format.Holds ⟨schema.columns.length, ints⟩ v :=
    hloads.holds fun v hv => absurd hv (notMem_zero v)
  refine ⟨ex'', st, hex'', hst, ?_⟩
  rw [hbag, evalAll_plan hfilter hfit, htail.right M hfit hholds, result_eq_all_rows hsup hfit]

/-! ### A count by group -/

/-- `SELECT g, COUNT(*) FROM t GROUP BY g` -/
def countByGroup : SelectBody :=
  ⟨[.expr (.id "g") none, .expr (.functionCallStar "COUNT") none],
    some ⟨some (.table "t" none), none⟩, none, some [.id "g"]⟩

def SelectBody.alone (body : SelectBody) (distinct : Bool) : SelectStatement :=
  ⟨⟨body, distinct, none, false⟩, [], none⟩

def groupTable : SqlConverter := ⟨[⟨"t", ["g"]⟩]⟩

theorem countByGroup_supported :
    Supported (plainSql (queryEnv countByGroup) ["g"]) (fun _ => False)
      (countByGroup.alone false) where
  compounds := rfl
  offset := fun limit o h => by cases h
  form := by
    have hcols : Columns ["g"] [(.id "g", none)] [0] := .cons (by decide) .nil
    exact .grouped (List.cons_ne_nil _ _) hcols hcols rfl (.count_star rfl) rfl rfl

/-- Without clauses that are dropped, a content fits if its rows can be counted. -/
theorem countByGroup_fitting {M : Multiset VRow} (hM : (M.card : Int) < 2 ^ 63) :
    Fitting (plainSql (queryEnv countByGroup) ["g"]) (countByGroup.alone false)
      M where
  where_right := fun e h => by cases h
  distinct := fun h => by cases h
  having := fun e h => by cases h
  limit := fun limit n h => by cases h
  counted := by
    -- the only call is COUNT(*)
    intro name e as_name h
    simp [SelectBody.alone, countByGroup] at h
  in_range := by
    intro info hinfo
    cases hinfo
    intro g
    have hcard : (groupOf [0] M g).card ≤ M.card := card_le_card (filter_le _ _)
    have htotal : AggregateFunc.count.total (groupOf [0] M g) = 0 := by
      refine sum_eq_zero fun x hx => ?_
      obtain ⟨v, -, rfl⟩ := mem_map.mp hx
      rfl
    show ((groupOf [0] M g).card : Int) < 2 ^ 63 ∧
      -2 ^ 63 ≤ AggregateFunc.count.total (groupOf [0] M g) ∧
      AggregateFunc.count.total (groupOf [0] M g) < 2 ^ 63
    rw [htotal]
    omega

/-- Two groups, one with a duplicate; then one of the duplicates goes, spelled
    as another type of integer, and the other group grows. -/
theorem twoGroups_loads :
    Loads (plainSql (queryEnv countByGroup) ["g"]) ⟨1, fun _ => False⟩
      (countByGroup.alone false) 0
      [[.positive [.int 5], .positive [.int 7], .positive [.int 5]],
        [.negative [.bigInt 5], .positive [.int 7]]] {[.int 7], [.int 7], [.int 5]} := by
  have hfit : ∀ d : DataType, Format.Fits ⟨1, fun _ => False⟩ [d] :=
    fun d => ⟨rfl, fun c hc => hc.elim⟩
  have hinserted : Applies (0 : Multiset VRow) [.ins [.int 5], .ins [.int 7], .ins [.int 5]]
      {[.int 5], [.int 7], [.int 5]} := .ins (.ins (.ins (.nil _)))
  have hchanged : Applies ({[.int 5], [.int 7], [.int 5]} : Multiset VRow)
      [.del [.int 5], .ins [.int 7]] {[.int 7], [.int 7], [.int 5]} := .del (.ins (.nil _))
  refine .batch ?_ hinserted (countByGroup_fitting (by decide))
    (.batch ?_ hchanged (countByGroup_fitting (by decide)) (.nil _))
  · simp [hfit]
  · simp [hfit]

/-- The view of a new executor holds the counts. -/
theorem group_counts_shown : ∃ view ex' ex'' st,
    convert_select (queryEnv countByGroup) groupTable "" .new = (.ok view, ex') ∧
      ex'.apply_writes
        [("t", [.positive [.int 5], .positive [.int 7], .positive [.int 5]]),
          ("t", [.negative [.bigInt 5], .positive [.int 7]])] = some ex'' ∧
      ex''.stateOf view.node = some st ∧
      st.bag.map (List.take 2) =
        (plainSql (queryEnv countByGroup) ["g"]).result (countByGroup.alone false)
          {[.int 7], [.int 7], [.int 5]} := by
  obtain ⟨view, ex', hconv⟩ : ∃ view ex',
      convert_select (queryEnv countByGroup) groupTable "" .new =
        (.ok view, ex') := ⟨_, _, rfl⟩
  have hone : OneTable countByGroup "t" := ⟨none, none, rfl, rfl⟩
  have hschema : groupTable.get_schema "t" = some ⟨"t", ["g"]⟩ := by decide
  have hunread : new.Unread "t" := fun b h => by cases h
  obtain ⟨ex'', st, hwrites, hst, hbag⟩ := supported_views_right _ countByGroup_supported hone
    hschema hunread rfl hconv twoGroups_loads
  exact ⟨view, ex', ex'', st, hconv, hwrites, hst, hbag⟩

/-! ### DISTINCT -/

/-- `SELECT g FROM t` -/
def groupColumn : SelectBody :=
  ⟨[.expr (.id "g") none], some ⟨some (.table "t" none), none⟩, none, none⟩

/-- **DISTINCT is dropped.** `SELECT DISTINCT g FROM t` is accepted, and of
    two equal rows the view holds both. -/
theorem distinct_dropped : ∃ view ex' ex'' st,
    convert_select (queryEnv groupColumn) groupTable "" .new = (.ok view, ex') ∧
      ex'.apply_writes [("t", [.positive [.int 5], .positive [.int 5]])] = some ex'' ∧
      ex''.stateOf view.node = some st ∧
      st.bag.map (List.take 1) ≠
        (plainSql (queryEnv groupColumn) ["g"]).result (groupColumn.alone true)
          {[.int 5], [.int 5]} := by
  obtain ⟨view, ex', hconv⟩ : ∃ view ex',
      convert_select (queryEnv groupColumn) groupTable "" .new =
        (.ok view, ex') := ⟨_, _, rfl⟩
  cases hconv
  refine ⟨_, _, _, _, rfl, rfl, rfl, fun heq => ?_⟩
  have hnodup : ((plainSql (queryEnv groupColumn) ["g"]).result
      (groupColumn.alone true) {[.int 5], [.int 5]}).Nodup := by
    have hresult : (plainSql (queryEnv groupColumn) ["g"]).result
        (groupColumn.alone true) {[.int 5], [.int 5]} =
        ((plainSql (queryEnv groupColumn) ["g"]).all_rows
          (groupColumn.alone true).core {[.int 5], [.int 5]}).dedup := by
      simp only [SqlMeaning.result, SqlMeaning.compound_rows, SqlMeaning.core_rows,
        SelectBody.alone, List.foldl_nil, if_true]
    rw [hresult]
    exact nodup_dedup _
  rw [← heq] at hnodup
  revert hnodup
  decide

end Noria.Sqlite

import Noria.Sqlite.Aggregate
import Noria.Sqlite.Graph

/-! # Propagation through trees of single-parent operators

  The delta laws are composed along the recursion of `propagate`: a batch that takes a node from its
  old content to its new one takes every node below it from old to new, and touches nothing else.
  From that, for any sequence of writes, the materialized states hold what evaluating the operators
  from scratch gives.
-/

namespace Noria.Sqlite

open Bag List Option

variable {row : Row} {s : Format} {op : OperatorType} {M' : Multiset VRow} {c n src : Nat}
  {records : Records} {M : Multiset VRow} {n' : Node}

/-! ## Operators with one parent -/

namespace OperatorType

/-- The format of the rows an operator emits. -/
def outFormat : OperatorType → Format → Format
  | .filter _, s => s
  | .project op, s => ⟨op.emit.length, fun c => ∃ e, op.emit[c]? = some e ∧ s.intCol e⟩
  | .join op, _ => ⟨op.emit.length, fun _ => False⟩
  | .aggregate op, s =>
    ⟨op.group_by.length + 1,
      fun c => c = op.group_by.length ∨ ∃ e, op.group_by[c]? = some e ∧ s.intCol e⟩
  | .identity _, s => s

/-- Filter, project, identity, COUNT or SUM over columns that the rows of
    the parent have; the summed column holds integers. -/
def Accepts : OperatorType → Format → Prop
  | .filter op, s => ∀ c ∈ op.condition.columns, c < s.width
  | .project op, s => ∀ c ∈ op.emit, c < s.width
  | .join _, _ => False
  | .aggregate op, s =>
    AggregateOp.Counter op.func ∧ (∀ c ∈ op.group_by, c < s.width) ∧
      ∀ c, op.func.summed = some c → s.intCol c
  | .identity _, _ => True

/-- Counts and sums over the parent's content are `i64`s. -/
def Ranged : OperatorType → Multiset VRow → Prop
  | .aggregate op, M => InRange op.group_by op.func M
  | _, _ => True

/-- The counters inside the operator are those of the parent's content. -/
def Tracks : OperatorType → Multiset VRow → Prop
  | .aggregate op, M => op.Tracks M
  | _, _ => True

theorem eval_shape (op : OperatorType) : op.shape.eval = op.eval := by
  cases op <;> rfl

theorem outFormat_shape (op : OperatorType) : op.shape.outFormat = op.outFormat := by
  cases op <;> rfl

theorem accepts_shape (op : OperatorType) : op.shape.Accepts = op.Accepts := by
  cases op <;> rfl

theorem ranged_shape (op : OperatorType) : op.shape.Ranged = op.Ranged := by
  cases op <;> rfl

end OperatorType

theorem Row.getElem?_cols {r s : Row} {cols : List Nat} (h : r.cols cols = some s) (i : Nat) :
    s[i]? = cols[i]?.bind fun c => r[c]? := by
  induction cols generalizing s i with
  | nil =>
    cases h
    rfl
  | cons c cols ih =>
    simp only [Row.cols, mapM_cons, Option.bind_eq_bind, Option.bind_eq_some_iff,
      Option.pure_def, Option.some.injEq] at h
    obtain ⟨d, hd, ds, hds, rfl⟩ := h
    cases i with
    | zero => simp [hd]
    | succ i => simpa using ih hds i

theorem StateKey.values_from_row {cols : List Nat} {k : StateKey} (h : from_row row cols = some k) :
    row.cols cols = some k.values := by
  unfold from_row at h
  split at h
  · rename_i hl
    obtain ⟨c, rfl⟩ := length_eq_one_iff.mp hl
    rw [map_eq_some_iff] at h
    obtain ⟨d, hd, rfl⟩ := h
    simp only [headD_cons] at hd
    simp [Row.cols, hd, values]
  · split at h
    · rename_i vs hvs
      split at h
      · cases h
        exact hvs
      · cases h
    · cases h

theorem Format.Fits.cols {row' : Row} {cols : List Nat} (hfit : s.Fits row)
    (h : row.cols cols = some row') {e : Nat} (hc : cols[c]? = some e) (he : s.intCol e) :
    ∃ d, row'[c]? = some d ∧ d.is_integer = true := by
  obtain ⟨d, hd, hint⟩ := hfit.integer e he
  refine ⟨d, ?_, hint⟩
  rw [Row.getElem?_cols h, hc]
  exact hd

theorem OperatorType.process_delta (hacc : op.Accepts s) (hfit : ∀ r ∈ records, s.Fits r.row)
    (hM : op.Ranged M) (hM' : op.Ranged M') (htracks : op.Tracks M)
    (happ : Applies M records.changes M') (parent : Nat) (state : Option StateSnapshot) :
    ∃ op' results, op.process parent records state = some (op', ⟨results, []⟩) ∧
      op'.Tracks M' ∧ (∀ r ∈ results, (op.outFormat s).Fits r.row) ∧
      Applies (op.eval M) (Records.changes results) (op.eval M') := by
  cases op with
  | filter op =>
    have hcols : ∀ r ∈ records, ∀ c ∈ op.condition.columns, c < r.row.length := by
      intro r hr c hc
      rw [(hfit r hr).length_eq]
      exact hacc c hc
    obtain ⟨results, hres, hsub, happ'⟩ := op.process_delta hcols happ
    refine ⟨.filter op, results, ?_, trivial, fun r hr => hfit r (hsub r hr), happ'⟩
    simp only [process, hres, map_some]
  | project op =>
    have hcols : ∀ r ∈ records, ∀ c ∈ op.emit, c < r.row.length := by
      intro r hr c hc
      rw [(hfit r hr).length_eq]
      exact hacc c hc
    obtain ⟨results, hres, hrow, happ'⟩ := op.process_delta hcols happ
    refine ⟨.project op, results, ?_, trivial, ?_, happ'⟩
    · simp only [process, hres, map_some]
    · intro r hr
      obtain ⟨r₀, hr₀, hr'⟩ := hrow r hr
      refine ⟨Row.length_cols hr', ?_⟩
      rintro c ⟨e, hc, he⟩
      exact (hfit r₀ hr₀).cols hr' hc he
  | join op => exact hacc.elim
  | aggregate op =>
    obtain ⟨hfunc, hgroup, hsum⟩ := hacc
    have hreads : ∀ r ∈ records, op.Reads r.row := by
      intro r hr
      refine ⟨fun c hc => ?_, fun c hc => (hfit r hr).integer c (hsum c hc)⟩
      rw [(hfit r hr).length_eq]
      exact hgroup c hc
    obtain ⟨state', results, hres, htr', hrow, happ'⟩ :=
      AggregateOp.process_shown hreads hM hM' htracks happ
    rw [AggregateOp.shown_eq_over hfunc] at happ'
    refine ⟨.aggregate { op with internal_state := state', calls := op.calls + 1 }, results,
      ?_, htr', ?_, happ'⟩
    · simp only [process, hres, map_some]
    · intro r hr
      obtain ⟨r₀, hr₀, key, hkey, x, hx⟩ := hrow r hr
      have hcols := StateKey.values_from_row hkey
      have hlen : key.values.length = op.group_by.length := Row.length_cols hcols
      refine ⟨by rw [hx, length_append, hlen]; rfl, ?_⟩
      rintro c (rfl | ⟨e, hc, he⟩)
      · exact ⟨.bigInt x, by rw [hx, ← hlen]; simp, rfl⟩
      · obtain ⟨d, hd, hint⟩ := (hfit r₀ hr₀).cols hcols hc he
        refine ⟨d, ?_, hint⟩
        have hlt : c < key.values.length := (List.getElem?_eq_some_iff.mp hd).1
        rw [hx, getElem?_append_left hlt]
        exact hd
  | identity op => exact ⟨.identity op, records, rfl, trivial, hfit, happ⟩

/-! ## Forests -/

theorem OperatorType.join_of_shape {j : JoinOp} (h : op.shape = (OperatorType.join j).shape) :
    op = .join j := by
  cases op with
  | join j' => exact h
  | aggregate op => cases h
  | filter op => cases h
  | project op => cases h
  | identity op => cases h

theorem Node.operator_of_shape {n : Node} (h : n'.shape = n.shape) {op' : OperatorType}
    (hop : n'.operator = some op') : ∃ op, n.operator = some op ∧ op.shape = op'.shape := by
  have : n'.operator.map OperatorType.shape = n.operator.map OperatorType.shape :=
    congrArg Node.operator h
  rw [hop, map_some] at this
  exact map_eq_some_iff.mp this.symm

theorem Node.state_of_shape {n : Node} (h : n'.shape = n.shape) {st' : MemoryState}
    (hst : n'.state = some st') : ∃ st, n.state = some st ∧ st.key_columns = st'.key_columns := by
  have : n'.state.map (fun st => MemoryState.new st.key_columns)
      = n.state.map fun st => MemoryState.new st.key_columns := congrArg Node.state h
  rw [hst, map_some] at this
  obtain ⟨st, hst, heq⟩ := map_eq_some_iff.mp this.symm
  have hkeys : (MemoryState.new st.key_columns).key_columns
      = (MemoryState.new st'.key_columns).key_columns := by rw [heq]
  exact ⟨st, hst, hkeys⟩

theorem Node.parents_of_shape {n : Node} (h : n'.shape = n.shape) : n'.parents = n.parents := by
  have : n'.shape.parents = n.shape.parents := by rw [h]
  exact this

namespace LocalExecutor

/-- Base tables, and below them nodes with one parent whose operator can
    read the parent's rows. Node `n` has rows of the format `F n`. -/
structure Forest (ex : LocalExecutor) (F : Nat → Format) : Prop where
  wf : ex.WellFormed
  node : ∀ {n : Nat} {node : Node}, ex.nodes[n]? = some node →
    (node.operator = none ∧ node.parents = []) ∨
      ∃ op p, node.operator = some op ∧ node.parents = [p] ∧ op.Accepts (F p) ∧
        F n = op.outFormat (F p)
  keys : ∀ {n : Nat} {node : Node} {st : MemoryState}, ex.nodes[n]? = some node →
    node.state = some st → ∀ c ∈ st.key_columns, c < (F n).width

/-- Contents that follow from each other by evaluating the operators. -/
structure Evaluates (ex : LocalExecutor) (C : Nat → Multiset VRow) : Prop where
  eval : ∀ {n : Nat} {node : Node} {op : OperatorType} {p : Nat}, ex.nodes[n]? = some node →
    node.operator = some op → node.parents = [p] → C n = op.eval (C p)
  ranged : ∀ {n : Nat} {node : Node} {op : OperatorType} {p : Nat}, ex.nodes[n]? = some node →
    node.operator = some op → node.parents = [p] → op.Ranged (C p)

/-- The same of the nodes below `root` only: they form a tree, whatever the rest of the graph is. -/
structure ForestAt (ex : LocalExecutor) (F : Nat → Format) (root : Nat) : Prop where
  wf : ex.WellFormed
  child : ∀ {p c : Nat}, ex.Reaches root p → c ∈ ex.children p →
    ∃ node op, ex.nodes[c]? = some node ∧ node.operator = some op ∧ node.parents = [p] ∧
      op.Accepts (F p) ∧ F c = op.outFormat (F p)
  keys : ∀ {n : Nat} {node : Node} {st : MemoryState}, ex.Reaches root n →
    ex.nodes[n]? = some node → node.state = some st → ∀ c ∈ st.key_columns, c < (F n).width

/-- Contents below `root` that follow from each other. -/
structure EvaluatesAt (ex : LocalExecutor) (C : Nat → Multiset VRow) (root : Nat) : Prop where
  eval : ∀ {p c : Nat} {node : Node} {op : OperatorType}, ex.Reaches root p →
    ex.nodes[c]? = some node → node.operator = some op → node.parents = [p] → C c = op.eval (C p)
  ranged : ∀ {p c : Nat} {node : Node} {op : OperatorType}, ex.Reaches root p →
    ex.nodes[c]? = some node → node.operator = some op → node.parents = [p] → op.Ranged (C p)

/-- The state of node `n`, if it has one, holds exactly `M`. -/
def StateAt (ex : LocalExecutor) (n : Nat) (M : Multiset VRow) : Prop :=
  ∀ node st, ex.nodes[n]? = some node → node.state = some st → st.Ok ∧ st.bag = M

/-- The counters inside the operator of node `n` are those of its parent's content. -/
def OpAt (ex : LocalExecutor) (n : Nat) (C : Nat → Multiset VRow) : Prop :=
  ∀ node op p, ex.nodes[n]? = some node → node.operator = some op → node.parents = [p] →
    op.Tracks (C p)

variable {ex ex' : LocalExecutor} {F : Nat → Format} {C C' : Nat → Multiset VRow}

theorem Forest.at_root (hF : ex.Forest F) (root : Nat) : ex.ForestAt F root where
  wf := hF.wf
  child := by
    intro p c _ hc
    have hp := hF.wf.mem_children.mp hc
    have hn := getElem?_eq_getElem (lt_length_of_parent hp)
    rw [parents, hn] at hp
    rcases hF.node hn with ⟨-, hpar⟩ | ⟨op, q, hop, hpar, hacc, hfmt⟩
    · simp [hpar] at hp
    · have hpq : p = q := by simpa [hpar] using hp
      subst hpq
      exact ⟨_, op, hn, hop, hpar, hacc, hfmt⟩
  keys _ hn hst := hF.keys hn hst

theorem Evaluates.at_root (hC : ex.Evaluates C) (root : Nat) : ex.EvaluatesAt C root :=
  ⟨fun _ => hC.eval, fun _ => hC.ranged⟩

theorem ForestAt.below {root : Nat} (hF : ex.ForestAt F root) (hr : ex.Reaches root c) :
    ex.ForestAt F c := ⟨hF.wf, fun hp => hF.child (hr.trans hp), fun hn => hF.keys (hr.trans hn)⟩

theorem EvaluatesAt.below {root : Nat} (hC : ex.EvaluatesAt C root) (hr : ex.Reaches root c) :
    ex.EvaluatesAt C c := ⟨fun hp => hC.eval (hr.trans hp), fun hp => hC.ranged (hr.trans hp)⟩

theorem ForestAt.sameShape {root : Nat} (h : SameShape ex ex') (hF : ex.ForestAt F root) :
    ex'.ForestAt F root where
  wf := h.wellFormed hF.wf
  child := by
    intro p c hr hc
    rw [h.reaches] at hr
    rw [h.children_eq] at hc
    obtain ⟨node, op, hn, hop, hpar, hacc, hfmt⟩ := hF.child hr hc
    obtain ⟨node', hn', hsh⟩ := h.node hn
    obtain ⟨op', hop', hshape⟩ := Node.operator_of_shape hsh.symm hop
    refine ⟨node', op', hn', hop', (Node.parents_of_shape hsh).trans hpar, ?_, ?_⟩
    · rw [← op'.accepts_shape, hshape, op.accepts_shape]
      exact hacc
    · rw [← op'.outFormat_shape, hshape, op.outFormat_shape]
      exact hfmt
  keys := by
    intro n node' st' hr hn' hst' c hc
    rw [h.reaches] at hr
    obtain ⟨node, hn, hsh⟩ := h.symm.node hn'
    obtain ⟨st, hst, hkeys⟩ := Node.state_of_shape hsh.symm hst'
    exact hF.keys hr hn hst c (by rw [hkeys]; exact hc)

theorem EvaluatesAt.sameShape {root : Nat} (h : SameShape ex ex') (hC : ex.EvaluatesAt C root) :
    ex'.EvaluatesAt C root where
  eval := by
    intro p c node' op' hr hn' hop' hpar'
    rw [h.reaches] at hr
    obtain ⟨node, hn, hsh⟩ := h.symm.node hn'
    obtain ⟨op, hop, hshape⟩ := Node.operator_of_shape hsh.symm hop'
    rw [← op'.eval_shape, ← hshape, op.eval_shape]
    exact hC.eval hr hn hop ((Node.parents_of_shape hsh).trans hpar')
  ranged := by
    intro p c node' op' hr hn' hop' hpar'
    rw [h.reaches] at hr
    obtain ⟨node, hn, hsh⟩ := h.symm.node hn'
    obtain ⟨op, hop, hshape⟩ := Node.operator_of_shape hsh.symm hop'
    rw [← op'.ranged_shape, ← hshape, op.ranged_shape]
    exact hC.ranged hr hn hop ((Node.parents_of_shape hsh).trans hpar')

theorem StateAt.congr (h : ex.StateAt n M) (heq : ex'.nodes[n]? = ex.nodes[n]?) :
    ex'.StateAt n M := by
  unfold StateAt
  rw [heq]
  exact h

theorem OpAt.congr (h : ex.OpAt n C) (heq : ex'.nodes[n]? = ex.nodes[n]?) : ex'.OpAt n C := by
  unfold OpAt
  rw [heq]
  exact h

namespace ForestAt

variable {root : Nat}

theorem parents_eq_of_child (hF : ex.ForestAt F root) {p : Nat} (hr : ex.Reaches root p)
    (h : c ∈ ex.children p) : ex.parents c = [p] := by
  obtain ⟨node, op, hn, -, hpar, -⟩ := hF.child hr h
  rw [parents, hn]
  exact hpar

theorem nodup_children (hF : ex.ForestAt F root) : (ex.children root).Nodup := by
  rw [nodup_iff_count_le_one]
  intro c
  by_cases hc : c ∈ ex.children root
  · rw [hF.wf.edges, hF.parents_eq_of_child .refl hc, count_singleton_self]
  · rw [count_eq_zero_of_not_mem hc]
    exact Nat.zero_le _

theorem reaches_linear (hF : ex.ForestAt F root) {a b : Nat} (hra : ex.Reaches root a)
    (hrb : ex.Reaches root b) (ha : ex.Reaches a n) (hb : ex.Reaches b n) :
    ex.Reaches a b ∨ ex.Reaches b a := by
  induction ha with
  | refl => exact .inr hb
  | @tail m n ham hmn ih =>
    rcases hb.cases_tail with rfl | ⟨m', hbm', hm'n⟩
    · exact .inl (ham.tail hmn)
    · have hmm : [m] = [m'] := by
        rw [← hF.parents_eq_of_child (hra.trans ham) hmn,
          ← hF.parents_eq_of_child (hrb.trans hbm') hm'n]
      cases hmm
      exact ih hbm'

theorem child_unique (hF : ex.ForestAt F root) {c' : Nat} (hc : c ∈ ex.children root)
    (hc' : c' ∈ ex.children root) (hn : ex.Reaches c n) (hn' : ex.Reaches c' n) : c = c' := by
  -- a child strictly below another would have its parent there too
  have key : ∀ {a b : Nat}, a ∈ ex.children root → b ∈ ex.children root → ex.Reaches a b →
      a = b := by
    intro a b ha hb hab
    rcases hab.cases_tail with rfl | ⟨m, ham, hmb⟩
    · rfl
    · have hm : [m] = [root] := by
        rw [← hF.parents_eq_of_child (.head ha ham) hmb, ← hF.parents_eq_of_child .refl hb]
      cases hm
      have hle := hF.wf.le_of_reaches ham
      have hlt := hF.wf.child_gt ha
      omega
  rcases hF.reaches_linear (.single hc) (.single hc') hn hn' with h | h
  · exact key hc hc' h
  · exact (key hc' hc h).symm

end ForestAt

/-! ## One batch -/

theorem updateState_bag (hlt : n < ex.nodes.length) (hst : ex.StateAt n M)
    (hkeys : ∀ node st, ex.nodes[n]? = some node → node.state = some st →
      ∀ r ∈ records, ∀ c ∈ st.key_columns, c < r.row.length) (happ : Applies M records.changes M') :
    ∃ ex', ex.updateState n records = some ex' ∧ ex'.StateAt n M' ∧
      ∃ node node', ex.nodes[n]? = some node ∧ ex'.nodes[n]? = some node' ∧
        node'.operator = node.operator ∧ node'.parents = node.parents ∧
        node'.children = node.children := by
  have hn := getElem?_eq_getElem hlt
  cases hs : (ex.nodes[n]).state with
  | none =>
    refine ⟨ex, ?_, ?_, _, _, hn, hn, rfl, rfl, rfl⟩
    · simp [updateState, hn, hs]
    · intro node st hnode hstate
      rw [hn] at hnode
      cases hnode
      rw [hs] at hstate
      cases hstate
  | some st =>
    obtain ⟨hok, hbag⟩ := hst _ st hn hs
    obtain ⟨st', hst', -, hok', hbag'⟩ := MemoryState.process_records_bag hok
      (hkeys _ st hn hs) (by rw [hbag]; exact happ)
    have hnode' : (ex.setState n st').nodes[n]? = some { ex.nodes[n] with state := some st' } := by
      rw [nodes_setState, if_pos rfl, hn]
      rfl
    refine ⟨ex.setState n st', ?_, ?_, _, _, hn, hnode', rfl, rfl, rfl⟩
    · simp [updateState, hn, hs, hst']
    · intro node st₁ hnode hstate
      rw [hnode'] at hnode
      cases hnode
      cases hstate
      exact ⟨hok', hbag'⟩

theorem processChild_delta (hF : ex.ForestAt F src) (hC : ex.EvaluatesAt C src)
    (hC' : ex.EvaluatesAt C' src) (hc : c ∈ ex.children src) (hop : ex.OpAt c C)
    (hfit : ∀ r ∈ records, (F src).Fits r.row) (happ : Applies (C src) records.changes (C' src)) :
    ∃ ex' results, ex.processChild src c records = some (ex', results) ∧ ex'.OpAt c C' ∧
      (ex'.nodes[c]?.map Node.state = ex.nodes[c]?.map Node.state) ∧
      (∀ r ∈ results, (F c).Fits r.row) ∧ Applies (C c) (Records.changes results) (C' c) := by
  obtain ⟨node, op, hn, hnop, hpar, hacc, hfmt⟩ := hF.child .refl hc
  have hstate : ex.state_for_op node 0 = some (node.state.map MemoryState.snapshot) := by
    simp [state_for_op, hpar]
  obtain ⟨op', results, hproc, htracks, hfit', happ'⟩ := OperatorType.process_delta hacc hfit
    (hC.ranged .refl hn hnop hpar) (hC'.ranged .refl hn hnop hpar)
    (hop node op src hn hnop hpar) happ 0 (node.state.map MemoryState.snapshot)
  have hnode' : (ex.setOperator c op').nodes[c]? = some { node with operator := some op' } := by
    rw [nodes_setOperator, if_pos rfl, hn]
    rfl
  refine ⟨ex.setOperator c op', results, ?_, ?_, ?_, ?_, ?_⟩
  · simp [processChild, hn, hpar, hstate, hnop, hproc]
  · intro node₁ op₁ p hn₁ hop₁ hpar₁
    rw [hnode'] at hn₁
    cases hn₁
    cases hop₁
    rw [hpar] at hpar₁
    cases hpar₁
    exact htracks
  · rw [hnode', hn]
    rfl
  · rw [hfmt]
    exact hfit'
  · rw [hC.eval .refl hn hnop hpar, hC'.eval .refl hn hnop hpar]
    exact happ'

/-- Every node below `src`, itself included, holds the contents `C`. The counters of `src` itself
    belong to its parent's batch and are not mentioned. -/
structure Below (ex : LocalExecutor) (src : Nat) (C : Nat → Multiset VRow) : Prop where
  state : ∀ n, ex.Reaches src n → ex.StateAt n (C n)
  op : ∀ n, ex.Reaches src n → n ≠ src → ex.OpAt n C

theorem Below.of_eq (hF : ex.ForestAt F src) (hC : ex.EvaluatesAt C src)
    (hC' : ex.EvaluatesAt C' src) (hsrc : C src = C' src) (h : ex.Below src C) :
    ex.Below src C' := by
  have hsame : ∀ n, ex.Reaches src n → C n = C' n := by
    intro n hr
    induction hr with
    | refl => exact hsrc
    | tail hab hbc ih =>
      obtain ⟨node, op, hn, hop, hpar, -⟩ := hF.child hab hbc
      rw [hC.eval hab hn hop hpar, hC'.eval hab hn hop hpar, ih]
  constructor
  · intro n hr
    rw [← hsame n hr]
    exact h.state n hr
  · intro n hr hne node op p hn hop hpar
    rcases hr.cases_tail with rfl | ⟨m, hrm, hmn⟩
    · exact absurd rfl hne
    · obtain ⟨node₁, op₁, hn₁, -, hpar₁, -⟩ := hF.child hrm hmn
      rw [hn] at hn₁
      cases hn₁
      rw [hpar] at hpar₁
      cases hpar₁
      rw [← hsame p hrm]
      exact h.op n hr hne node op p hn hop hpar

/-- What `propagate` does with an exact batch, for one amount of fuel. -/
def Propagates (fuel : Nat) (F : Nat → Format) (C C' : Nat → Multiset VRow) : Prop :=
  ∀ (ex : LocalExecutor) (src : Nat) (records : Records), ex.ForestAt F src →
    ex.EvaluatesAt C src → ex.EvaluatesAt C' src → src < ex.nodes.length →
    ex.nodes.length ≤ src + fuel → ex.Below src C →
    (∀ r ∈ records, (F src).Fits r.row) → Applies (C src) records.changes (C' src) →
    ∃ ex', ex.propagate fuel src records = some ex' ∧ ex'.Below src C' ∧
      (∀ D, ex.OpAt src D → ex'.OpAt src D)

theorem propagate_children {fuel : Nat} (hrec : Propagates fuel F C C')
    (hfit : ∀ r ∈ records, (F src).Fits r.row) (happ : Applies (C src) records.changes (C' src))
    {cs : List Nat} (hnd : cs.Nodup) (hF : ex.ForestAt F src) (hC : ex.EvaluatesAt C src)
    (hC' : ex.EvaluatesAt C' src) (hfuel : ex.nodes.length ≤ src + (fuel + 1))
    (hcs : ∀ c ∈ cs, c ∈ ex.children src)
    (hold : ∀ c ∈ cs, ∀ n, ex.Reaches c n → ex.StateAt n (C n) ∧ ex.OpAt n C) :
    ∃ ex', cs.foldlM (fun ex child => do
        let (ex, results) ← ex.processChild src child records
        propagate fuel ex child results) ex = some ex' ∧
      SameShape ex ex' ∧
      (∀ i, (∀ c ∈ cs, ¬ex.Reaches c i) → ex'.nodes[i]? = ex.nodes[i]?) ∧
      ∀ c ∈ cs, ∀ n, ex.Reaches c n → ex'.StateAt n (C' n) ∧ ex'.OpAt n C' := by
  induction cs generalizing ex with
  | nil => exact ⟨ex, rfl, .refl ex, fun _ _ => rfl, by simp⟩
  | cons c cs ih =>
    rw [nodup_cons] at hnd
    have hc : c ∈ ex.children src := hcs c mem_cons_self
    have hgt := hF.wf.child_gt hc
    have hlt := hF.wf.child_lt_length hc
    -- the child's operator
    obtain ⟨ex₁, results, hpc, hop₁, hst₁, hfit₁, happ₁⟩ := processChild_delta hF hC hC' hc
      (hold c mem_cons_self c .refl).2 hfit happ
    obtain ⟨hs₁, hf₁⟩ := processChild_frame hpc
    have hbelow₁ : ex₁.Below c C := by
      constructor
      · intro n hr
        have hr' := (hs₁.reaches c n).mp hr
        by_cases hnc : n = c
        · subst hnc
          intro node st hn hst
          have hmap := hst₁
          rw [hn, map_some] at hmap
          obtain ⟨node₀, hn₀, hst₀⟩ := map_eq_some_iff.mp hmap.symm
          exact (hold n mem_cons_self n .refl).1 node₀ st hn₀ (hst₀.trans hst)
        · exact (hold c mem_cons_self n hr').1.congr (hf₁ n hnc)
      · intro n hr hnc
        exact (hold c mem_cons_self n ((hs₁.reaches c n).mp hr)).2.congr (hf₁ n hnc)
    -- its subtree
    have hrc : ex.Reaches src c := .single hc
    obtain ⟨ex₂, hprop, hbelow₂, hop₂⟩ := hrec ex₁ c results ((hF.below hrc).sameShape hs₁)
      ((hC.below hrc).sameShape hs₁) ((hC'.below hrc).sameShape hs₁)
      (by rw [hs₁.length_eq]; exact hlt) (by rw [hs₁.length_eq]; omega) hbelow₁ hfit₁ happ₁
    obtain ⟨hs₂, hf₂⟩ := propagate_frame hprop
    have hs := hs₁.trans hs₂
    have hframe : ∀ i, ¬ex.Reaches c i → ex₂.nodes[i]? = ex.nodes[i]? := by
      intro i hi
      have hic : i ≠ c := by
        rintro rfl
        exact hi .refl
      rw [hf₂ i (by rw [hs₁.reaches]; exact hi), hf₁ i hic]
    -- the other children's subtrees are still as they were
    have hold₂ : ∀ c' ∈ cs, ∀ n, ex₂.Reaches c' n → ex₂.StateAt n (C n) ∧ ex₂.OpAt n C := by
      intro c' hc' n hr
      rw [hs.reaches] at hr
      have hn : ¬ex.Reaches c n := by
        intro hcn
        have := hF.child_unique hc (hcs c' (mem_cons_of_mem _ hc')) hcn hr
        exact hnd.1 (this ▸ hc')
      obtain ⟨ha, hb⟩ := hold c' (mem_cons_of_mem _ hc') n hr
      exact ⟨ha.congr (hframe n hn), hb.congr (hframe n hn)⟩
    obtain ⟨ex₃, hloop, hs₃, hf₃, hnew⟩ := ih hnd.2 (hF.sameShape hs) (hC.sameShape hs)
      (hC'.sameShape hs) (by rw [hs.length_eq]; exact hfuel)
      (fun c' hc' => by rw [hs.children_eq]; exact hcs c' (mem_cons_of_mem _ hc')) hold₂
    refine ⟨ex₃, ?_, hs.trans hs₃, ?_, ?_⟩
    · simp only [foldlM_cons, hpc, bind_eq_bind, bind_some, hprop]
      exact hloop
    · intro i hi
      rw [hf₃ i, hframe i (hi c mem_cons_self)]
      intro c' hc'
      rw [hs.reaches]
      exact hi c' (mem_cons_of_mem _ hc')
    · intro c' hc' n hr
      rcases mem_cons.mp hc' with rfl | hc'
      · -- processed first; the later children do not reach it
        have hkeep : ex₃.nodes[n]? = ex₂.nodes[n]? := by
          refine hf₃ n fun c'' hc'' hr'' => ?_
          rw [hs.reaches] at hr''
          have := hF.child_unique hc (hcs c'' (mem_cons_of_mem _ hc'')) hr hr''
          exact hnd.1 (this ▸ hc'')
        have hr₁ := (hs₁.reaches c' n).mpr hr
        have hr₂ := (hs.reaches c' n).mpr hr
        refine ⟨(hbelow₂.state n hr₂).congr hkeep, ?_⟩
        by_cases hnc : n = c'
        · subst hnc
          exact (hop₂ C' hop₁).congr hkeep
        · exact (hbelow₂.op n hr₂ hnc).congr hkeep
      · exact hnew c' hc' n ((hs.reaches c' n).mpr hr)

theorem propagates (F : Nat → Format) (C C' : Nat → Multiset VRow) (fuel : Nat) :
    Propagates fuel F C C' := by
  induction fuel with
  | zero =>
    intro ex src records _ _ _ hlt hfuel
    omega
  | succ fuel ih =>
    intro ex src records hF hC hC' hlt hfuel hbelow hfit happ
    unfold propagate
    split
    · rename_i hnil
      rw [List.isEmpty_iff] at hnil
      subst hnil
      exact ⟨ex, rfl, hbelow.of_eq hF hC hC' (Applies.nil_iff.mp happ), fun _ h => h⟩
    · have hkeys : ∀ node st, ex.nodes[src]? = some node → node.state = some st →
          ∀ r ∈ records, ∀ c ∈ st.key_columns, c < r.row.length := by
        intro node st hn hst r hr c hc
        rw [(hfit r hr).length_eq]
        exact hF.keys .refl hn hst c hc
      obtain ⟨ex₁, hup, hst₁, node, node₁, hn, hn₁, hop₁, hpar₁, hchi₁⟩ :=
        updateState_bag hlt (hbelow.state src .refl) hkeys happ
      obtain ⟨hs₁, hf₁⟩ := updateState_frame hup
      have hchildren : node.children = ex.children src := by
        rw [children, hn]
        rfl
      have hnotsrc : ∀ c ∈ ex.children src, ∀ n, ex.Reaches c n → n ≠ src := by
        rintro c hc n hr rfl
        have hle := hF.wf.le_of_reaches hr
        have hgt := hF.wf.child_gt hc
        omega
      have hold : ∀ c ∈ node.children, ∀ n, ex₁.Reaches c n →
          ex₁.StateAt n (C n) ∧ ex₁.OpAt n C := by
        intro c hc n hr
        rw [hchildren] at hc
        rw [hs₁.reaches] at hr
        have hne := hnotsrc c hc n hr
        have hr' : ex.Reaches src n := .head hc hr
        exact ⟨(hbelow.state n hr').congr (hf₁ n hne), (hbelow.op n hr' hne).congr (hf₁ n hne)⟩
      obtain ⟨ex₂, hloop, hs₂, hf₂, hnew⟩ := propagate_children ih hfit happ
        (by rw [hchildren]; exact hF.nodup_children) (hF.sameShape hs₁) (hC.sameShape hs₁)
        (hC'.sameShape hs₁) (by rw [hs₁.length_eq]; exact hfuel)
        (fun c hc => by rw [hs₁.children_eq, ← hchildren]; exact hc) hold
      have hsrc : ex₂.nodes[src]? = ex₁.nodes[src]? := by
        refine hf₂ src fun c hc hr => ?_
        rw [hchildren] at hc
        exact hnotsrc c hc src ((hs₁.reaches c src).mp hr) rfl
      refine ⟨ex₂, ?_, ⟨?_, ?_⟩, ?_⟩
      · simp only [hn, hup, bind_eq_bind, bind_some]
        exact hloop
      · intro n hr
        rw [hs₂.reaches, hs₁.reaches] at hr
        rcases hr.cases_head with rfl | ⟨c, hc, hcn⟩
        · exact hst₁.congr hsrc
        · exact (hnew c (by rw [hchildren]; exact hc) n ((hs₁.reaches c n).mpr hcn)).1
      · intro n hr hne
        rw [hs₂.reaches, hs₁.reaches] at hr
        rcases hr.cases_head with rfl | ⟨c, hc, hcn⟩
        · exact absurd rfl hne
        · exact (hnew c (by rw [hchildren]; exact hc) n ((hs₁.reaches c n).mpr hcn)).2
      · intro D hD node' op p hn' hop hpar
        rw [hsrc, hn₁] at hn'
        cases hn'
        exact hD node op p hn (hop₁.symm.trans hop) (hpar₁.symm.trans hpar)

end LocalExecutor

end Noria.Sqlite

import Noria.Sqlite.Tree

/-! # Incremental maintenance equals recomputation

  Graphs of base tables and single-parent operators, built through the executor's own calls, and any
  sequence of exact write batches. After every batch each materialized node holds what evaluating
  its operator chain from scratch on the base table's content gives.
-/

namespace Noria.Sqlite

open Bag Option

variable {p b : Nat} {n : Nat} {node : Node} {op : OperatorType}

/-- What evaluating a graph reads of a node. -/
def Node.signature (n : Node) : Option OperatorType × List Nat × List String :=
  (n.operator.map OperatorType.shape, n.parents, n.columns)

namespace LocalExecutor

/-! ## Recursion along the parents -/

/-- Compute something for a node from its parent's value, down to the base table. -/
def recurse {β : Type*} (ex : LocalExecutor) (default : β) (base : Nat → Node → β)
    (step : OperatorType → β → β) (n : Nat) : β :=
  match ex.nodes[n]? with
  | none => default
  | some node =>
    match node.operator, node.parents with
    | some op, [p] => if _h : p < n then step op (recurse ex default base step p) else default
    | _, _ => base n node
termination_by n

section Recurse

variable {β : Type*} {ex ex' : LocalExecutor} {d : β} {base : Nat → Node → β}
  {step : OperatorType → β → β}

theorem recurse_base (hn : ex.nodes[n]? = some node) (hop : node.operator = none) :
    ex.recurse d base step n = base n node := by
  rw [recurse, hn]
  simp [hop]

theorem recurse_op (hn : ex.nodes[n]? = some node) (hop : node.operator = some op)
    (hpar : node.parents = [p]) (hlt : p < n) :
    ex.recurse d base step n = step op (ex.recurse d base step p) := by
  rw [recurse, hn]
  simp [hop, hpar, hlt]

theorem recurse_congr (hstep : ∀ op : OperatorType, step op.shape = step op)
    (hbase : ∀ n (a b : Node), a.columns = b.columns → base n a = base n b)
    (h : ∀ m ≤ n, ex'.nodes[m]?.map Node.signature = ex.nodes[m]?.map Node.signature) :
    ex'.recurse d base step n = ex.recurse d base step n := by
  induction n using Nat.strongRecOn with
  | ind n ih =>
    rw [recurse, recurse]
    have hn := h n (Nat.le_refl n)
    cases hn' : ex'.nodes[n]? with
    | none =>
      rw [hn', map_none] at hn
      rw [map_eq_none_iff.mp hn.symm]
    | some a =>
      rw [hn', map_some] at hn
      obtain ⟨b, hb, heq⟩ := map_eq_some_iff.mp hn.symm
      simp only [Node.signature, Prod.mk.injEq] at heq
      obtain ⟨hop, hpar, hcol⟩ := heq
      rw [hb]
      simp only
      rw [hpar, hbase n a b hcol.symm]
      cases hbo : b.operator with
      | none =>
        rw [hbo, map_none] at hop
        rw [map_eq_none_iff.mp hop.symm]
      | some op =>
        rw [hbo, map_some] at hop
        obtain ⟨op', hao, hshape⟩ := map_eq_some_iff.mp hop.symm
        rw [hao]
        -- only a node with one parent looks further up
        rcases a.parents with _ | ⟨p, _ | ⟨q, ps⟩⟩
        · rfl
        · simp only
          split
          · rename_i hlt
            rw [ih p hlt fun m hm => h m (Nat.le_of_lt (Nat.lt_of_le_of_lt hm hlt)),
              ← hstep op', hshape, hstep op]
          · rfl
        · rfl

end Recurse

/-- The format of a node's rows. `I b c` says that column `c` of the base
    node `b` holds only `Int` and `BigInt` values. -/
def format (ex : LocalExecutor) (I : Nat → Nat → Prop) : Nat → Format :=
  ex.recurse ⟨0, fun _ => False⟩ (fun n node => ⟨node.columns.length, I n⟩)
    OperatorType.outFormat

/-- The content of a node, evaluated from scratch on the contents `T` of the base tables. -/
def content (ex : LocalExecutor) (T : Nat → Multiset VRow) : Nat → Multiset VRow :=
  ex.recurse 0 (fun n _ => T n) OperatorType.eval

theorem format_extend {ex ex' : LocalExecutor} {I : Nat → Nat → Prop}
    (h : ∀ m < ex.nodes.length, ex'.nodes[m]?.map Node.signature = ex.nodes[m]?.map Node.signature)
    (hn : n < ex.nodes.length) : ex'.format I n = ex.format I n := by
  refine recurse_congr OperatorType.outFormat_shape ?_ fun m hm =>
    h m (Nat.lt_of_le_of_lt hm hn)
  intro n a b hcol
  rw [hcol]

/-! ## Graphs built before the first write -/

/-- An executor made by adding base tables, operators with one parent and
    states, with columns that exist. -/
inductive Built (I : Nat → Nat → Prop) : LocalExecutor → Prop where
  | new : Built I LocalExecutor.new
  | base {ex : LocalExecutor} (name : String) (columns : List String) (h : Built I ex) :
      Built I (ex.add_base_table name columns).2
  | operator {ex ex' : LocalExecutor} (name : String) (op : OperatorType) (p : Nat) {idx : Nat}
      (columns : List String) (h : Built I ex) (hfresh : op.shape = op)
      (hacc : op.Accepts (ex.format I p))
      (hadd : ex.add_operator name op [p] columns = some (idx, ex')) : Built I ex'
  | materialize {ex ex' : LocalExecutor} (node : Nat) (keys : List Nat) {view : ViewHandle}
      (h : Built I ex) (hkeys : ∀ c ∈ keys, c < (ex.format I node).width)
      (hmat : ex.materialize node keys = some (view, ex')) : Built I ex'

/-- The names lead to base tables. -/
def TablesAreBase (ex : LocalExecutor) : Prop :=
  ∀ t b, ex.base_tables.get? t = some b → ∃ node, ex.nodes[b]? = some node ∧ node.operator = none

/-- No state has a row and no operator has seen a record. -/
def Fresh (ex : LocalExecutor) : Prop :=
  ∀ (n : Nat) (node : Node), ex.nodes[n]? = some node →
    (∀ st, node.state = some st → st = .new st.key_columns) ∧
      ∀ op, node.operator = some op → op.shape = op

/-- The rest of the invariant of a built executor. -/
structure BuiltOk (I : Nat → Nat → Prop) (ex : LocalExecutor) : Prop where
  forest : ex.Forest (ex.format I)
  tables : ex.TablesAreBase
  fresh : ex.Fresh

namespace BuiltOk

variable {I : Nat → Nat → Prop} {ex ex' : LocalExecutor}

theorem new : BuiltOk I LocalExecutor.new where
  forest :=
    { wf := WellFormed.new
      node := by
        intro n node hn
        cases hn
      keys := by
        intro n node st hn
        cases hn }
  tables := by
    intro t b h
    cases h
  fresh := by
    intro n node hn
    cases hn

/-- A node that may come to a graph: a base table, or an operator that can
    read its parent's rows and has seen none. -/
def Addable (I : Nat → Nat → Prop) (ex : LocalExecutor) (k : NodeCore) : Prop :=
  k.operator = none ∧ k.parents = [] ∨ ∃ op p, k.operator = some op ∧ k.parents = [p] ∧
    p < ex.nodes.length ∧ op.shape = op ∧ op.Accepts (ex.format I p)

/-- A step that keeps the nodes, and adds at most a node without a state and an empty state. -/
theorem step (h : BuiltOk I ex) (hwf : ex'.WellFormed)
    (hkeep : ∀ i < ex.nodes.length, ex'.core i = ex.core i)
    (hnew : ∀ i k, ex.nodes.length ≤ i → ex'.core i = some k → Addable I ex k)
    (hst : ∀ i st, ex'.stateOf i = some st → ex.stateOf i = some st ∨ i < ex.nodes.length ∧
      st = .new st.key_columns ∧ ∀ c ∈ st.key_columns, c < (ex.format I i).width)
    (htab : ∀ t b, ex'.base_tables.get? t = some b → ex.base_tables.get? t = some b ∨
      ∃ k, ex'.core b = some k ∧ k.operator = none) : BuiltOk I ex' := by
  have hsig : ∀ (e : LocalExecutor) m, e.nodes[m]?.map Node.signature =
      (e.core m).map fun k => (k.operator.map OperatorType.shape, k.parents, k.columns) := by
    intro e m
    rw [core, map_map]
    rfl
  have hfmt : ∀ n < ex.nodes.length, ex'.format I n = ex.format I n :=
    fun n hn => format_extend (fun m hm => by rw [hsig, hsig, hkeep m hm]) hn
  -- a node is the one that was there, but for its children and its state, or it is new
  have hcases : ∀ {n : Nat} {nd : Node}, ex'.nodes[n]? = some nd →
      (∃ nd₀, ex.nodes[n]? = some nd₀ ∧ n < ex.nodes.length ∧ nd.operator = nd₀.operator ∧
        nd.parents = nd₀.parents) ∨ ex.nodes.length ≤ n ∧ Addable I ex nd.core := by
    intro n nd hn
    have hcore := core_of_node hn
    by_cases hlt : n < ex.nodes.length
    · rw [hkeep n hlt] at hcore
      obtain ⟨nd₀, hn₀, heq⟩ := map_eq_some_iff.mp hcore
      exact .inl ⟨nd₀, hn₀, hlt, (congrArg NodeCore.operator heq).symm,
        (congrArg NodeCore.parents heq).symm⟩
    · exact .inr ⟨Nat.le_of_not_lt hlt, hnew n _ (Nat.le_of_not_lt hlt) hcore⟩
  have hstate : ∀ {n : Nat} {nd : Node} {st : MemoryState}, ex'.nodes[n]? = some nd →
      nd.state = some st → (∃ nd₀, ex.nodes[n]? = some nd₀ ∧ nd₀.state = some st) ∨
        n < ex.nodes.length ∧ st = .new st.key_columns ∧
          ∀ c ∈ st.key_columns, c < (ex.format I n).width := by
    intro n nd st hn hnd
    refine (hst n st (by rw [stateOf, hn]; exact hnd)).imp_left fun hold => ?_
    obtain ⟨nd₀, hn₀, hst₀⟩ := bind_eq_some_iff.mp hold
    exact ⟨nd₀, hn₀, hst₀⟩
  refine ⟨⟨hwf, ?_, ?_⟩, ?_, ?_⟩
  · intro n nd hn
    rcases hcases hn with ⟨nd₀, hn₀, hlt, hop₀, hpar₀⟩ | ⟨hge, hb | ⟨op, p, hop, hpar, hp, -, hacc⟩⟩
    · rw [hop₀, hpar₀, hfmt n hlt]
      rcases h.forest.node hn₀ with hb | ⟨op, q, hop, hpar, hacc, hf⟩
      · exact .inl hb
      · have hq : q < n := h.forest.wf.ascending n q (by simp [parents, hn₀, hpar])
        rw [← hfmt q (Nat.lt_trans hq hlt)] at hacc hf
        exact .inr ⟨op, q, hop, hpar, hacc, hf⟩
    · exact .inl hb
    · rw [← hfmt p hp] at hacc
      exact .inr ⟨op, p, hop, hpar, hacc, recurse_op hn hop hpar (Nat.lt_of_lt_of_le hp hge)⟩
  · intro n nd st hn hnd
    rcases hstate hn hnd with ⟨nd₀, hn₀, hst₀⟩ | ⟨hlt, -, hkeys⟩
    · rw [hfmt n (List.getElem?_eq_some_iff.mp hn₀).1]
      exact h.forest.keys hn₀ hst₀
    · rw [hfmt n hlt]
      exact hkeys
  · intro t b hb
    rcases htab t b hb with hold | ⟨k, hk, hop⟩
    · obtain ⟨nd, hn, hop⟩ := h.tables t b hold
      have hk := core_of_node hn
      rw [← hkeep b (core_lt hk)] at hk
      exact ⟨_, core_eq_some hk, hop⟩
    · exact ⟨_, core_eq_some hk, hop⟩
  · intro n nd hn
    constructor
    · intro st hnd
      rcases hstate hn hnd with ⟨nd₀, hn₀, hst₀⟩ | ⟨-, hempty, -⟩
      · exact (h.fresh n nd₀ hn₀).1 st hst₀
      · exact hempty
    · intro op hop
      rcases hcases hn with
        ⟨nd₀, hn₀, -, hop₀, -⟩ | ⟨-, ⟨hnone, -⟩ | ⟨op', p, hop', -, -, hfresh, -⟩⟩
      · exact (h.fresh n nd₀ hn₀).2 op (hop₀.symm.trans hop)
      · cases hnone.symm.trans hop
      · cases hop'.symm.trans hop
        exact hfresh

theorem base (h : BuiltOk I ex) (name : String) (columns : List String) :
    BuiltOk I (ex.add_base_table name columns).2 := by
  obtain ⟨-, htabs, hcore, -, hst⟩ := ex.add_base_table_parts name columns
  refine h.step (h.forest.wf.add_base_table name columns) (fun i hi => ?_) (fun i k hi hk => ?_)
    (fun i st hi => .inl (hst i ▸ hi)) fun t b hb => ?_
  · rw [hcore, if_neg (Nat.ne_of_lt hi)]
  · rw [hcore] at hk
    split at hk
    · cases hk
      exact .inl ⟨rfl, rfl⟩
    · exact absurd (core_lt hk) (Nat.not_lt.mpr hi)
  · rw [htabs] at hb
    split at hb
    · cases hb
      exact .inr ⟨_, by rw [hcore, if_pos rfl], rfl⟩
    · exact .inl hb

theorem operator (h : BuiltOk I ex) {name : String} {idx : Nat} {columns : List String}
    (hfresh : op.shape = op) (hacc : op.Accepts (ex.format I p))
    (hadd : ex.add_operator name op [p] columns = some (idx, ex')) : BuiltOk I ex' := by
  obtain ⟨rfl, -, hlt, htabs, hcore, -, hst⟩ := add_operator_parts hadd
  refine h.step (h.forest.wf.add_operator hadd) (fun i hi => ?_) (fun i k hi hk => ?_)
    (fun i st hi => .inl (hst i ▸ hi)) fun t b hb => .inl (htabs ▸ hb)
  · rw [hcore, if_neg (Nat.ne_of_lt hi)]
  · rw [hcore] at hk
    split at hk
    · cases hk
      exact .inr ⟨op, p, rfl, rfl, hlt p List.mem_cons_self, hfresh, hacc⟩
    · exact absurd (core_lt hk) (Nat.not_lt.mpr hi)

theorem materialize (h : BuiltOk I ex) {node : Nat} {keys : List Nat} {view : ViewHandle}
    (hkeys : ∀ c ∈ keys, c < (ex.format I node).width)
    (hmat : ex.materialize node keys = some (view, ex')) : BuiltOk I ex' := by
  obtain ⟨hlt, -, -, htabs, hcore, -, hst⟩ := materialize_parts hmat
  refine h.step (h.forest.wf.materialize hmat) (fun i _ => hcore i) (fun i k hi hk => ?_)
    (fun i st hi => ?_) fun t b hb => .inl (htabs ▸ hb)
  · rw [hcore] at hk
    exact absurd (core_lt hk) (Nat.not_lt.mpr hi)
  · rw [hst] at hi
    split at hi
    · rename_i heq
      cases hi
      subst heq
      exact .inr ⟨hlt, rfl, hkeys⟩
    · exact .inl hi

end BuiltOk

theorem Built.ok {I : Nat → Nat → Prop} {ex : LocalExecutor} (h : Built I ex) :
    BuiltOk I ex := by
  induction h with
  | new => exact .new
  | base name columns _ ih => exact ih.base name columns
  | operator name op p columns _ hfresh hacc hadd ih => exact ih.operator hfresh hacc hadd
  | materialize node keys _ hkeys hmat ih => exact ih.materialize hkeys hmat

/-! ## Runs -/

/-- Every count and every sum over the contents `T` of the base tables is an `i64`. -/
def CountsInRange (ex : LocalExecutor) (T : Nat → Multiset VRow) : Prop :=
  ∀ (n : Nat) (node : Node) (op : OperatorType) (p : Nat), ex.nodes[n]? = some node →
    node.operator = some op → node.parents = [p] → op.Ranged (ex.content T p)

/-- `ex.Writes I T ws T'`: the batches `ws`, in order, take the contents of the base tables from `T`
    to `T'`. Every row of a batch has the table's columns, every negative row is present when it is
    reached, and counts and sums stay in range. A batch for an unknown table is ignored. -/
inductive Writes (ex : LocalExecutor) (I : Nat → Nat → Prop) :
    (Nat → Multiset VRow) → List (String × Records) → (Nat → Multiset VRow) → Prop where
  | nil (T : Nat → Multiset VRow) : Writes ex I T [] T
  | unknown {T T' : Nat → Multiset VRow} {t : String} {records : Records}
      {ws : List (String × Records)} (ht : ex.base_tables.get? t = none)
      (h : Writes ex I T ws T') : Writes ex I T ((t, records) :: ws) T'
  | batch {T T' : Nat → Multiset VRow} {t : String} {b : Nat} {records : Records}
      {ws : List (String × Records)} {M : Multiset VRow} (ht : ex.base_tables.get? t = some b)
      (hfit : ∀ r ∈ records, (ex.format I b).Fits r.row)
      (happ : Applies (T b) records.changes M)
      (hrange : ex.CountsInRange (Function.update T b M))
      (h : Writes ex I (Function.update T b M) ws T') : Writes ex I T ((t, records) :: ws) T'

section Run

variable {ex ex₀ : LocalExecutor} {I : Nat → Nat → Prop} {T : Nat → Multiset VRow}

theorem content_base (hn : ex.nodes[b]? = some node) (hop : node.operator = none) :
    ex.content T b = T b :=
  recurse_base hn hop

theorem evaluates_content (hF : ex.Forest (ex.format I)) (hrange : ex.CountsInRange T) :
    ex.Evaluates (ex.content T) where
  eval := by
    intro n node op p hn hop hpar
    exact recurse_op hn hop hpar (hF.wf.ascending n p (by simp [parents, hn, hpar]))
  ranged := by
    intro n node op p hn hop hpar
    exact hrange n node op p hn hop hpar

/-- Changing one base table changes only the nodes below it. -/
theorem content_update_of_not_reaches (hF : ex.Forest (ex.format I)) (b : Nat) (M : Multiset VRow)
    (h : ¬ex.Reaches b n) :
    ex.content (Function.update T b M) n = ex.content T n := by
  induction n using Nat.strongRecOn with
  | ind n ih =>
    cases hn : ex.nodes[n]? with
    | none =>
      unfold content
      rw [recurse, recurse, hn]
    | some node =>
      rcases hF.node hn with ⟨hop, -⟩ | ⟨op, p, hop, hpar, -, -⟩
      · have hne : n ≠ b := by
          rintro rfl
          exact h .refl
        rw [content_base hn hop, content_base hn hop, Function.update_of_ne hne]
      · have hpn : p ∈ ex.parents n := by simp [parents, hn, hpar]
        have hlt := hF.wf.ascending n p hpn
        have hp : ¬ex.Reaches b p := fun hr => h (hr.tail (hF.wf.mem_children.mpr hpn))
        show ex.recurse _ _ _ n = ex.recurse _ _ _ n
        rw [recurse_op hn hop hpar hlt, recurse_op hn hop hpar hlt]
        exact congrArg op.eval (ih p hlt hp)

/-- The states and counters of `ex`, a later moment of `ex₀`, are those of the base contents `T`. -/
structure Current (ex₀ ex : LocalExecutor) (T : Nat → Multiset VRow) : Prop where
  shape : SameShape ex₀ ex
  state : ∀ n, ex.StateAt n (ex₀.content T n)
  op : ∀ n, ex.OpAt n (ex₀.content T)

theorem content_zero (hF : ex.Forest (ex.format I)) (n : Nat) :
    ex.content (fun _ => 0) n = 0 := by
  induction n using Nat.strongRecOn with
  | ind n ih =>
    cases hn : ex.nodes[n]? with
    | none =>
      unfold content
      rw [recurse, hn]
    | some node =>
      rcases hF.node hn with ⟨hop, -⟩ | ⟨op, p, hop, hpar, -, -⟩
      · exact content_base hn hop
      · have hlt := hF.wf.ascending n p (by simp [parents, hn, hpar])
        have : ex.content (fun _ => 0) n = op.eval (ex.content (fun _ => 0) p) :=
          recurse_op hn hop hpar hlt
        rw [this, ih p hlt]
        cases op <;> rfl

theorem tracks_zero_of_fresh (h : op.shape = op) : op.Tracks 0 := by
  cases op with
  | aggregate op =>
    obtain ⟨group_by, func, key_cols, state, order, calls⟩ := op
    obtain ⟨-, -, -, rfl, -, rfl⟩ := h
    exact AggregateOp.tracks_new order group_by func key_cols
  | filter op => trivial
  | project op => trivial
  | join op => trivial
  | identity op => trivial

theorem BuiltOk.current (h : BuiltOk I ex) : Current ex ex fun _ => 0 where
  shape := .refl ex
  state := by
    intro n node st hn hst
    rw [(h.fresh n node hn).1 st hst, content_zero h.forest]
    exact ⟨MemoryState.ok_new _, MemoryState.bag_new _⟩
  op := by
    intro n node op p hn hop _
    rw [content_zero h.forest]
    exact tracks_zero_of_fresh ((h.fresh n node hn).2 op hop)

theorem apply_write_current (h : BuiltOk I ex₀) (hcur : Current ex₀ ex T) {t : String}
    {records : Records} {M : Multiset VRow} (ht : ex₀.base_tables.get? t = some b)
    (hfit : ∀ r ∈ records, (ex₀.format I b).Fits r.row) (happ : Applies (T b) records.changes M)
    (hold : ex₀.CountsInRange T) (hnew : ex₀.CountsInRange (Function.update T b M)) :
    ∃ ex', ex.apply_write t records = some ex' ∧
      Current ex₀ ex' (Function.update T b M) := by
  obtain ⟨node, hn, hop⟩ := h.tables t b ht
  have hlt := (List.getElem?_eq_some_iff.mp hn).1
  have happ' : Applies (ex₀.content T b) records.changes
      (ex₀.content (Function.update T b M) b) := by
    rw [content_base hn hop, content_base hn hop, Function.update_self]
    exact happ
  obtain ⟨ex', hprop, hbelow, hopb⟩ := propagates (ex₀.format I) (ex₀.content T)
    (ex₀.content (Function.update T b M)) ex.nodes.length ex b records
    ((h.forest.at_root b).sameShape hcur.shape)
    (((evaluates_content h.forest hold).at_root b).sameShape hcur.shape)
    (((evaluates_content h.forest hnew).at_root b).sameShape hcur.shape)
    (by rw [hcur.shape.length_eq]; exact hlt) (by omega)
    ⟨fun n _ => hcur.state n, fun n _ _ => hcur.op n⟩ hfit happ'
  obtain ⟨hs, hf⟩ := propagate_frame hprop
  have hs' := hcur.shape.trans hs
  refine ⟨ex', ?_, hs', ?_, ?_⟩
  · rw [apply_write, hcur.shape.tables, ht]
    exact hprop
  · intro n
    by_cases hr : ex₀.Reaches b n
    · exact hbelow.state n ((hs'.reaches b n).mpr hr)
    · rw [content_update_of_not_reaches h.forest b M hr]
      refine (hcur.state n).congr (hf n ?_)
      rw [hcur.shape.reaches]
      exact hr
  · intro n
    by_cases hnb : n = b
    · -- a base table has no operator
      intro node' op' p hn' hop' _
      obtain ⟨node₀, hn₀, hsh⟩ := hs'.symm.node hn'
      obtain ⟨op₀, hop₀, -⟩ := Node.operator_of_shape hsh.symm hop'
      rw [hnb, hn] at hn₀
      cases hn₀
      rw [hop] at hop₀
      cases hop₀
    · by_cases hr : ex₀.Reaches b n
      · exact hbelow.op n ((hs'.reaches b n).mpr hr) hnb
      · -- the parent lies outside the subtree as well
        have hsame : ex'.OpAt n (ex₀.content T) := by
          refine (hcur.op n).congr (hf n ?_)
          rw [hcur.shape.reaches]
          exact hr
        intro node' op' p hn' hop' hpar'
        have hpn : p ∈ ex₀.parents n := by
          rw [← hs'.parents_eq]
          simp [parents, hn', hpar']
        have hp : ¬ex₀.Reaches b p := fun hrp =>
          hr (hrp.tail (h.forest.wf.mem_children.mpr hpn))
        rw [content_update_of_not_reaches h.forest b M hp]
        exact hsame node' op' p hn' hop' hpar'

theorem apply_writes_current (h : BuiltOk I ex₀) {ws : List (String × Records)}
    {T' : Nat → Multiset VRow} (hw : ex₀.Writes I T ws T') (hcur : Current ex₀ ex T)
    (hrange : ex₀.CountsInRange T) :
    ∃ ex', ex.apply_writes ws = some ex' ∧ Current ex₀ ex' T' := by
  induction hw generalizing ex with
  | nil T => exact ⟨ex, rfl, hcur⟩
  | unknown ht _ ih =>
    obtain ⟨ex', hex', hcur'⟩ := ih hcur hrange
    refine ⟨ex', ?_, hcur'⟩
    simp only [apply_writes, List.foldlM_cons, apply_write, hcur.shape.tables, ht,
      bind_eq_bind, bind_some]
    exact hex'
  | batch ht hfit happ hnew _ ih =>
    obtain ⟨ex₁, hex₁, hcur₁⟩ := apply_write_current h hcur ht hfit happ hrange hnew
    obtain ⟨ex', hex', hcur'⟩ := ih hcur₁ hnew
    refine ⟨ex', ?_, hcur'⟩
    simp only [apply_writes, List.foldlM_cons, hex₁, bind_eq_bind, bind_some]
    exact hex'

theorem countsInRange_zero (h : BuiltOk I ex) : ex.CountsInRange fun _ => 0 := by
  intro n node op p hn hop hpar
  rw [content_zero h.forest]
  cases op with
  | aggregate op =>
    intro g
    simp [groupOf, AggregateFunc.total]
  | filter op => trivial
  | project op => trivial
  | join op => trivial
  | identity op => trivial

end Run

/-- Incremental maintenance equals recomputation. After any sequence of exact batches, the state of
    every materialized node holds exactly the rows that evaluating from scratch on the base contents
    gives, and keeps each row under its own key. -/
theorem maintenance_eq_recomputation {I : Nat → Nat → Prop} {ex : LocalExecutor}
    (hbuilt : Built I ex) {ws : List (String × Records)} {T : Nat → Multiset VRow}
    (hw : ex.Writes I (fun _ => 0) ws T) :
    ∃ ex', ex.apply_writes ws = some ex' ∧
      ∀ (n : Nat) (node₀ : Node) (st₀ : MemoryState), ex.nodes[n]? = some node₀ →
        node₀.state = some st₀ →
        ∃ node st, ex'.nodes[n]? = some node ∧ node.state = some st ∧
          st.key_columns = st₀.key_columns ∧ st.bag = ex.content T n ∧
          ∀ e ∈ st.data.entries, ∀ row ∈ e.2,
            VRow.proj st.key_columns (Row.val row) = e.1.vals := by
  obtain ⟨ex', hex', hcur⟩ := apply_writes_current hbuilt.ok hw hbuilt.ok.current
    (countsInRange_zero hbuilt.ok)
  refine ⟨ex', hex', fun n node₀ st₀ hn₀ hst₀ => ?_⟩
  obtain ⟨node, hn, hsh⟩ := hcur.shape.node hn₀
  obtain ⟨st, hst, hkeys⟩ := Node.state_of_shape hsh.symm hst₀
  obtain ⟨hok, hbag⟩ := hcur.state n node st hn hst
  exact ⟨node, st, hn, hst, hkeys, hbag, hok.own_key⟩

/-! ### A graph with a sum -/

/-- `SELECT k, SUM(v) FROM t WHERE v > 0 GROUP BY k`, as nodes. -/
def sumGraph : LocalExecutor :=
  ⟨[⟨none, [], [1], none, "t", ["k", "v"]⟩,
    ⟨some (.filter ⟨.gt 1 (.bigInt 0), 2, [0]⟩), [0], [2], none, "t_filter", ["k", "v"]⟩,
    ⟨some (.aggregate (.new .inserted [0] (.sum 1) [0])), [1], [],
      some (.new [0]), "t_agg", ["k", "sum"]⟩],
   (∅ : AssocMap String Nat).insert "t" 0⟩

theorem sumGraph_built : Built (fun _ c => c = 1) sumGraph := by
  refine .materialize 2 [0] (.operator "t_agg" (.aggregate (.new .inserted [0]
    (.sum 1) [0])) 1 ["k", "sum"] (.operator "t_filter" (.filter ⟨.gt 1 (.bigInt 0), 2, [0]⟩) 0
      ["k", "v"] (.base "t" ["k", "v"] .new) rfl ?_ rfl) rfl ?_ rfl) ?_ rfl
  · simp [OperatorType.Accepts, FilterCondition.columns, format, recurse, add_base_table, new]
  · refine ⟨.inr ⟨1, rfl⟩, ?_, ?_⟩
    · simp [format, recurse, OperatorType.outFormat, new, add_base_table, registerChild,
        pushChild, AggregateOp.new]
    · simp [format, recurse, OperatorType.outFormat, new, add_base_table, registerChild,
        pushChild, AggregateOp.new, AggregateFunc.summed]
  · simp [format, recurse, OperatorType.outFormat, new, add_base_table, registerChild,
      pushChild, AggregateOp.new]

/-- A single row with a positive value passes the filter. -/
theorem sumGraph_filtered {k v : Int} (hv : 0 < v) {T : Nat → Multiset VRow}
    (hT : T 0 = {[.int k, .int v]}) : sumGraph.content T 1 = {[.int k, .int v]} := by
  have hbase : sumGraph.content T 0 = T 0 := content_base rfl rfl
  have hfilter : sumGraph.content T 1 = _ := recurse_op rfl rfl rfl Nat.zero_lt_one
  rw [hfilter]
  show (sumGraph.content T 0).filter _ = _
  rw [hbase, hT, Multiset.filter_singleton, if_pos]
  show (compare v 0 == .gt) = true
  rw [Int.compare_eq_gt.mpr hv]
  rfl

theorem sumGraph_summed {k v : Int} (hv : 0 < v) {T : Nat → Multiset VRow}
    (hT : T 0 = {[.int k, .int v]}) : sumGraph.content T 2 = {[.int k, .int v]} := by
  have hsum : sumGraph.content T 2 = _ := recurse_op rfl rfl rfl Nat.one_lt_two
  rw [hsum]
  show groupAggregate [0] (.sum 1) (sumGraph.content T 1) = _
  rw [sumGraph_filtered hv hT]
  have hgroup : (({[.int k, .int v]} : Multiset VRow).filter
      fun w => VRow.proj [0] w = [.int k]) = {[.int k, .int v]} := by
    rw [Multiset.filter_singleton, if_pos]
    rfl
  have hproj : VRow.proj [0] [.int k, .int v] = [.int k] := rfl
  rw [groupAggregate, Multiset.map_singleton, hproj, Multiset.dedup_singleton,
    Multiset.map_singleton, hgroup]
  simp [AggregateFunc.over, Value.intOf]

theorem sumGraph_inRange (k v : Int) (hv : 0 < v) (hlt : v < 2 ^ 63) (T : Nat → Multiset VRow)
    (hT : T 0 = {[.int k, .int v]}) : sumGraph.CountsInRange T := by
  intro n node op p hn hop hpar
  rcases n with _ | _ | _ | n
  · cases hn
    cases hop
  · cases hn
    cases hop
    trivial
  · cases hn
    cases hop
    cases hpar
    show InRange [0] (.sum 1) (sumGraph.content T 1)
    rw [sumGraph_filtered hv hT]
    intro g
    rw [groupOf, Multiset.filter_singleton]
    split
    · have htotal : (AggregateFunc.sum 1).total {[.int k, .int v]} = v := by
        simp [AggregateFunc.total, AggregateFunc.addend, Value.intOf]
      rw [htotal]
      exact ⟨by simp, by omega, hlt⟩
    · simp [AggregateFunc.total]
  · cases hn

/-- Two batches, the second an update that also spells the values with other integer types. -/
theorem sumGraph_writes : sumGraph.Writes (fun _ c => c = 1) (fun _ => 0)
    [("t", [.positive [.int 1, .bigInt 5]]),
     ("t", [.negative [.bigInt 1, .int 5], .positive [.int 1, .int 7]])]
    (Function.update (Function.update (fun _ => 0) 0 {[.int 1, .int 5]}) 0
      {[.int 1, .int 7]}) := by
  have hfit : ∀ a b : DataType, b.is_integer = true →
      (sumGraph.format (fun _ c => c = 1) 0).Fits [a, b] := by
    intro a b hb
    have hfmt : sumGraph.format (fun _ c => c = 1) 0 = ⟨2, fun c => c = 1⟩ := by
      rw [format, recurse_base (show sumGraph.nodes[0]? = some _ from rfl) rfl]
      rfl
    rw [hfmt]
    refine ⟨rfl, ?_⟩
    rintro c rfl
    exact ⟨b, rfl, hb⟩
  have hins : Applies 0 [.ins [.int 1, .int 5]] {[Value.int 1, .int 5]} := .ins (.nil _)
  have hupd : Applies {[Value.int 1, .int 5]} [.del [.int 1, .int 5], .ins [.int 1, .int 7]]
      {[.int 1, .int 7]} := .del (.ins (.nil _))
  refine .batch rfl ?_ hins (sumGraph_inRange 1 5 (by omega) (by omega) _ rfl)
    (.batch rfl ?_ hupd (sumGraph_inRange 1 7 (by omega) (by omega) _ rfl) (.nil _))
  · simpa using hfit (.int 1) (.bigInt 5) rfl
  · simpa using ⟨hfit (.bigInt 1) (.int 5) rfl, hfit (.int 1) (.int 7) rfl⟩

theorem sumGraph_maintained :
    ∃ ex', sumGraph.apply_writes
        [("t", [.positive [.int 1, .bigInt 5]]),
         ("t", [.negative [.bigInt 1, .int 5], .positive [.int 1, .int 7]])] = some ex' ∧
      ∃ node st, ex'.nodes[2]? = some node ∧ node.state = some st ∧
        st.bag = sumGraph.content (Function.update (Function.update (fun _ => 0) 0
          {[.int 1, .int 5]}) 0 {[.int 1, .int 7]}) 2 := by
  obtain ⟨ex', hex', h⟩ := maintenance_eq_recomputation sumGraph_built sumGraph_writes
  obtain ⟨node, st, hn, hst, -, hbag, -⟩ := h 2 _ _ rfl rfl
  exact ⟨ex', hex', node, st, hn, hst, hbag⟩

/-- A removal that spells the 5 as an unsigned integer names the row (the two
    spellings are equal), but the sum reads an unsigned value as 0: the view
    keeps 12 where the table sums to 7. -/
theorem unsigned_value_not_subtracted :
    ((sumGraph.apply_writes
        [("t", [.positive [.int 1, .int 5], .positive [.int 1, .int 7]]),
         ("t", [.negative [.int 1, .unsignedInt 5]])]).bind fun ex' =>
      ex'.nodes[2]?.bind Node.state).map MemoryState.bag = some {[.int 1, .int 12]} ∧
    ([DataType.int 1, .unsignedInt 5] == [DataType.int 1, .int 5]) = true ∧
    sumGraph.content (fun _ => {[.int 1, .int 7]}) 2 = {[.int 1, .int 7]} :=
  ⟨by decide, by decide, sumGraph_summed (by omega) rfl⟩

end LocalExecutor

end Noria.Sqlite

import Noria.Sqlite.Build
import Noria.Sqlite.Join
import Noria.Sqlite.Tree

/-! # Propagation through chains of joins

  A FROM clause becomes a left-deep chain: the first join has two base tables as its inputs, every
  later join has the join before it and a base table. A batch written to a base table enters the
  chain at every join that has the table as an input, and runs down from there.

  Where a table occurs several times, the joins are reached one after another, while the table's
  state already has the new rows for all of them. The content of a join in the middle of such a
  batch is therefore described by a version of the table for each occurrence: new where the batch
  has arrived, old where it has not.
-/

namespace Noria.Sqlite

open Bag List

namespace LocalExecutor

variable {vl : List (Link × Multiset VRow)} {L L' R V : Multiset VRow} {links : List Link}
  {fuel n : Nat}

/-! ## The shape of a chain -/

/-- Node `n` is materialized on the single column `key`. -/
def HasIndex (ex : LocalExecutor) (n key : Nat) : Prop :=
  ∃ nd st, ex.nodes[n]? = some nd ∧ nd.state = some st ∧ st.key_columns = [key]

/-- The state of node `n`, if it has one, is keyed by columns that rows of width `width` have. -/
def KeysBelow (ex : LocalExecutor) (n width : Nat) : Prop :=
  ∀ nd st, ex.nodes[n]? = some nd → nd.state = some st → ∀ c ∈ st.key_columns, c < width

/-- The join of a link, with its left input `c` of width `wc`. -/
structure JoinAt (ex : LocalExecutor) (w : Nat → Nat) (c wc : Nat) (l : Link) : Prop where
  node : ∃ nd, ex.nodes[l.node]? = some nd ∧ nd.operator = some (.join l.op) ∧
    nd.parents = [c, l.right]
  reads : l.op.Reads wc (w l.right)
  gt : c < l.node
  right_lt : l.right < l.node
  index : ex.HasIndex l.right l.op.right_key
  keys : ex.KeysBelow l.node l.op.emit.length

structure Joined (ex : LocalExecutor) (w : Nat → Nat) (c wc : Nat) (l : Link) : Prop
    extends JoinAt ex w c wc l where
  inner : l.op.join_type = .inner

/-- The links below the join `c`. -/
def Linked (ex : LocalExecutor) (w : Nat → Nat) : Nat → Nat → List Link → Prop
  | c, _, [] => ex.children c = []
  | c, wc, l :: rest =>
    ex.children c = [l.node] ∧ ex.Joined w c wc l ∧ ex.HasIndex c l.op.left_key ∧
      l.right ≠ c ∧ Linked ex w l.node l.op.emit.length rest

section Shape

variable {ex ex' : LocalExecutor} {w : Nat → Nat}

theorem HasIndex.sameShape (h : SameShape ex ex') {key : Nat} (hi : ex.HasIndex n key) :
    ex'.HasIndex n key := by
  obtain ⟨nd, st, hn, hst, hkey⟩ := hi
  obtain ⟨nd', hn', hsh⟩ := h.node hn
  obtain ⟨st', hst', hkey'⟩ := Node.state_of_shape hsh.symm hst
  exact ⟨nd', st', hn', hst', hkey'.trans hkey⟩

theorem KeysBelow.sameShape (h : SameShape ex ex') {width : Nat} (hk : ex.KeysBelow n width) :
    ex'.KeysBelow n width := by
  intro nd' st' hn' hst' c hc
  obtain ⟨nd, hn, hsh⟩ := h.symm.node hn'
  obtain ⟨st, hst, hkey⟩ := Node.state_of_shape hsh.symm hst'
  exact hk nd st hn hst c (by rw [hkey]; exact hc)

theorem JoinAt.sameShape (h : SameShape ex ex') {c wc : Nat} {l : Link}
    (hj : ex.JoinAt w c wc l) : ex'.JoinAt w c wc l where
  node := by
    obtain ⟨nd, hn, hop, hpar⟩ := hj.node
    obtain ⟨nd', hn', hsh⟩ := h.node hn
    obtain ⟨op', hop', hshape⟩ := Node.operator_of_shape hsh.symm hop
    exact ⟨nd', hn', by rw [hop', OperatorType.join_of_shape hshape],
      (Node.parents_of_shape hsh).trans hpar⟩
  reads := hj.reads
  gt := hj.gt
  right_lt := hj.right_lt
  index := hj.index.sameShape h
  keys := hj.keys.sameShape h

theorem Joined.sameShape (h : SameShape ex ex') {c wc : Nat} {l : Link}
    (hj : ex.Joined w c wc l) : ex'.Joined w c wc l := ⟨hj.toJoinAt.sameShape h, hj.inner⟩

theorem Linked.sameShape (h : SameShape ex ex') {c wc : Nat} (hl : ex.Linked w c wc links) :
    ex'.Linked w c wc links := by
  induction links generalizing c wc with
  | nil =>
    show ex'.children c = []
    rw [h.children_eq]
    exact hl
  | cons l rest ih =>
    obtain ⟨hchi, hj, hidx, hne, hrest⟩ := hl
    exact ⟨by rw [h.children_eq]; exact hchi, hj.sameShape h, hidx.sameShape h, hne, ih hrest⟩

theorem Linked.lt {c wc : Nat} (hl : ex.Linked w c wc links) : ∀ l ∈ links, c < l.node := by
  induction links generalizing c wc with
  | nil => simp
  | cons l rest ih =>
    obtain ⟨-, hj, -, -, hrest⟩ := hl
    intro l' hl'
    rcases mem_cons.mp hl' with rfl | hl'
    · exact hj.gt
    · exact Nat.lt_trans hj.gt (ih hrest l' hl')

end Shape

/-! ## Running an operator of the chain -/

theorem setOperator_self {ex : LocalExecutor} {nd : Node} {op : OperatorType}
    (hn : ex.nodes[n]? = some nd) (hop : nd.operator = some op) : ex.setOperator n op = ex := by
  obtain ⟨nodes, tables⟩ := ex
  have : nodes.modify n (fun nd => { nd with operator := some op }) = nodes := by
    apply ext_getElem?
    intro i
    by_cases hi : n = i
    · subst hi
      have hn' : nodes[n]? = some nd := hn
      simp [hn', ← hop]
    · simp [hi]
  show LocalExecutor.mk (nodes.modify n _) tables = _
  rw [this]

/-- Pairs of a row of `S` and a row of `T` that join. -/
def joinSet (op : JoinOp) (S T : Set VRow) : Set VRow :=
  { v | ∃ a ∈ S, ∃ r ∈ T, op.Matches a r ∧ v = op.combineV a r }

theorem rows_of_leftRows {op : JoinOp} (hop : op.join_type = .inner) {a v : VRow}
    (h : v ∈ op.leftRows V a) : ∃ r ∈ V.filter (op.Matches a), v = op.combineV a r := by
  have hnl : ¬(op.join_type = .left ∧ V.filter (op.Matches a) = 0) := by
    rintro ⟨hl, -⟩
    rw [hop] at hl
    cases hl
  rw [JoinOp.leftRows, if_neg hnl] at h
  obtain ⟨r, hr, rfl⟩ := Multiset.mem_map.mp h
  exact ⟨r, hr, rfl⟩

section Process

variable {ex : LocalExecutor} {w : Nat → Nat} {c wc : Nat} {l : Link} {records : Records}
  {F : Set VRow}

theorem processChild_leftRows (hj : ex.JoinAt w c wc l) (hright : ex.StateAt l.right R)
    (hwr : ∀ v ∈ R, v.length = w l.right) (hrows : ∀ r ∈ records, r.row.length = wc)
    (hV : ∀ r ∈ records, R.filter (l.op.Matches (Row.val r.row))
      = V.filter (l.op.Matches (Row.val r.row))) (happ : Applies L records.changes L') :
    ∃ results, ex.processChild c l.node records = some (ex, results) ∧
      Applies (L.bind (l.op.leftRows V)) (Records.changes results)
        (L'.bind (l.op.leftRows V)) ∧
      ∀ r ∈ results, ∃ r₀ ∈ records, Row.val r.row ∈ l.op.leftRows V (Row.val r₀.row) := by
  obtain ⟨nd, hn, hop, hpar⟩ := hj.node
  obtain ⟨ndr, st, hnr, hst, hkey⟩ := hj.index
  obtain ⟨hok, hbag⟩ := hright ndr st hnr hst
  have hrecord : ∀ r ∈ records, ∃ out look, l.op.processRecord 0 st.snapshot r = some (out, look) ∧
      r.change.Expands (l.op.leftRows V) (Records.changes out) := by
    intro r hr
    obtain ⟨out, look, hout, hexp⟩ := JoinOp.processRecord_left hj.reads hok hkey
      (by rw [hbag]; exact hwr) (hrows r hr)
    refine ⟨out, look, hout, hexp.congr ?_⟩
    rw [Record.elem_change, JoinOp.leftRows, JoinOp.leftRows, hbag, hV r hr]
  obtain ⟨results, look, hres, happ', hmem⟩ := JoinOp.process_of_expands hrecord happ
  refine ⟨results, ?_, happ', hmem⟩
  have hstate : ex.state_for_op nd 0 = some (some st.snapshot) := by
    simp [state_for_op, hpar, hnr, hst]
  simp only [processChild, hn, hpar, hop, Option.bind_eq_bind, Option.bind_some,
    findIdx?_cons, BEq.rfl, if_true, Option.getD_some, hstate, OperatorType.process, hres,
    Option.map_some]
  rw [setOperator_self hn hop]

theorem processChild_left (hj : ex.Joined w c wc l) (hright : ex.StateAt l.right R)
    (hwr : ∀ v ∈ R, v.length = w l.right)
    (hrows : ∀ r ∈ records, r.row.length = wc ∧ Row.val r.row ∈ F)
    (hV : ∀ r ∈ records, R.filter (l.op.Matches (Row.val r.row))
      = V.filter (l.op.Matches (Row.val r.row))) (happ : Applies L records.changes L') :
    ∃ results, ex.processChild c l.node records = some (ex, results) ∧
      Applies (l.op.inner L V) (Records.changes results) (l.op.inner L' V) ∧
      ∀ r ∈ results, r.row.length = l.op.emit.length ∧
        Row.val r.row ∈ joinSet l.op F { s | s ∈ R } := by
  have hnl : l.op.join_type ≠ .left := by
    rw [hj.inner]
    decide
  obtain ⟨results, hres, happ', hmem⟩ := processChild_leftRows hj.toJoinAt hright hwr
    (fun r hr => (hrows r hr).1) hV happ
  rw [JoinOp.bind_leftRows hnl, JoinOp.bind_leftRows hnl] at happ'
  refine ⟨results, hres, happ', fun r hr => ?_⟩
  obtain ⟨r₀, hr₀, hv⟩ := hmem r hr
  refine ⟨by rw [← Row.length_val]; exact JoinOp.length_of_mem_leftRows hv, _, (hrows r₀ hr₀).2, ?_⟩
  obtain ⟨s, hs, hvs⟩ := rows_of_leftRows hj.inner hv
  rw [← hV r₀ hr₀, Multiset.mem_filter] at hs
  exact ⟨s, hs.1, hs.2, hvs⟩

theorem processChild_right (hj : ex.JoinAt w c wc l) (hne : l.right ≠ c)
    (hidx : ex.HasIndex c l.op.left_key) (hleft : ex.StateAt c L) (hwl : ∀ v ∈ L, v.length = wc)
    (hrows : ∀ r ∈ records, r.row.length = w l.right ∧ Row.val r.row ∈ F) {R' : Multiset VRow}
    (happ : Applies R records.changes R') :
    ∃ results, ex.processChild l.right l.node records = some (ex, results) ∧
      Applies (l.op.inner L R) (Records.changes results) (l.op.inner L R') ∧
      ∀ r ∈ results, r.row.length = l.op.emit.length ∧
        Row.val r.row ∈ joinSet l.op { a | a ∈ L } F := by
  obtain ⟨nd, hn, hop, hpar⟩ := hj.node
  obtain ⟨ndl, st, hnl, hst, hkey⟩ := hidx
  obtain ⟨hok, hbag⟩ := hleft ndl st hnl hst
  obtain ⟨results, look, hres, happ', hmem⟩ := JoinOp.process_of_expands (fun r hr =>
    JoinOp.processRecord_right hj.reads hok hkey (by rw [hbag]; exact hwl) (hrows r hr).1) happ
  rw [JoinOp.bind_rightRows, JoinOp.bind_rightRows, hbag] at happ'
  have hsent : ∀ r ∈ results, r.row.length = l.op.emit.length ∧
      Row.val r.row ∈ joinSet l.op { a | a ∈ L } F := by
    intro r hr
    obtain ⟨r₀, hr₀, hv⟩ := hmem r hr
    rw [hbag] at hv
    refine ⟨by rw [← Row.length_val]; exact JoinOp.length_of_mem_rightRows hv, ?_⟩
    obtain ⟨a, ha, hva⟩ := Multiset.mem_map.mp hv
    rw [Multiset.mem_filter] at ha
    exact ⟨a, ha.1, _, (hrows r₀ hr₀).2, ha.2, hva.symm⟩
  refine ⟨results, ?_, happ', hsent⟩
  have hstate : ex.state_for_op nd 1 = some (some st.snapshot) := by
    simp [state_for_op, hpar, hnl, hst]
  have hfind : ([c, l.right].findIdx? (· == l.right)).getD 0 = 1 := by
    simp [findIdx?_cons, Ne.symm hne]
  simp only [processChild, hn, hpar, hop, Option.bind_eq_bind, Option.bind_some, hfind, hstate,
    OperatorType.process, hres, Option.map_some]
  rw [setOperator_self hn hop]

end Process

/-! ## Running down the chain -/

/-- The states from node `c` down: `c` has the content `L`, and every join below has the join of the
    content above it with its link's version of the right table. -/
def Holds (ex : LocalExecutor) : Nat → Multiset VRow → List (Link × Multiset VRow) → Prop
  | c, L, [] => ex.StateAt c L
  | c, L, (l, V) :: rest => ex.StateAt c L ∧ Holds ex l.node (l.op.inner L V) rest

/-- Rows of `F` that enter the chain find the same matches in the tables'
    states `A` as in the versions. -/
def Safe (A : Nat → Multiset VRow) : Set VRow → List (Link × Multiset VRow) → Prop
  | _, [] => True
  | F, (l, V) :: rest =>
    (∀ a ∈ F, (A l.right).filter (l.op.Matches a) = V.filter (l.op.Matches a)) ∧
      Safe A (joinSet l.op F { r | r ∈ A l.right }) rest

theorem Holds.congr {ex ex' : LocalExecutor} {c : Nat} (h : ex.Holds c L vl)
    (hc : ex'.nodes[c]? = ex.nodes[c]?)
    (hvl : ∀ p ∈ vl, ex'.nodes[p.1.node]? = ex.nodes[p.1.node]?) : ex'.Holds c L vl := by
  induction vl generalizing c L with
  | nil => exact StateAt.congr h hc
  | cons p rest ih =>
    obtain ⟨l, V⟩ := p
    exact ⟨h.1.congr hc, ih h.2 (hvl (l, V) mem_cons_self) (forall_mem_cons.mp hvl).2⟩

theorem propagate_leaf {ex : LocalExecutor} {c wc : Nat} {records : Records}
    (hlt : c < ex.nodes.length) (hfuel : ex.nodes.length ≤ c + fuel) (hkeys : ex.KeysBelow c wc)
    (hleaf : ex.children c = []) (hst : ex.StateAt c L) (hrows : ∀ r ∈ records, r.row.length = wc)
    (happ : Applies L records.changes L') :
    ∃ ex', ex.propagate fuel c records = some ex' ∧ ex'.StateAt c L' ∧
      ∀ i, i ≠ c → ex'.nodes[i]? = ex.nodes[i]? := by
  obtain ⟨fuel, rfl⟩ : ∃ k, fuel = k + 1 := ⟨fuel - 1, by omega⟩
  unfold propagate
  split
  · rename_i hnil
    rw [List.isEmpty_iff] at hnil
    subst hnil
    rw [Records.changes_nil, Applies.nil_iff] at happ
    exact ⟨ex, rfl, by rw [← happ]; exact hst, fun _ _ => rfl⟩
  · obtain ⟨ex₁, hup, hst₁, nd, nd₁, hn, -, -, -, -⟩ := updateState_bag hlt hst
      (fun nd st hn hst r hr k hk => by
        rw [hrows r hr]
        exact hkeys nd st hn hst k hk) happ
    have hchi : nd.children = [] := by
      rwa [children, hn] at hleaf
    refine ⟨ex₁, ?_, hst₁, fun i hi => (updateState_frame hup).2 i hi⟩
    simp [hn, hup, hchi]

/-- A batch that takes the join `c` from `L` to `L'` takes every join below
    it to the join of the new content, and changes nothing else. -/
theorem propagate_chain {A : Nat → Multiset VRow} {w : Nat → Nat}
    (hA : ∀ b, ∀ v ∈ A b, v.length = w b) {ex : LocalExecutor} {c wc : Nat} {records : Records}
    {F : Set VRow} (hlt : c < ex.nodes.length) (hfuel : ex.nodes.length ≤ c + fuel)
    (hkeys : ex.KeysBelow c wc) (hlinked : ex.Linked w c wc (vl.map Prod.fst))
    (hbase : ∀ p ∈ vl, ex.StateAt p.1.right (A p.1.right))
    (hnotc : ∀ p ∈ vl, ∀ q ∈ vl, p.1.right ≠ q.1.node) (hnot : ∀ p ∈ vl, p.1.right ≠ c)
    (hholds : ex.Holds c L vl) (hrows : ∀ r ∈ records, r.row.length = wc ∧ Row.val r.row ∈ F)
    (hsafe : Safe A F vl) (happ : Applies L records.changes L') :
    ∃ ex', ex.propagate fuel c records = some ex' ∧ ex'.Holds c L' vl ∧
      ∀ i, i ≠ c → (∀ p ∈ vl, i ≠ p.1.node) → ex'.nodes[i]? = ex.nodes[i]? := by
  induction vl generalizing fuel ex c wc records L L' F with
  | nil =>
    obtain ⟨ex', hprop, hst, hf⟩ := propagate_leaf hlt hfuel hkeys hlinked hholds
      (fun r hr => (hrows r hr).1) happ
    exact ⟨ex', hprop, hst, fun i hi _ => hf i hi⟩
  | cons p rest ih =>
    obtain ⟨l, V⟩ := p
    obtain ⟨fuel, rfl⟩ : ∃ k, fuel = k + 1 := ⟨fuel - 1, by omega⟩
    have hlts := hlinked.lt
    obtain ⟨hchildren, hj, -, -, hlinked'⟩ := hlinked
    replace hj : ex.Joined w c wc l := hj
    unfold propagate
    split
    · rename_i hnil
      rw [List.isEmpty_iff] at hnil
      subst hnil
      rw [Records.changes_nil, Applies.nil_iff] at happ
      exact ⟨ex, rfl, by rw [← happ]; exact hholds, fun _ _ _ => rfl⟩
    · obtain ⟨hhere, hbelow⟩ := hholds
      obtain ⟨ex₁, hup, hst₁, nd, nd₁, hn, -, -, -, -⟩ := updateState_bag hlt hhere
        (fun nd st hn hst r hr k hk => by
          rw [(hrows r hr).1]
          exact hkeys nd st hn hst k hk) happ
      obtain ⟨hs₁, hf₁⟩ := updateState_frame hup
      have hchi : nd.children = [l.node] := by rwa [children, hn] at hchildren
      -- the join below, read against the right table's state
      have hright := hbase (l, V) mem_cons_self
      have hne := hnot (l, V) mem_cons_self
      obtain ⟨results, hpc, happ', hmem⟩ := processChild_left (hj.sameShape hs₁)
        (hright.congr (hf₁ _ hne)) (hA l.right) hrows (fun r hr => hsafe.1 _ (hrows r hr).2) happ
      have hnode : l.node ≠ c := Nat.ne_of_gt hj.gt
      have hbelow₁ : ex₁.Holds l.node (l.op.inner L V) rest := by
        refine hbelow.congr (hf₁ _ hnode) fun q hq => hf₁ _ ?_
        exact Nat.ne_of_gt (hlts q.1 (mem_cons_of_mem _ (mem_map_of_mem hq)))
      obtain ⟨nd', hn', -⟩ := hj.node
      have hfuel₁ : ex₁.nodes.length ≤ l.node + fuel := by
        rw [hs₁.length_eq]
        have := hj.gt
        omega
      obtain ⟨ex₂, hprop, hholds₂, hf₂⟩ := ih
        (by rw [hs₁.length_eq]; exact (List.getElem?_eq_some_iff.mp hn').1)
        hfuel₁ (hj.keys.sameShape hs₁)
        (hlinked'.sameShape hs₁)
        (fun q hq => (hbase q (mem_cons_of_mem _ hq)).congr
          (hf₁ _ (hnot q (mem_cons_of_mem _ hq))))
        (fun p hp q hq => hnotc p (mem_cons_of_mem _ hp) q (mem_cons_of_mem _ hq))
        (fun q hq => hnotc q (mem_cons_of_mem _ hq) (l, V) mem_cons_self)
        hbelow₁ hmem hsafe.2 happ'
      refine ⟨ex₂, ?_, ⟨hst₁.congr ?_, hholds₂⟩, ?_⟩
      · simp [hn, hup, hchi, hpc, hprop]
      · refine hf₂ c (Ne.symm hnode) fun q hq => Nat.ne_of_lt ?_
        exact hlts q.1 (mem_cons_of_mem _ (mem_map_of_mem hq))
      · intro i hi hq
        rw [hf₂ i (hq (l, V) mem_cons_self) (forall_mem_cons.mp hq).2, hf₁ i hi]

/-! ## A batch for one table -/

/-- The links with the same version of a table at every occurrence. -/
def versions (B : Nat → Multiset VRow) (links : List Link) : List (Link × Multiset VRow) :=
  links.map fun l => (l, B l.right)

/-- The joins that have table `b` as their right input. -/
def edgesTo (b : Nat) (links : List Link) : List Nat :=
  (links.filter fun l => l.right = b).map Link.node

theorem map_fst_versions (B : Nat → Multiset VRow) (links : List Link) :
    (versions B links).map Prod.fst = links := by
  rw [versions, map_map]
  exact map_id _

theorem mem_versions {B : Nat → Multiset VRow} {p : Link × Multiset VRow}
    (h : p ∈ versions B links) : p.1 ∈ links := by
  obtain ⟨l, hl, rfl⟩ := mem_map.mp h
  exact hl

/-- The later occurrences of table `b` are not disturbed by the batch `D`
    arriving at an earlier one: `L` is the content above the links. -/
def Quiet (B B' : Nat → Multiset VRow) (b : Nat) (D : Set VRow) : Multiset VRow → List Link → Prop
  | _, [] => True
  | L, l :: rest =>
    (l.right = b → Safe B' (joinSet l.op { a | a ∈ L } D) (versions B rest)) ∧
      Quiet B B' b D (l.op.inner L (B' l.right)) rest

section Batch

variable {B B' : Nat → Multiset VRow} {w : Nat → Nat} {b : Nat} {records : Records}
  {D : Set VRow}

theorem loop_chain (hB' : ∀ n, ∀ v ∈ B' n, v.length = w n) (hsame : ∀ n, n ≠ b → B' n = B n)
    (happ : Applies (B b) records.changes (B' b))
    (hrows : ∀ r ∈ records, r.row.length = w b ∧ Row.val r.row ∈ D) {ex : LocalExecutor}
    {c wc : Nat} (hfuel : ex.nodes.length ≤ c + (fuel + 1)) (hlinked : ex.Linked w c wc links)
    (hbase : ∀ l ∈ links, ex.StateAt l.right (B' l.right))
    (hnotc : ∀ l ∈ links, ∀ l' ∈ links, l.right ≠ l'.node) (hnot : ∀ l ∈ links, l.right ≠ c)
    (hholds : ex.Holds c L (versions B links)) (hL : ∀ v ∈ L, v.length = wc)
    (hquiet : Quiet B B' b D L links) : ∃ ex', (edgesTo b links).foldlM (fun ex child => do
        let (ex, results) ← ex.processChild b child records
        propagate fuel ex child results) ex = some ex' ∧
      ex'.Holds c L (versions B' links) ∧ SameShape ex ex' ∧
      ∀ i, (∀ l ∈ links, i ≠ l.node) → ex'.nodes[i]? = ex.nodes[i]? := by
  induction links generalizing ex c wc L with
  | nil => exact ⟨ex, rfl, hholds, .refl ex, fun _ _ => rfl⟩
  | cons l rest ih =>
    have hlts := hlinked.lt
    obtain ⟨-, hj, hidx, -, hlinked'⟩ := hlinked
    obtain ⟨hhere, hbelow⟩ := hholds
    have hright_ne := hnot l mem_cons_self
    have hgt := hj.gt
    -- what comes after the join, whatever happened at it
    have hrest : ∀ {ex₁ : LocalExecutor}, SameShape ex ex₁ →
        (∀ i, i ≠ l.node → (∀ l' ∈ rest, i ≠ l'.node) → ex₁.nodes[i]? = ex.nodes[i]?) →
        ex₁.Holds l.node (l.op.inner L (B' l.right)) (versions B rest) →
        ∃ ex', (edgesTo b rest).foldlM (fun ex child => do
            let (ex, results) ← ex.processChild b child records
            propagate fuel ex child results) ex₁ = some ex' ∧
          ex'.Holds c L (versions B' (l :: rest)) ∧ SameShape ex ex' ∧
          ∀ i, (∀ l' ∈ l :: rest, i ≠ l'.node) → ex'.nodes[i]? = ex.nodes[i]? := by
      intro ex₁ hs₁ hf₁ hholds₁
      obtain ⟨ex', hloop, hholds', hs', hf'⟩ := ih (by rw [hs₁.length_eq]; omega)
        (hlinked'.sameShape hs₁)
        (fun l' hl' => (hbase l' (mem_cons_of_mem _ hl')).congr (hf₁ _
          (hnotc l' (mem_cons_of_mem _ hl') l mem_cons_self)
          fun l'' hl'' => hnotc l' (mem_cons_of_mem _ hl') l'' (mem_cons_of_mem _ hl'')))
        (fun l' hl' l'' hl'' => hnotc l' (mem_cons_of_mem _ hl') l''
          (mem_cons_of_mem _ hl''))
        (fun l' hl' => hnotc l' (mem_cons_of_mem _ hl') l mem_cons_self) hholds₁
        (fun v hv => JoinOp.length_of_mem_inner hv) hquiet.2
      have hc : ex'.nodes[c]? = ex.nodes[c]? := by
        rw [hf' c fun l' hl' => Nat.ne_of_lt (hlts l' (mem_cons_of_mem _ hl')),
          hf₁ c (Nat.ne_of_lt hgt) fun l' hl' =>
            Nat.ne_of_lt (hlts l' (mem_cons_of_mem _ hl'))]
      refine ⟨ex', hloop, ⟨hhere.congr hc, hholds'⟩, hs₁.trans hs', fun i hi => ?_⟩
      rw [hf' i (forall_mem_cons.mp hi).2,
        hf₁ i (hi l mem_cons_self) (forall_mem_cons.mp hi).2]
    by_cases hb : l.right = b
    · -- the batch enters at this join
      subst hb
      obtain ⟨results, hpc, happ', hmem⟩ := processChild_right hj.toJoinAt hright_ne hidx hhere hL
        hrows happ
      obtain ⟨nd, hn, -⟩ := hj.node
      have hfuel₁ : ex.nodes.length ≤ l.node + fuel := by omega
      obtain ⟨ex₁, hprop, hholds₁, hf₁⟩ := propagate_chain hB'
        (List.getElem?_eq_some_iff.mp hn).1 hfuel₁ hj.keys
        (by rw [map_fst_versions]; exact hlinked')
        (fun p hp => hbase p.1 (mem_cons_of_mem _ (mem_versions hp)))
        (fun p hp q hq => hnotc p.1 (mem_cons_of_mem _ (mem_versions hp)) q.1
          (mem_cons_of_mem _ (mem_versions hq)))
        (fun p hp => hnotc p.1 (mem_cons_of_mem _ (mem_versions hp)) l mem_cons_self)
        hbelow hmem (hquiet.1 rfl) happ'
      obtain ⟨hs₁, -⟩ := propagate_frame hprop
      obtain ⟨ex', hloop, hfinal⟩ := hrest hs₁
        (fun i hi hi' => hf₁ i hi fun p hp => hi' p.1 (mem_versions hp)) hholds₁
      refine ⟨ex', ?_, hfinal⟩
      have hedges : edgesTo l.right (l :: rest) = l.node :: edgesTo l.right rest := by
        simp [edgesTo]
      rw [hedges, foldlM_cons]
      simp only [hpc, Option.bind_eq_bind, Option.bind_some, hprop]
      exact hloop
    · have hedges : edgesTo b (l :: rest) = edgesTo b rest := by
        simp [edgesTo, hb]
      rw [hedges]
      refine hrest (.refl ex) (fun _ _ _ => rfl) ?_
      rw [hsame l.right hb]
      exact hbelow

end Batch

def bases (first : Nat) (links : List Link) : List Nat := first :: links.map Link.right

/-- A chain of joins that starts at the base table `first`. Every base table is materialized on the
    column that its joins look up, but for a first table that is joined with itself: that join never
    looks at it from the right. -/
structure Chain (ex : LocalExecutor) (w : Nat → Nat) (first : Nat) (l₁ : Link)
    (rest : List Link) : Prop where
  joined : ex.Joined w first (w first) l₁
  linked : ex.Linked w l₁.node l₁.op.emit.length rest
  index : l₁.right ≠ first → ex.HasIndex first l₁.op.left_key
  lt : ∀ b ∈ bases first (l₁ :: rest), b < ex.nodes.length
  keys : ∀ b ∈ bases first (l₁ :: rest), ex.KeysBelow b (w b)
  children : ∀ b ∈ bases first (l₁ :: rest), ex.children b
    = (if first = b then [l₁.node] else []) ++ edgesTo b (l₁ :: rest)
  apart : ∀ b ∈ bases first (l₁ :: rest), ∀ l ∈ l₁ :: rest, b ≠ l.node

/-- The states of the base tables and the joins of a chain. -/
structure ChainAt (ex : LocalExecutor) (first : Nat) (l₁ : Link) (rest : List Link)
    (B : Nat → Multiset VRow) : Prop where
  base : ∀ b ∈ bases first (l₁ :: rest), ex.StateAt b (B b)
  joins : ex.Holds l₁.node (l₁.op.inner (B first) (B l₁.right)) (versions B rest)

/-- What a batch `D` for table `b` must not do: disturb a later occurrence
    of the table, or take part in a join of the table with itself. -/
structure QuietBatch (B B' : Nat → Multiset VRow) (b : Nat) (D : Set VRow) (first : Nat)
    (l₁ : Link) (rest : List Link) : Prop where
  self_none : first = b → l₁.right = b → ∀ d ∈ D, (B' b).filter (l₁.op.Matches d) = 0
  self_same : first = b → l₁.right = b → l₁.op.inner (B' b) (B' b) = l₁.op.inner (B b) (B b)
  first_safe : first = b → l₁.right ≠ b →
    Safe B' (joinSet l₁.op D { r | r ∈ B' l₁.right }) (versions B rest)
  right_safe : first ≠ b → l₁.right = b →
    Safe B' (joinSet l₁.op { a | a ∈ B' first } D) (versions B rest)
  rest_quiet : Quiet B B' b D (l₁.op.inner (B' first) (B' l₁.right)) rest

theorem Chain.sameShape {ex ex' : LocalExecutor} {w : Nat → Nat} {first : Nat} {l₁ : Link}
    {rest : List Link} (h : SameShape ex ex') (hc : ex.Chain w first l₁ rest) :
    ex'.Chain w first l₁ rest where
  joined := hc.joined.sameShape h
  linked := hc.linked.sameShape h
  index hne := (hc.index hne).sameShape h
  lt b hb := by
    rw [h.length_eq]
    exact hc.lt b hb
  keys b hb := (hc.keys b hb).sameShape h
  children b hb := by
    rw [h.children_eq]
    exact hc.children b hb
  apart := hc.apart

section Batch

variable {ex : LocalExecutor} {w : Nat → Nat} {first : Nat} {l₁ : Link} {rest : List Link}
  {B B' : Nat → Multiset VRow} {b : Nat} {records : Records} {D : Set VRow}

/-- The first join, when the batch reaches it as exactly one of its inputs or as none: afterwards it
    has its new content. The list says how often the join is a child of the written table. -/
theorem first_join (hc : ex.Chain w first l₁ rest) (hB' : ∀ n, ∀ v ∈ B' n, v.length = w n)
    (hsame : ∀ n, n ≠ b → B' n = B n) (hbase : ∀ n ∈ bases first (l₁ :: rest), ex.StateAt n (B' n))
    (hjoins : ex.Holds l₁.node (l₁.op.inner (B first) (B l₁.right)) (versions B rest))
    (happ : Applies (B b) records.changes (B' b))
    (hrows : ∀ r ∈ records, r.row.length = w b ∧ Row.val r.row ∈ D)
    (hfuel : ex.nodes.length ≤ b + (fuel + 1)) (hlt : first = b ∨ l₁.right = b → b < l₁.node)
    (hq : QuietBatch B B' b D first l₁ rest) :
    ∃ ex', ((if first = b then [l₁.node] else []) ++ if l₁.right = b then [l₁.node] else []).foldlM
        (fun ex child => do
          let (ex, results) ← ex.processChild b child records
          propagate fuel ex child results) ex = some ex' ∧
      SameShape ex ex' ∧
      ex'.Holds l₁.node (l₁.op.inner (B' first) (B' l₁.right)) (versions B rest) ∧
      ∀ i, (∀ l ∈ l₁ :: rest, i ≠ l.node) → ex'.nodes[i]? = ex.nodes[i]? := by
  have hj := hc.joined
  have hmem_first : first ∈ bases first (l₁ :: rest) := List.mem_cons_self
  have hmem_right : l₁.right ∈ bases first (l₁ :: rest) := List.mem_cons_of_mem _ mem_cons_self
  have hmem_rest : ∀ p ∈ versions B rest, p.1.right ∈ bases first (l₁ :: rest) := by
    intro p hp
    exact mem_cons_of_mem _ (mem_cons_of_mem _ (mem_map_of_mem (mem_versions hp)))
  obtain ⟨nd, hn, -⟩ := hj.node
  have hnode_lt := (List.getElem?_eq_some_iff.mp hn).1
  -- once the join's own batch is known, it runs down the rest of the chain
  have hdown : ∀ {results : Records} {F : Set VRow} {J J' : Multiset VRow},
      b < l₁.node → ex.Holds l₁.node J (versions B rest) →
      (∀ r ∈ results, r.row.length = l₁.op.emit.length ∧ Row.val r.row ∈ F) →
      Safe B' F (versions B rest) → Applies J (Records.changes results) J' →
      ∃ ex', ex.propagate fuel l₁.node results = some ex' ∧ SameShape ex ex' ∧
        ex'.Holds l₁.node J' (versions B rest) ∧
        ∀ i, (∀ l ∈ l₁ :: rest, i ≠ l.node) → ex'.nodes[i]? = ex.nodes[i]? := by
    intro results F J J' hbl hJ hres hsafe happ'
    have hfuel₁ : ex.nodes.length ≤ l₁.node + fuel := by omega
    obtain ⟨ex', hprop, hholds, hf⟩ := propagate_chain hB' hnode_lt hfuel₁ hj.keys
      (by rw [map_fst_versions]; exact hc.linked) (fun p hp => hbase _ (hmem_rest p hp))
      (fun p hp q hq' => hc.apart _ (hmem_rest p hp) _
        (mem_cons_of_mem _ (mem_versions hq')))
      (fun p hp => hc.apart _ (hmem_rest p hp) _ mem_cons_self) hJ hres hsafe happ'
    exact ⟨ex', hprop, (propagate_frame hprop).1, hholds, fun i hi =>
      hf i (hi l₁ mem_cons_self) fun p hp =>
        hi p.1 (mem_cons_of_mem _ (mem_versions hp))⟩
  by_cases hfirst : first = b
  · by_cases hright : l₁.right = b
    · -- a table joined with itself: twice the same batch, without a match
      have hnone : ∀ r ∈ records, (B' l₁.right).filter (l₁.op.Matches (Row.val r.row)) = 0 := by
        intro r hr
        rw [hright]
        exact hq.self_none hfirst hright _ (hrows r hr).2
      obtain ⟨results, hpc, -, hmem⟩ := processChild_left hj (hbase _ hmem_right) (hB' _)
        (hfirst ▸ hrows) (fun r hr => (hnone r hr).trans (Multiset.filter_zero _).symm) happ
      have hnil : results = [] := by
        rw [eq_nil_iff_forall_not_mem]
        intro r hr
        obtain ⟨-, a, ha, s, hs, hmatch, -⟩ := hmem r hr
        exact Multiset.filter_eq_nil.mp (hq.self_none hfirst hright a ha) s (hright ▸ hs) hmatch
      subst hnil
      have hprop : ex.propagate fuel l₁.node [] = some ex := by
        obtain ⟨k, rfl⟩ : ∃ k, fuel = k + 1 := by
          have := hlt (.inl hfirst)
          exact ⟨fuel - 1, by omega⟩
        simp [propagate]
      have hpc' : ex.processChild b l₁.node records = some (ex, []) := by
        rw [← hfirst]
        exact hpc
      refine ⟨ex, ?_, .refl ex, ?_, fun _ _ => rfl⟩
      · simp [hfirst, hright, hpc', hprop]
      · rw [hfirst, hright, hq.self_same hfirst hright]
        rw [hfirst, hright] at hjoins
        exact hjoins
    · -- the batch comes from the left
      have hr_same := hsame _ hright
      obtain ⟨results, hpc, happ', hmem⟩ := processChild_left hj (hbase _ hmem_right) (hB' _)
        (hfirst ▸ hrows) (fun _ _ => rfl) happ
      rw [hfirst, ← hr_same] at hjoins
      obtain ⟨ex', hprop, hs, hholds, hf⟩ := hdown (hlt (.inl hfirst)) hjoins hmem
        (hq.first_safe hfirst hright) happ'
      have hpc' : ex.processChild b l₁.node records = some (ex, results) := by
        rw [← hfirst]
        exact hpc
      refine ⟨ex', ?_, hs, ?_, hf⟩
      · simp [hfirst, hright, hpc', hprop]
      · rw [hfirst]
        exact hholds
  · by_cases hright : l₁.right = b
    · -- the batch comes from the right
      have hne : l₁.right ≠ first := by
        rw [hright]
        exact Ne.symm hfirst
      have hf_same := hsame _ hfirst
      obtain ⟨results, hpc, happ', hmem⟩ := processChild_right hj.toJoinAt hne (hc.index hne)
        (hbase _ hmem_first) (hB' _) (hright ▸ hrows) happ
      rw [hright, ← hf_same] at hjoins
      obtain ⟨ex', hprop, hs, hholds, hf⟩ := hdown (hlt (.inr hright)) hjoins hmem
        (hq.right_safe hfirst hright) happ'
      rw [hright] at hpc
      refine ⟨ex', ?_, hs, ?_, hf⟩
      · simp [hfirst, hright, hpc, hprop]
      · rw [hright]
        exact hholds
    · refine ⟨ex, by simp [hfirst, hright], .refl ex, ?_, fun _ _ => rfl⟩
      rw [hsame _ hfirst, hsame _ hright]
      exact hjoins

theorem propagate_base (hc : ex.Chain w first l₁ rest) (hat : ex.ChainAt first l₁ rest B)
    (hb : b ∈ bases first (l₁ :: rest)) (hB' : ∀ n, ∀ v ∈ B' n, v.length = w n)
    (hsame : ∀ n, n ≠ b → B' n = B n) (happ : Applies (B b) records.changes (B' b))
    (hrows : ∀ r ∈ records, r.row.length = w b ∧ Row.val r.row ∈ D)
    (hq : QuietBatch B B' b D first l₁ rest) :
    ∃ ex', ex.propagate ex.nodes.length b records = some ex' ∧ ex'.ChainAt first l₁ rest B' := by
  have hlt := hc.lt b hb
  have hself : records = [] → B' = B := by
    rintro rfl
    rw [Records.changes_nil, Applies.nil_iff] at happ
    funext n
    by_cases hn : n = b
    · rw [hn, happ]
    · exact hsame n hn
  obtain ⟨fuel, hfuel⟩ : ∃ k, ex.nodes.length = k + 1 := ⟨ex.nodes.length - 1, by omega⟩
  rw [hfuel]
  unfold propagate
  split
  · rename_i hnil
    rw [List.isEmpty_iff] at hnil
    exact ⟨ex, rfl, by rw [hself hnil]; exact hat⟩
  · obtain ⟨ex₁, hup, hst₁, nd, nd₁, hn, -, -, -, -⟩ := updateState_bag hlt (hat.base b hb)
      (fun nd st hn hst r hr k hk => by
        rw [(hrows r hr).1]
        exact hc.keys b hb nd st hn hst k hk) happ
    obtain ⟨hs₁, hf₁⟩ := updateState_frame hup
    have hc₁ := hc.sameShape hs₁
    have hchildren : nd.children
        = ((if first = b then [l₁.node] else []) ++ if l₁.right = b then [l₁.node] else [])
          ++ edgesTo b rest := by
      have := hc.children b hb
      rw [children, hn, edgesTo, filter_cons] at this
      have hchi : nd.children = _ := this
      rw [hchi, append_assoc]
      by_cases hr : l₁.right = b
      · simp [hr, edgesTo]
      · simp [hr, edgesTo]
    have hbase₁ : ∀ n ∈ bases first (l₁ :: rest), ex₁.StateAt n (B' n) := by
      intro n hn
      by_cases hnb : n = b
      · rw [hnb]
        exact hst₁
      · rw [hsame n hnb]
        exact (hat.base n hn).congr (hf₁ n hnb)
    have hjoins₁ : ex₁.Holds l₁.node (l₁.op.inner (B first) (B l₁.right)) (versions B rest) := by
      refine hat.joins.congr (hf₁ _ (Ne.symm (hc.apart b hb l₁ mem_cons_self)))
        fun p hp => hf₁ _ (Ne.symm (hc.apart b hb p.1 (mem_cons_of_mem _ (mem_versions hp))))
    have hgt : first = b ∨ l₁.right = b → b < l₁.node := by
      rintro (rfl | rfl)
      · exact hc.joined.gt
      · exact hc.joined.right_lt
    have hfuel₁ : ex₁.nodes.length ≤ b + (fuel + 1) := by
      rw [hs₁.length_eq]
      omega
    obtain ⟨ex₂, hloop₁, hs₂, hholds₂, hf₂⟩ := first_join hc₁ hB' hsame hbase₁ hjoins₁ happ hrows
      hfuel₁ hgt hq
    have hmem_rest : ∀ l ∈ rest, l.right ∈ bases first (l₁ :: rest) := fun l hl =>
      mem_cons_of_mem _ (mem_cons_of_mem _ (mem_map_of_mem hl))
    have hbase₂ : ∀ n ∈ bases first (l₁ :: rest), ex₂.StateAt n (B' n) := fun n hn =>
      (hbase₁ n hn).congr (hf₂ n fun l hl => hc.apart n hn l hl)
    have hfuel₂ : ex₂.nodes.length ≤ l₁.node + (fuel + 1) := by
      rw [hs₂.length_eq, hs₁.length_eq]
      omega
    obtain ⟨ex₃, hloop₂, hholds₃, hs₃, hf₃⟩ := loop_chain hB' hsame happ hrows hfuel₂
      (hc₁.linked.sameShape hs₂) (fun l hl => hbase₂ _ (hmem_rest l hl))
      (fun l hl l' hl' => hc.apart _ (hmem_rest l hl) l' (mem_cons_of_mem _ hl'))
      (fun l hl => hc.apart _ (hmem_rest l hl) l₁ mem_cons_self) hholds₂
      (fun v hv => JoinOp.length_of_mem_inner hv) hq.rest_quiet
    refine ⟨ex₃, ?_, ?_, hholds₃⟩
    · have hloop : nd.children.foldlM (fun ex child => do
          let (ex, results) ← ex.processChild b child records
          propagate fuel ex child results) ex₁ = some ex₃ := by
        rw [hchildren, foldlM_append, hloop₁]
        exact hloop₂
      simp only [hn, hup, Option.bind_eq_bind, Option.bind_some]
      exact hloop
    · exact fun n hn => (hbase₂ n hn).congr
        (hf₃ n fun l hl => hc.apart n hn l (mem_cons_of_mem _ hl))

end Batch

end LocalExecutor

end Noria.Sqlite

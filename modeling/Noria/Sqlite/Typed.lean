import Noria.Sqlite.Build
import Noria.Sqlite.Join
import Noria.Sqlite.Tree

/-! # Writes do not panic

  The only panics of a write are columns that a row does not have. In a typed executor every
  operator reads columns that its parents' rows have and emits rows of its node's width. Where the
  stored rows have the width of their node, rows that fit propagate, and the stored rows go on to
  have it (`propagate_typed`).
-/

namespace Noria.Sqlite

open List Option

variable {record : Record} {l : Row} {ws : List Nat} {w n src : Nat} {nd : Node} {st : MemoryState}
  {op : JoinOp} {wl wr side w₀ : Nat}

/-! ## Typed states -/

namespace MemoryState

/-- Every stored row has `width` columns. -/
def Filled (st : MemoryState) (width : Nat) : Prop :=
  ∀ key rows, st.data.get? key = some rows → ∀ row ∈ rows, row.length = width

theorem filled_new (keys : List Nat) (width : Nat) : (new keys).Filled width := by
  intro key rows h
  cases h

theorem process_record_filled {width : Nat} (h : st.Filled width)
    (hkeys : ∀ c ∈ st.key_columns, c < width) (hrow : record.row.length = width) :
    ∃ st', st.process_record record = some st' ∧ st'.Filled width := by
  obtain ⟨key, hkey⟩ : ∃ key, st.extract_key record.row = some key :=
    StateKey.from_row_isSome (by rw [hrow]; exact hkeys)
  unfold process_record
  simp only [hkey, bind_eq_bind, bind_some]
  split
  · refine ⟨_, rfl, fun k rows hk row hr => ?_⟩
    simp only [AssocMap.get?_insert] at hk
    split at hk
    · cases hk
      rcases mem_append.mp hr with hr | hr
      · cases hget : st.data.get? key with
        | none =>
          rw [hget] at hr
          exact absurd hr not_mem_nil
        | some rows =>
          rw [hget] at hr
          exact h key rows hget row hr
      · rw [mem_singleton.mp hr]
        exact hrow
    · exact h k rows hk row hr
  · split
    · exact ⟨st, rfl, h⟩
    · rename_i rows₀ hget
      refine ⟨_, rfl, fun k rows hk row hr => ?_⟩
      have hleft : ∀ row ∈ removeRow rows₀ record.row, row.length = width := fun row hr =>
        h key rows₀ hget row ((removeRow_sublist rows₀ record.row).subset hr)
      simp only at hk
      split at hk
      · rw [AssocMap.get?_erase] at hk
        split at hk
        · cases hk
        · exact h k rows hk row hr
      · rw [AssocMap.get?_insert] at hk
        split at hk
        · cases hk
          exact hleft row hr
        · exact h k rows hk row hr

theorem process_records_filled {width : Nat} {records : Records} (h : st.Filled width)
    (hkeys : ∀ c ∈ st.key_columns, c < width) (hrows : ∀ r ∈ records, r.row.length = width) :
    ∃ st', st.process_records records = some st' ∧ st'.Filled width := by
  obtain ⟨st', hst', hfilled, -⟩ := foldlM_option_total (f := process_record)
    (P := fun s => s.Filled width ∧ s.key_columns = st.key_columns) (l := records)
    (fun s r hr hs => by
      obtain ⟨s', hs', hf⟩ := process_record_filled hs.1 (by rw [hs.2]; exact hkeys) (hrows r hr)
      exact ⟨s', hs', hf, (key_columns_process_record hs').trans hs.2⟩)
    ⟨h, rfl⟩
  exact ⟨st', hst', hfilled⟩

end MemoryState

/-! ## Typed operators -/

/-- The operator reads columns that rows of its parents' widths `ws` have,
    and emits rows of width `w`. -/
def OperatorType.Typed : OperatorType → List Nat → Nat → Prop
  | .filter op, [w₀], w => w = w₀ ∧ ∀ c ∈ op.condition.columns, c < w₀
  | .project op, [w₀], w => w = op.emit.length ∧ ∀ c ∈ op.emit, c < w₀
  | .join op, [wl, wr], w => w = op.emit.length ∧ op.Reads wl wr
  | .aggregate op, [w₀], w =>
    w = op.group_by.length + 1 ∧ (∀ c ∈ op.group_by, c < w₀) ∧
      ∀ c, op.func.summed = some c → c < w₀
  | .identity _, [w₀], w => w = w₀
  | _, _, _ => False

theorem OperatorType.typed_shape (op : OperatorType) (ws : List Nat) (w : Nat) :
    op.shape.Typed ws w ↔ op.Typed ws w := by
  cases op with
  | aggregate op => rcases ws with _ | ⟨w₀, _ | ⟨w₁, ws⟩⟩ <;> rfl
  | filter op => rfl
  | project op => rfl
  | join op => rfl
  | identity op => rfl

theorem ProjectOp.process_typed {op : ProjectOp} (h : ∀ c ∈ op.emit, c < w₀) {records : Records}
    (hrows : ∀ r ∈ records, r.row.length = w₀) :
    ∃ out, op.process records = some out ∧ ∀ r ∈ out.results, r.row.length = op.emit.length := by
  obtain ⟨rs, hrs, hlen⟩ := mapM_option_total (l := records)
    (f := fun record : Record => (record.row.cols op.emit).map record.withRow)
    (P := fun r => r.row.length = op.emit.length) (fun r hr => by
      obtain ⟨row, hrow⟩ : ∃ row, r.row.cols op.emit = some row :=
        Row.cols_isSome (by rw [hrows r hr]; exact h)
      refine ⟨r.withRow row, by rw [hrow]; rfl, ?_⟩
      rw [Record.row_withRow]
      exact Row.length_cols hrow)
  exact ⟨⟨rs, []⟩, by simp [process, hrs], hlen⟩

theorem JoinOp.combine_typed (h : op.Reads wl wr) {r : Row} (hl : l.length = wl)
    (hr : r.length = wr) : ∃ row, op.combine l r = some row ∧ row.length = op.emit.length := by
  obtain ⟨row, hrow, hval⟩ := combine_eq h hl hr
  refine ⟨row, hrow, ?_⟩
  rw [← Row.length_val, hval, combineV, length_map]

theorem JoinOp.pad_typed (h : op.Reads wl wr) (hl : l.length = wl) :
    ∃ row, op.pad l = some row ∧ row.length = op.emit.length := by
  obtain ⟨row, hrow, hval⟩ := pad_eq h hl
  refine ⟨row, hrow, ?_⟩
  rw [← Row.length_val, hval, padV, length_map]

theorem JoinOp.processRecord_typed (h : op.Reads wl wr)
    (hst : st.Filled (if side = 0 then wr else wl))
    (hrow : record.row.length = if side = 0 then wl else wr) :
    ∃ out, op.processRecord side st.snapshot record = some out ∧
      ∀ r ∈ out.1, r.row.length = op.emit.length := by
  have hkey : (if side = 0 then op.left_key else op.right_key) < record.row.length := by
    rw [hrow]
    split
    · exact h.left
    · exact h.right
  have hd := getElem?_eq_getElem hkey
  -- a row of its own, padded where the join type asks for it
  have hpad : ∀ look : List (List DataType), ∃ out,
      (if op.join_type = .left ∧ side = 0 then (op.pad record.row).bind fun combined =>
          some ([record.withRow combined], look)
        else some ([], look)) = some out ∧ ∀ r ∈ out.1, r.row.length = op.emit.length := by
    intro look
    split
    · rename_i hleft
      rw [if_pos hleft.2] at hrow
      obtain ⟨row, hrow', hlen⟩ := pad_typed h hrow
      refine ⟨([record.withRow row], look), by rw [hrow']; rfl, fun r hr => ?_⟩
      rw [mem_singleton.mp hr, Record.row_withRow]
      exact hlen
    · exact ⟨([], look), rfl, fun r hr => absurd hr not_mem_nil⟩
  unfold processRecord
  simp only [hd, bind_eq_bind, bind_some]
  cases hlook : st.snapshot.lookup [record.row[if side = 0 then op.left_key else op.right_key]] with
  | some rows =>
    have hrows : ∀ row ∈ rows, row.length = if side = 0 then wr else wl := by
      unfold StateSnapshot.lookup lookupIn at hlook
      split at hlook
      · cases hlook
      · rename_i rows' hne hget
        cases hlook
        exact hst _ _ hget
      · cases hlook
    obtain ⟨out, hout, hlen⟩ := mapM_option_total (l := rows)
      (f := fun other_row => (if side = 0 then op.combine record.row other_row
        else op.combine other_row record.row).map record.withRow)
      (P := fun r => r.row.length = op.emit.length) (fun other ho => by
        have hother := hrows other ho
        by_cases hside : side = 0
        · simp only [if_pos hside] at hother hrow ⊢
          obtain ⟨row, hcomb, hlen⟩ := combine_typed h hrow hother
          exact ⟨record.withRow row, by rw [hcomb]; rfl, by rw [Record.row_withRow]; exact hlen⟩
        · simp only [if_neg hside] at hother hrow ⊢
          obtain ⟨row, hcomb, hlen⟩ := combine_typed h hother hrow
          exact ⟨record.withRow row, by rw [hcomb]; rfl, by rw [Record.row_withRow]; exact hlen⟩)
    exact ⟨(out, []), by simp [hout], hlen⟩
  | empty => exact hpad []
  | missing => exact hpad _

theorem JoinOp.process_typed (h : op.Reads wl wr) {st : Option MemoryState}
    (hst : ∀ s, st = some s → s.Filled (if side = 0 then wr else wl)) {records : Records}
    (hrows : ∀ r ∈ records, r.row.length = if side = 0 then wl else wr) :
    ∃ out, op.process side records (st.map MemoryState.snapshot) = some out ∧
      ∀ r ∈ out.results, r.row.length = op.emit.length := by
  cases st with
  | none => exact ⟨⟨[], []⟩, rfl, fun r hr => absurd hr not_mem_nil⟩
  | some s =>
    obtain ⟨outs, houts, hlen⟩ := mapM_option_total (fun r hr =>
      processRecord_typed h (hst s rfl) (hrows r hr))
    refine ⟨_, by simp only [process, map_some, houts]; rfl, fun r hr => ?_⟩
    obtain ⟨out, hout, hr⟩ := mem_flatten.mp hr
    obtain ⟨o, ho, rfl⟩ := mem_map.mp hout
    exact hlen o ho r hr

/-- The rows of an aggregate: the group's values and the result. -/
theorem AggregateOp.emitGroup_typed {func : AggregateFunc} {width : Nat}
    {changes : List (StateKey × (Int64 × Int64))}
    (hch : ∀ e ∈ changes, e.1.values.length = width)
    {acc : AssocMap StateKey AggregateGroupState × Records}
    (hacc : ∀ r ∈ acc.2, r.row.length = width + 1) :
    ∀ r ∈ (changes.foldl (emitGroup func) acc).2, r.row.length = width + 1 := by
  induction changes generalizing acc with
  | nil => exact hacc
  | cons e changes ih =>
    refine ih (forall_mem_cons.mp hch).2 fun r hr => ?_
    have hlen := hch e mem_cons_self
    simp only [emitGroup, mem_append] at hr
    rcases hr with (hr | hr) | hr
    · exact hacc r hr
    all_goals
      split at hr
      · rw [mem_singleton.mp hr]
        simp [hlen]
      · exact absurd hr not_mem_nil

theorem AggregateOp.process_typed {op : AggregateOp} (hgroup : ∀ c ∈ op.group_by, c < w₀)
    (hsum : ∀ c, op.func.summed = some c → c < w₀) {records : Records}
    (hrows : ∀ r ∈ records, r.row.length = w₀) :
    ∃ out, op.process records = some out ∧
      ∀ r ∈ out.2.results, r.row.length = op.group_by.length + 1 := by
  obtain ⟨gc, hgc, hkeys⟩ := foldlM_option_total (f := changeGroup op)
    (P := fun gc => ∀ e ∈ gc.entries, e.1.values.length = op.group_by.length) (l := records)
    (s := ∅) (fun gc r hr hgc => by
      obtain ⟨key, hkey⟩ : ∃ key, StateKey.from_row r.row op.group_by = some key :=
        StateKey.from_row_isSome (by rw [hrows r hr]; exact hgroup)
      obtain ⟨v, hv⟩ : ∃ v, value_delta op.func r = some v := by
        rw [← hrows r hr] at hsum
        unfold value_delta
        split
        · rename_i col hf
          exact ⟨_, by rw [getElem?_eq_getElem (hsum col (by rw [hf]; rfl))]; rfl⟩
        · rename_i col hf
          exact ⟨_, by rw [getElem?_eq_getElem (hsum col (by rw [hf]; rfl))]; rfl⟩
        · exact ⟨0, rfl⟩
      refine ⟨_, by simp only [changeGroup, hkey, hv]; rfl, fun e he => ?_⟩
      rcases AssocMap.key_of_mem_insert gc he with hk | ⟨e₀, he₀, hk⟩
      · rw [hk]
        exact Row.length_cols (StateKey.values_from_row hkey)
      · rw [← hk]
        exact hgc e₀ he₀)
    (fun e he => absurd he not_mem_nil)
  refine ⟨_, by simp only [process, hgc]; rfl, ?_⟩
  refine emitGroup_typed (fun e he => ?_) fun r hr => absurd hr not_mem_nil
  exact hkeys e ((op.order op.calls gc.entries).property.mem_iff.mp he)

/-- A typed operator does not panic on rows of its parent's width. -/
theorem OperatorType.process_typed {op : OperatorType} (h : op.Typed ws w) {records : Records}
    (hside : ws[side]? = some w₀) (hrows : ∀ r ∈ records, r.row.length = w₀)
    {st : Option MemoryState}
    (hst : ∀ s, st = some s → ∀ w₁, side ≤ 1 → 1 < ws.length → ws[1 - side]? = some w₁ →
      s.Filled w₁) :
    ∃ op' out, op.process side records (st.map MemoryState.snapshot) = some (op', out) ∧
      ∀ r ∈ out.results, r.row.length = w := by
  have hone : ∀ {w₁ : Nat}, [w₁][side]? = some w₀ → w₁ = w₀ := by
    intro w₁ hw
    have hlt := (List.getElem?_eq_some_iff.mp hw).1
    have h0 : side = 0 := by simpa using hlt
    subst h0
    simpa using hw
  cases op with
  | filter op =>
    rcases ws with _ | ⟨w₁, _ | ⟨w₂, ws⟩⟩
    · exact h.elim
    · obtain ⟨rfl, hcols⟩ := h
      obtain rfl := hone hside
      have hkeep := FilterOp.keep_eq op.condition records fun r hr c hc => by
        rw [hrows r hr]
        exact hcols c hc
      refine ⟨.filter op, _, by simp only [process, FilterOp.process, hkeep]; rfl, fun r hr => ?_⟩
      exact hrows r (mem_of_mem_filter hr)
    · exact h.elim
  | project op =>
    rcases ws with _ | ⟨w₁, _ | ⟨w₂, ws⟩⟩
    · exact h.elim
    · obtain ⟨rfl, hcols⟩ := h
      obtain rfl := hone hside
      obtain ⟨out, hout, hlen⟩ := ProjectOp.process_typed hcols hrows
      exact ⟨.project op, out, by simp only [process, hout, map_some], hlen⟩
    · exact h.elim
  | join op =>
    rcases ws with _ | ⟨wl, _ | ⟨wr, _ | ⟨w₂, ws⟩⟩⟩
    · exact h.elim
    · exact h.elim
    · obtain ⟨rfl, hreads⟩ := h
      have hlt := (List.getElem?_eq_some_iff.mp hside).1
      have hside' : side = 0 ∨ side = 1 := by
        simp only [length_cons, length_nil] at hlt
        omega
      have hw₀ : w₀ = if side = 0 then wl else wr := by
        rcases hside' with rfl | rfl <;> simpa using hside.symm
      have hfilled : ∀ s, st = some s → s.Filled (if side = 0 then wr else wl) := by
        intro s hs
        refine hst s hs _ (by omega) (by simp) ?_
        rcases hside' with rfl | rfl <;> simp
      obtain ⟨out, hout, hlen⟩ := JoinOp.process_typed hreads hfilled (by rw [← hw₀]; exact hrows)
      exact ⟨.join op, out, by simp only [process, hout, map_some], hlen⟩
    · exact h.elim
  | aggregate op =>
    rcases ws with _ | ⟨w₁, _ | ⟨w₂, ws⟩⟩
    · exact h.elim
    · obtain ⟨rfl, hgroup, hsum⟩ := h
      obtain rfl := hone hside
      obtain ⟨out, hout, hlen⟩ := AggregateOp.process_typed hgroup hsum hrows
      exact ⟨.aggregate out.1, out.2, by simp only [process, hout, map_some], hlen⟩
    · exact h.elim
  | identity op =>
    rcases ws with _ | ⟨w₁, _ | ⟨w₂, ws⟩⟩
    · exact h.elim
    · obtain rfl : w = w₁ := h
      obtain rfl := hone hside
      exact ⟨.identity op, ⟨records, []⟩, rfl, hrows⟩
    · exact h.elim

/-! ## Typed executors -/

theorem Node.columns_of_shape {n n' : Node} (h : n'.shape = n.shape) : n'.columns = n.columns := by
  have : n'.shape.columns = n.shape.columns := by rw [h]
  exact this

namespace LocalExecutor

def width (ex : LocalExecutor) (i : Nat) : Nat := (ex.nodes[i]?.map (·.columns.length)).getD 0

theorem width_of_node {ex : LocalExecutor} {i : Nat} (h : ex.nodes[i]? = some nd) :
    ex.width i = nd.columns.length := by
  rw [width, h]
  rfl

/-- The typing of the graph: operators read columns that exist, states are
    keyed by columns that exist, and the inputs of joins are materialized. -/
structure Shaped (ex : LocalExecutor) : Prop where
  wf : ex.WellFormed
  node : ∀ {n : Nat} {nd : Node}, ex.nodes[n]? = some nd →
    (nd.operator = none ∧ nd.parents = []) ∨
      ∃ op, nd.operator = some op ∧ op.Typed (nd.parents.map ex.width) nd.columns.length
  keys : ∀ {n : Nat} {nd : Node} {st : MemoryState}, ex.nodes[n]? = some nd →
    nd.state = some st → ∀ c ∈ st.key_columns, c < nd.columns.length
  joined : ∀ {n : Nat} {nd : Node} {op : JoinOp}, ex.nodes[n]? = some nd →
    nd.operator = some (.join op) → ∀ p ∈ nd.parents, (ex.stateOf p).isSome
  tables : ∀ t b, ex.base_tables.get? t = some b → b < ex.nodes.length

/-- The states of the nodes in `F` hold rows of their node's width. -/
def FilledOn (ex : LocalExecutor) (F : Nat → Prop) : Prop :=
  ∀ i st, F i → ex.stateOf i = some st → st.Filled (ex.width i)

/-- `R` is a part of the graph that writes stay in, and `F` has the states
    that the operators of this part use. -/
structure Fed (ex : LocalExecutor) (F R : Nat → Prop) : Prop where
  own : ∀ i, R i → F i
  child : ∀ i, R i → ∀ c ∈ ex.children i, R c
  inputs : ∀ {c : Nat} {nd : Node} {op : JoinOp}, R c → ex.nodes[c]? = some nd →
    nd.operator = some (.join op) → ∀ p ∈ nd.parents, F p

section Shape

variable {ex ex' : LocalExecutor}

theorem SameShape.width_eq (h : SameShape ex ex') (i : Nat) : ex'.width i = ex.width i := by
  have : (ex'.nodes[i]?.map Node.shape).map (·.columns.length)
      = (ex.nodes[i]?.map Node.shape).map (·.columns.length) := by rw [h.nodes i]
  rw [Option.map_map, Option.map_map] at this
  exact congrArg (·.getD 0) this

theorem SameShape.stateOf_isSome (h : SameShape ex ex') (i : Nat) :
    (ex'.stateOf i).isSome = (ex.stateOf i).isSome := by
  have hnodes := h.nodes i
  unfold stateOf
  cases hn : ex.nodes[i]? with
  | none =>
    rw [hn, map_none, map_eq_none_iff] at hnodes
    rw [hnodes]
  | some nd =>
    obtain ⟨nd', hn', hsh⟩ := h.node hn
    rw [hn', bind_some, bind_some]
    have : nd'.shape.state.isSome = nd.shape.state.isSome := by rw [hsh]
    simpa [Node.shape] using this

theorem SameShape.join (h : SameShape ex ex') {op : JoinOp} {nd' : Node}
    (hn' : ex'.nodes[n]? = some nd') (hop' : nd'.operator = some (.join op)) :
    ∃ nd, ex.nodes[n]? = some nd ∧ nd.operator = some (.join op) ∧ nd.parents = nd'.parents := by
  obtain ⟨nd, hn, hsh⟩ := h.symm.node hn'
  obtain ⟨op', hop, hshape⟩ := Node.operator_of_shape hsh.symm hop'
  exact ⟨nd, hn, by rw [hop, OperatorType.join_of_shape hshape], Node.parents_of_shape hsh⟩

theorem Shaped.sameShape (ht : ex.Shaped) (h : SameShape ex ex') : ex'.Shaped where
  wf := h.wellFormed ht.wf
  node := by
    intro n nd' hn'
    obtain ⟨nd, hn, hsh⟩ := h.symm.node hn'
    have hwidths : nd'.parents.map ex'.width = nd.parents.map ex.width := by
      rw [← Node.parents_of_shape hsh]
      exact map_congr_left fun p _ => h.width_eq p
    rcases ht.node hn with ⟨hop, hpar⟩ | ⟨op, hop, htyped⟩
    · refine .inl ⟨?_, (Node.parents_of_shape hsh).symm.trans hpar⟩
      cases hop' : nd'.operator with
      | none => rfl
      | some op' =>
        obtain ⟨op, hsome, -⟩ := Node.operator_of_shape hsh.symm hop'
        rw [hop] at hsome
        cases hsome
    · obtain ⟨op', hop', hshape⟩ := Node.operator_of_shape hsh hop
      refine .inr ⟨op', hop', ?_⟩
      rw [hwidths, ← Node.columns_of_shape hsh, ← op'.typed_shape, hshape, op.typed_shape]
      exact htyped
  keys := by
    intro n nd' st' hn' hst' c hc
    obtain ⟨nd, hn, hsh⟩ := h.symm.node hn'
    obtain ⟨st, hst, hkeys⟩ := Node.state_of_shape hsh.symm hst'
    rw [← Node.columns_of_shape hsh]
    exact ht.keys hn hst c (by rw [hkeys]; exact hc)
  joined := by
    intro n nd' op' hn' hop' p hp
    obtain ⟨nd, hn, hop, hpar⟩ := h.join hn' hop'
    rw [h.stateOf_isSome]
    exact ht.joined hn hop p (hpar ▸ hp)
  tables := by
    intro t b hb
    rw [h.tables] at hb
    rw [h.length_eq]
    exact ht.tables t b hb

theorem Fed.sameShape {F R : Nat → Prop} (hf : ex.Fed F R) (h : SameShape ex ex') :
    ex'.Fed F R where
  own := hf.own
  child i hi c hc := hf.child i hi c (by rw [← h.children_eq]; exact hc)
  inputs := by
    intro c nd' op' hc hn' hop' p hp
    obtain ⟨nd, hn, hop, hpar⟩ := h.join hn' hop'
    exact hf.inputs hc hn hop p (hpar ▸ hp)

end Shape

/-! ## Writing -/

section Write

variable {ex : LocalExecutor} {records : Records} {F R : Nat → Prop}

theorem FilledOn.setOperator (hfill : ex.FilledOn F) (c : Nat) (op : OperatorType) :
    (ex.setOperator c op).FilledOn F := by
  intro i st hi hst
  have hwidth : (ex.setOperator c op).width i = ex.width i := by
    rw [width, width, nodes_setOperator]
    split
    · rw [Option.map_map]
      rfl
    · rfl
  have hstate : (ex.setOperator c op).stateOf i = ex.stateOf i := by
    rw [stateOf, stateOf, nodes_setOperator]
    split
    · cases ex.nodes[i]? <;> rfl
    · rfl
  rw [hwidth]
  exact hfill i st hi (hstate.symm.trans hst)

theorem FilledOn.setState (hfill : ex.FilledOn F) (hst : F n → st.Filled (ex.width n)) :
    (ex.setState n st).FilledOn F := by
  intro i s hi hs
  have hwidth : (ex.setState n st).width i = ex.width i := by
    rw [width, width, nodes_setState]
    split
    · rw [Option.map_map]
      rfl
    · rfl
  rw [hwidth]
  rw [stateOf, nodes_setState] at hs
  split at hs
  · rename_i hni
    subst hni
    cases hn : ex.nodes[n]? with
    | none =>
      rw [hn] at hs
      cases hs
    | some nd =>
      rw [hn] at hs
      cases hs
      exact hst hi
  · exact hfill i s hi hs

theorem updateState_typed (ht : ex.Shaped) (hfill : ex.FilledOn F) (hn : F n)
    (hlt : n < ex.nodes.length) (hrows : ∀ r ∈ records, r.row.length = ex.width n) :
    ∃ ex', ex.updateState n records = some ex' ∧ ex'.FilledOn F := by
  have hnd := getElem?_eq_getElem hlt
  cases hs : (ex.nodes[n]).state with
  | none => exact ⟨ex, by simp [updateState, hnd, hs], hfill⟩
  | some st =>
    have hstate : ex.stateOf n = some st := by
      rw [stateOf, hnd]
      exact hs
    obtain ⟨st', hst', hfilled⟩ := MemoryState.process_records_filled (hfill n st hn hstate)
      (by rw [width_of_node hnd]; exact ht.keys hnd hs) hrows
    have hup : ex.updateState n records = some (ex.setState n st') := by
      simp [updateState, hnd, hs, hst']
    exact ⟨_, hup, hfill.setState fun _ => hfilled⟩

/-- The state that a join is given holds rows of its other parent. -/
theorem state_for_op_typed (hfill : ex.FilledOn F) (hpar : ∀ p ∈ nd.parents, p < ex.nodes.length)
    (hside : side < nd.parents.length) (hlen : nd.parents.length ≤ 2)
    (hF : 1 < nd.parents.length → ∀ p ∈ nd.parents, F p) :
    ∃ st : Option MemoryState, ex.state_for_op nd side = some (st.map MemoryState.snapshot) ∧
      ∀ s, st = some s → ∀ w₁, side ≤ 1 → 1 < (nd.parents.map ex.width).length →
        (nd.parents.map ex.width)[1 - side]? = some w₁ → s.Filled w₁ := by
  unfold state_for_op
  split
  · rename_i hmany
    have hother : 1 - side < nd.parents.length := by omega
    have hget := getElem?_eq_getElem hother
    have hmem := getElem_mem hother
    obtain ⟨ndp, hn⟩ : ∃ ndp, ex.nodes[nd.parents[1 - side]]? = some ndp :=
      ⟨_, getElem?_eq_getElem (hpar _ hmem)⟩
    refine ⟨ndp.state, ?_, ?_⟩
    · have hle : side ≤ 1 := by omega
      simp [hle, hget, hn]
    · intro s hs w₁ _ _ hw₁
      rw [getElem?_map, hget, map_some, Option.some.injEq] at hw₁
      rw [← hw₁]
      refine hfill _ s (hF hmany _ hmem) ?_
      rw [stateOf, hn]
      exact hs
  · rename_i hone
    refine ⟨nd.state, rfl, fun s _ w₁ _ hlt => ?_⟩
    rw [length_map] at hlt
    exact absurd hlt hone

theorem length_of_typed {op : OperatorType} (h : op.Typed ws w) :
    ws.length ≤ 2 ∧ (1 < ws.length → ∃ j, op = .join j) := by
  rcases ws with _ | ⟨w₀, _ | ⟨w₁, _ | ⟨w₂, ws⟩⟩⟩
  · exact ⟨Nat.zero_le 2, fun hlt => absurd hlt (by simp)⟩
  · exact ⟨Nat.le_succ 1, fun hlt => absurd hlt (by simp)⟩
  · refine ⟨Nat.le_refl 2, fun _ => ?_⟩
    cases op with
    | join j => exact ⟨j, rfl⟩
    | _ => exact h.elim
  · cases op <;> exact h.elim

theorem processChild_typed (ht : ex.Shaped) (hfill : ex.FilledOn F) {c : Nat}
    (hc : c ∈ ex.children src)
    (hF : ∀ {nd : Node} {op : JoinOp}, ex.nodes[c]? = some nd → nd.operator = some (.join op) →
      ∀ p ∈ nd.parents, F p) (hrows : ∀ r ∈ records, r.row.length = ex.width src) :
    ∃ ex' results, ex.processChild src c records = some (ex', results) ∧ ex'.FilledOn F ∧
      ∀ r ∈ results, r.row.length = ex.width c := by
  have hsrc : src ∈ ex.parents c := ht.wf.mem_children.mp hc
  obtain ⟨nd, hn⟩ : ∃ nd, ex.nodes[c]? = some nd :=
    ⟨_, getElem?_eq_getElem (ht.wf.child_lt_length hc)⟩
  have hpar : ex.parents c = nd.parents := by
    rw [parents, hn]
    rfl
  rw [hpar] at hsrc
  rcases ht.node hn with ⟨-, hnone⟩ | ⟨op, hop, htyped⟩
  · rw [hnone] at hsrc
    exact absurd hsrc not_mem_nil
  -- the position of the sender among the parents
  obtain ⟨side, hside⟩ : ∃ side, nd.parents.findIdx? (· == src) = some side := by
    cases hfind : nd.parents.findIdx? (· == src) with
    | some side => exact ⟨side, rfl⟩
    | none =>
      rw [findIdx?_eq_none_iff] at hfind
      have := hfind src hsrc
      simp at this
  obtain ⟨hlt, heq, -⟩ := findIdx?_eq_some_iff_getElem.mp hside
  have hws : (nd.parents.map ex.width)[side]? = some (ex.width src) := by
    rw [getElem?_map, getElem?_eq_getElem hlt, map_some, beq_iff_eq.mp heq]
  have hplt : ∀ p ∈ nd.parents, p < ex.nodes.length := by
    intro p hp
    have hpc := ht.wf.ascending c p (by rw [hpar]; exact hp)
    have := ht.wf.child_lt_length hc
    omega
  obtain ⟨hlen, hjoin⟩ := length_of_typed htyped
  rw [length_map] at hlen hjoin
  obtain ⟨st, hst, hfilled⟩ := state_for_op_typed hfill hplt hlt hlen fun hmany => by
    obtain ⟨j, rfl⟩ := hjoin hmany
    exact hF hn hop
  obtain ⟨op', out, hproc, hout⟩ := OperatorType.process_typed htyped hws hrows hfilled
  have hpc : ex.processChild src c records = some (ex.setOperator c op', out.results) := by
    simp only [processChild, hn, hside, getD_some, hst, hop, hproc, bind_eq_bind,
      bind_some]
  refine ⟨_, _, hpc, hfill.setOperator c op', ?_⟩
  rw [width_of_node hn]
  exact hout

/-- Propagation succeeds in a part of the graph whose states hold rows of
    the right width, and they go on to. -/
theorem propagate_typed {fuel : Nat} (ht : ex.Shaped) (hfill : ex.FilledOn F) (hfed : ex.Fed F R)
    (hR : R src) (hlt : src < ex.nodes.length) (hfuel : ex.nodes.length ≤ src + fuel)
    (hrows : ∀ r ∈ records, r.row.length = ex.width src) :
    ∃ ex', ex.propagate fuel src records = some ex' ∧ ex'.FilledOn F := by
  induction fuel generalizing ex src records with
  | zero => omega
  | succ fuel ih =>
    unfold propagate
    split
    · exact ⟨ex, rfl, hfill⟩
    · obtain ⟨ex₁, hup, hfill₁⟩ := updateState_typed ht hfill (hfed.own src hR) hlt hrows
      have hs₁ := (updateState_frame hup).1
      obtain ⟨nd, hn⟩ : ∃ nd, ex.nodes[src]? = some nd := ⟨_, getElem?_eq_getElem hlt⟩
      have hchildren : ex.children src = nd.children := by
        rw [children, hn]
        rfl
      simp only [hn, hup, bind_eq_bind, bind_some]
      -- each child is visited from a filled executor of the same shape
      refine (foldlM_option_total (P := fun e => e.FilledOn F ∧ SameShape ex e) ?_
        ⟨hfill₁, hs₁⟩).imp fun ex' h => ⟨h.1, h.2.1⟩
      intro e c hc he
      obtain ⟨hfe, hse⟩ := he
      have hte := ht.sameShape hse
      have hfede := hfed.sameShape hse
      rw [← hchildren, ← hse.children_eq] at hc
      have hRc := hfede.child src hR c hc
      obtain ⟨e₁, results, hpc, hfe₁, hres⟩ := processChild_typed hte hfe hc
        (hfede.inputs hRc) (by rw [hse.width_eq]; exact hrows)
      have hs := (processChild_frame hpc).1
      have hgt := hte.wf.child_gt hc
      have hclt := hte.wf.child_lt_length hc
      have hlen := hse.length_eq
      obtain ⟨e₂, hprop, hfe₂⟩ := ih (hte.sameShape hs) hfe₁ (hfede.sameShape hs) hRc
        (by rw [hs.length_eq]; exact hclt) (by rw [hs.length_eq]; omega)
        (by rw [hs.width_eq]; exact hres)
      refine ⟨e₂, ?_, hfe₂, hse.trans (hs.trans (propagate_frame hprop).1)⟩
      simp only [hpc, bind_some, hprop]

end Write

end LocalExecutor

end Noria.Sqlite

import Noria.Sqlite.Incremental
import Noria.Sqlite.Line

/-! # Delta law of a line

  A line of operators from a table to a view that evaluates the table's content step by step. An
  exact batch on the table leaves the view with what the operators make of the new content.
-/

namespace Noria.Sqlite

open Bag Option List

namespace OperatorType

variable {ops' : List OperatorType} {records : Records} {s : Format}

/-! ## Evaluating a line -/

/-- What the operators make of a table's content, one after the other. -/
def evalAll (ops : List OperatorType) (M : Multiset VRow) : Multiset VRow :=
  ops.foldl (fun M op => op.eval M) M

/-- The format of the rows at the end of the line. -/
def formatAll (ops : List OperatorType) (s : Format) : Format :=
  ops.foldl (fun s op => op.outFormat s) s

/-- Every operator accepts the rows of the one before. -/
def AcceptsAll : List OperatorType → Format → Prop
  | [], _ => True
  | op :: ops, s => op.Accepts s ∧ AcceptsAll ops (op.outFormat s)

/-- Counts and sums stay `i64`s all along. -/
def RangedAll : List OperatorType → Multiset VRow → Prop
  | [], _ => True
  | op :: ops, M => op.Ranged M ∧ RangedAll ops (op.eval M)

/-- The counters of all operators are those of the table's content. -/
def TracksAll : List OperatorType → Multiset VRow → Prop
  | [], _ => True
  | op :: ops, M => op.Tracks M ∧ TracksAll ops (op.eval M)

theorem evalAll_append (ops ops' : List OperatorType) (M : Multiset VRow) :
    evalAll (ops ++ ops') M = evalAll ops' (evalAll ops M) := foldl_append

theorem formatAll_append (ops ops' : List OperatorType) (s : Format) :
    formatAll (ops ++ ops') s = formatAll ops' (formatAll ops s) := foldl_append

theorem acceptsAll_append {ops : List OperatorType} :
    AcceptsAll (ops ++ ops') s ↔ AcceptsAll ops s ∧ AcceptsAll ops' (formatAll ops s) := by
  induction ops generalizing s with
  | nil => simp [AcceptsAll, formatAll]
  | cons op ops ih => simp [AcceptsAll, ih, and_assoc, formatAll]

theorem rangedAll_append {ops : List OperatorType} {M : Multiset VRow} :
    RangedAll (ops ++ ops') M ↔ RangedAll ops M ∧ RangedAll ops' (evalAll ops M) := by
  induction ops generalizing M with
  | nil => simp [RangedAll, evalAll]
  | cons op ops ih => simp [RangedAll, ih, and_assoc, evalAll]

/-! ### What depends on the shapes only -/

theorem evalAll_shape (ops : List OperatorType) : evalAll (ops.map shape) = evalAll ops := by
  funext M
  induction ops generalizing M with
  | nil => rfl
  | cons op ops ih =>
    show evalAll (ops.map shape) (op.shape.eval M) = evalAll ops (op.eval M)
    rw [ih, eval_shape]

theorem formatAll_shape (ops : List OperatorType) : formatAll (ops.map shape) = formatAll ops := by
  funext s
  induction ops generalizing s with
  | nil => rfl
  | cons op ops ih =>
    show formatAll (ops.map shape) (op.shape.outFormat s) = formatAll ops (op.outFormat s)
    rw [ih, outFormat_shape]

theorem acceptsAll_shape (ops : List OperatorType) :
    AcceptsAll (ops.map shape) = AcceptsAll ops := by
  funext s
  induction ops generalizing s with
  | nil => rfl
  | cons op ops ih =>
    show (op.shape.Accepts s ∧ AcceptsAll (ops.map shape) (op.shape.outFormat s)) =
      (op.Accepts s ∧ AcceptsAll ops (op.outFormat s))
    rw [ih, outFormat_shape, accepts_shape]

theorem rangedAll_shape (ops : List OperatorType) : RangedAll (ops.map shape) = RangedAll ops := by
  funext M
  induction ops generalizing M with
  | nil => rfl
  | cons op ops ih =>
    show (op.shape.Ranged M ∧ RangedAll (ops.map shape) (op.shape.eval M)) =
      (op.Ranged M ∧ RangedAll ops (op.eval M))
    rw [ih, eval_shape, ranged_shape]

theorem unary_of_accepts {op : OperatorType} (h : op.Accepts s) : op.unary = true := by
  cases op with
  | join op => exact h.elim
  | _ => rfl

theorem unary_of_acceptsAll {ops : List OperatorType} (h : AcceptsAll ops s) :
    ∀ op ∈ ops, op.unary = true := by
  induction ops generalizing s with
  | nil => exact fun op hop => absurd hop not_mem_nil
  | cons op ops ih => exact forall_mem_cons.mpr ⟨unary_of_accepts h.1, ih h.2⟩

theorem eval_zero (op : OperatorType) : op.eval 0 = 0 := by
  cases op <;> rfl

theorem evalAll_zero (ops : List OperatorType) : evalAll ops 0 = 0 := by
  induction ops with
  | nil => rfl
  | cons op ops ih =>
    show evalAll ops (op.eval 0) = 0
    rw [eval_zero, ih]

theorem tracksAll_zero {ops : List OperatorType} (h : ∀ op ∈ ops, op.shape = op) :
    TracksAll ops 0 := by
  induction ops with
  | nil => trivial
  | cons op ops ih =>
    refine ⟨LocalExecutor.tracks_zero_of_fresh (h op mem_cons_self), ?_⟩
    rw [eval_zero]
    exact ih (forall_mem_cons.mp h).2

end OperatorType

open OperatorType

/-! ## A batch -/

/-- **Delta law of a line.** An exact batch runs down the line, the counters catch up, and the state
    at its end moves to what the operators make of the new content. -/
theorem flow_delta {ops : List OperatorType} {st : MemoryState} {M M' : Multiset VRow}
    (hacc : AcceptsAll ops s) (hfit : ∀ r ∈ records, s.Fits r.row) (hM : RangedAll ops M)
    (hM' : RangedAll ops M') (htracks : TracksAll ops M) (happ : Applies M records.changes M')
    (hok : st.Ok) (hkeys : ∀ c ∈ st.key_columns, c < (formatAll ops s).width)
    (hbag : st.bag = evalAll ops M) :
    ∃ ops' st', flow ops st records = some (ops', st') ∧ ops'.map shape = ops.map shape ∧
      TracksAll ops' M' ∧ st'.Ok ∧ st'.key_columns = st.key_columns ∧ st'.bag = evalAll ops M' := by
  induction ops generalizing s records M M' with
  | nil =>
    have hlen : ∀ r ∈ records, ∀ c ∈ st.key_columns, c < r.row.length := by
      intro r hr c hc
      rw [(hfit r hr).length_eq]
      exact hkeys c hc
    obtain ⟨st', hst', hkeys', hok', hbag'⟩ := st.process_records_bag hok hlen
      (by rw [hbag]; exact happ)
    refine ⟨[], st', ?_, rfl, trivial, hok', hkeys', hbag'⟩
    simp only [flow, hst', bind_eq_bind, bind_some]
  | cons op ops ih =>
    cases records with
    | nil =>
      -- nothing happens, and nothing is to happen
      rw [Records.changes_nil, Applies.nil_iff] at happ
      subst happ
      exact ⟨op :: ops, st, flow_nil _ _, rfl, htracks, hok, rfl, hbag⟩
    | cons r rs =>
      obtain ⟨op', results, hproc, htracks', hfit', happ'⟩ := process_delta hacc.1 hfit hM.1 hM'.1
        htracks.1 happ 0 none
      obtain ⟨ops', st', hflow, hshape, htr', hok', hkeys', hbag'⟩ :=
        ih hacc.2 hfit' hM.2 hM'.2 htracks.2 happ' hkeys hbag
      have hop : op'.shape = op.shape := process_shape hproc
      refine ⟨op' :: ops', st', ?_, ?_, ⟨htracks', ?_⟩, hok', hkeys', hbag'⟩
      · simp only [flow, isEmpty_cons, Bool.false_eq_true, if_false, hproc, hflow,
          bind_eq_bind, bind_some]
      · rw [map_cons, map_cons, hop, hshape]
      · rw [← eval_shape, hop, eval_shape]
        exact htr'

/-! ## A table and its view -/

/-- A view at node `v` over `table`, planned as the operators `ops`, holds
    what they make of the content `M`. -/
def LocalExecutor.Shows (ex : LocalExecutor) (table : String) (v : Nat) (ops : List OperatorType)
    (keys : List Nat) (M : Multiset VRow) : Prop :=
  ∃ b ops' st, ex.base_tables.get? table = some b ∧ ex.Line b ops' v (some st) ∧
    ops'.map shape = ops.map shape ∧ TracksAll ops' M ∧ st.Ok ∧ st.key_columns = keys ∧
    st.bag = evalAll ops M

namespace LocalExecutor.Shows

variable {ex : LocalExecutor} {table : String} {v : Nat} {ops : List OperatorType}
  {keys : List Nat} {M M' : Multiset VRow}

theorem stateOf (h : ex.Shows table v ops keys M) :
    ∃ st, ex.stateOf v = some st ∧ st.bag = evalAll ops M := by
  obtain ⟨b, ops', st, -, hline, -, -, -, -, hbag⟩ := h
  obtain ⟨n, hn, hstate⟩ := hline.node
  refine ⟨st, ?_, hbag⟩
  rw [LocalExecutor.stateOf, hn]
  exact hstate

theorem apply_write (h : ex.Shows table v ops keys M) (hacc : AcceptsAll ops s)
    (hkeys : ∀ c ∈ keys, c < (formatAll ops s).width) (hfit : ∀ r ∈ records, s.Fits r.row)
    (hM : RangedAll ops M) (hM' : RangedAll ops M') (happ : Applies M records.changes M') :
    ∃ ex', ex.apply_write table records = some ex' ∧ ex'.Shows table v ops keys M' := by
  obtain ⟨b, ops', st, hbase, hline, hshape, htracks, hok, rfl, hbag⟩ := h
  -- the operators differ from the planned ones only by what they have counted
  have heval : evalAll ops' = evalAll ops := by
    rw [← evalAll_shape ops', hshape, evalAll_shape]
  have hformat : formatAll ops' = formatAll ops := by
    rw [← formatAll_shape ops', hshape, formatAll_shape]
  have haccepts : AcceptsAll ops' = AcceptsAll ops := by
    rw [← acceptsAll_shape ops', hshape, acceptsAll_shape]
  have hranged : RangedAll ops' = RangedAll ops := by
    rw [← rangedAll_shape ops', hshape, rangedAll_shape]
  rw [← haccepts] at hacc
  rw [← hranged] at hM hM'
  rw [← hformat] at hkeys
  rw [← heval] at hbag
  obtain ⟨ops'', st', hflow, hshape', htracks', hok', hkeys', hbag'⟩ :=
    flow_delta hacc hfit hM hM' htracks happ hok hkeys hbag
  obtain ⟨ex', happly, hline', htabs⟩ :=
    hline.apply_write_line (unary_of_acceptsAll hacc) hbase hflow
  refine ⟨ex', happly, b, ops'', st', ?_, hline', hshape'.trans hshape, htracks', hok', hkeys', ?_⟩
  · rw [htabs, hbase]
  · rw [hbag', heval]

end LocalExecutor.Shows

end Noria.Sqlite

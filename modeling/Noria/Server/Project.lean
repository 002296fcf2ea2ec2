import Noria.Arithmetic
import Noria.Server.Processing
import Noria.Server.State

/-! # Projection

  `Project` permutes, repeats or omits the columns of its source, and adds columns with the results
  of expressions and with literals (`dataflow/src/ops/project.rs`). The projection is implemented
  twice: `on_input` is for records that come through the node, `query_through` for lookups that go
  through it to the state of the source.

  `query_through` goes over the columns of the source row and keeps those
  that are emitted. So it does what `on_input` does for emit lists that
  are increasing, and for no others: `query_through_agrees_iff`.
-/

namespace Noria.Server

open Noria.Sqlite (Record Records)
open List SingleState

/-! ## The operator -/

inductive ProjectExpressionBase where
  | column (i : Nat)
  | literal (data : DataType)

structure ProjectExpression where
  op : ArithmeticOperator
  left : ProjectExpressionBase
  right : ProjectExpressionBase

/-- The operand of an expression; `none` is the panic on a column that the record does not have. -/
def ProjectExpressionBase.operand (record : Row) : ProjectExpressionBase → Option DataType
  | .column i => record[i]?
  | .literal data => some data

def eval_expression (target : Target) (expression : ProjectExpression) (record : Row) :
    Option DataType := do
  let left ← expression.left.operand record
  let right ← expression.right.operand record
  arithmetic_operation target expression.op left right

structure Project where
  emit : Option (List Nat)
  additional : Option Row
  expressions : Option (List ProjectExpression)
  /-- The number of columns of the source. -/
  cols : Nat

namespace Project

/-- A new projection, connected to a source with `cols` columns. -/
def new (cols : Nat) (emit : List Nat) (additional : Option Row)
    (expressions : Option (List ProjectExpression)) : Project :=
  ⟨some emit, additional, expressions, cols⟩

/-- Eliminate emit specifications which require no permutation of the inputs. -/
def on_commit (p : Project) : Project :=
  { p with
    emit := p.emit.bind fun emit =>
      let complete :=
        emit.length == p.cols && p.additional.isNone && p.expressions.isNone
      let sequential := emit.zipIdx.all fun e => e.2 == e.1
      if complete && sequential then none else some emit }

def evaluated (p : Project) (target : Target) (r : Row) : Option Row :=
  (p.expressions.getD []).mapM fun e => eval_expression target e r

/-- The new row of `on_input`: the emitted columns in the order of the emit
    list, then the expressions, then the literals. -/
def forward (p : Project) (target : Target) (emit : List Nat) (r : Row) : Option Row := do
  let columns ← r.cols emit
  let expr ← p.evaluated target r
  some (columns ++ expr ++ p.additional.getD [])

/-- The new row of `query_through`: the columns of the row that are emitted,
    then the expressions, then the literals. -/
def through (p : Project) (target : Target) (emit : List Nat) (r : Row) : Option Row := do
  let expr ← p.evaluated target r
  let columns := (r.zipIdx.filter fun c => emit.any fun e => e == c.2).map Prod.fst
  some (columns ++ expr ++ p.additional.getD [])

def on_input (p : Project) (target : Target) (rs : Records) : Option ProcessingResult :=
  match p.emit with
  | some emit => do
    let results ← rs.mapM fun r => (p.forward target emit r.row).map r.withRow
    some { results, lookups := [], misses := [] }
  | none => some { results := rs, lookups := [], misses := [] }

/-- Translate output columns to input columns; `none` is the panic on a generated column. -/
def in_cols (p : Project) (columns : List Nat) : Option (List Nat) :=
  match p.emit with
  | some emit => columns.mapM fun outi => if outi ≤ emit.length then emit[outi]? else none
  | none => some columns

/-- `query_through` where the source is materialized: the rows found, with
    an inner `none` for a miss. -/
def query_through (p : Project) (target : Target) (columns : List Nat) (key : Row)
    (src : MemoryState) : Option (Option (List Row)) := do
  let in_cols ← p.in_cols columns
  match ← src.lookup in_cols key with
  | .missing => some none
  | .some rs =>
    match p.emit with
    | some emit => do
      let rows ← rs.mapM (p.through target emit)
      some (some rows)
    | none => some (some rs)

end Project

/-! ## Expressions -/

/-- **Integer arithmetic is exact**, as an operation on two values and in an expression over a
    record, if and only if the result fits the machine type of the operands. -/
theorem integer_arithmetic_exact_iff (target : Target) (op : ArithmeticOperator)
    (a b : DataType) :
    (Exact op a b (arithmetic_operation target op a b) ∧
      ∀ (e : ProjectExpression) (record : Row), e.op = op → e.left.operand record = some a →
        e.right.operand record = some b → Exact op a b (eval_expression target e record)) ↔
      FitsPromotion op a b := by
  constructor
  · intro h
    exact (arithmetic_operation_exact_iff target op a b).mp h.1
  · intro h
    have hexact := (arithmetic_operation_exact_iff target op a b).mpr h
    refine ⟨hexact, fun e record hop ha hb => ?_⟩
    simp only [eval_expression, ha, hb, hop, Option.bind_eq_bind, Option.bind_some]
    exact hexact

/-- A build with overflow checks, for values that are not reals. -/
def debugBuild : Target where
  overflow_checks := true
  doubles := ⟨Unit, fun _ => (), fun _ _ => (), fun _ _ _ => (), fun _ => none⟩

/-- A sum of an `Int` and an `UnsignedInt` panics, in every build. -/
theorem mixed_sum_panics :
    ¬ Exact .add (.int 1) (.unsignedInt 1)
        (arithmetic_operation debugBuild .add (.int 1) (.unsignedInt 1)) ∧
    (∀ target, arithmetic_operation target .add (.int 1) (.unsignedInt 1) = none) ∧
    ¬ Exact .add (.int 2147483647) (.int 1)
        (arithmetic_operation debugBuild .add (.int 2147483647) (.int 1)) := by
  refine ⟨fun h => ?_, fun target => rfl, fun h => ?_⟩
  · obtain ⟨d, hd, -⟩ := h.integer 1 1 2 rfl rfl rfl (by decide)
    cases hd
  · obtain ⟨d, hd, -⟩ := h.integer 2147483647 1 2147483648 rfl rfl rfl (by decide)
    cases hd

/-! ## A source with given rows -/

variable {l emit columns : List Nat} {content : List Row} {cols : Nat} {p : Project} {key r : Row}
  {s : SingleState} {target : Target}

namespace SingleState

/-- The rows of a list that have a key. -/
def matching (cols : List Nat) (key : Row) (content : List Row) : List Row :=
  content.filter fun r => (r.cols cols).any (· == key)

/-- The index has the rows of a list, each as it is and in this order. -/
structure Stores (s : SingleState) (content : List Row) : Prop where
  complete : s.partialIndex = false
  rows : ∀ key, (s.state.get? key).getD [] = matching s.key key content

theorem Stores.lookup (h : s.Stores content) (hkey : key.length = s.key.length) :
    s.lookup key = some (.some (matching s.key key content)) := by
  rw [← h.rows key]
  unfold SingleState.lookup
  rw [if_pos hkey, h.complete]
  cases s.state.get? key <;> rfl

theorem Stores.insert_row (h : s.Stores content) (hr : ∀ c ∈ s.key, c < r.length) :
    ∃ s', s.insert_row r = some (true, s') ∧ s'.Stores (content ++ [r]) ∧ s'.key = s.key := by
  obtain ⟨k, hk⟩ := Row.cols_isSome hr
  -- either branch replaces the entry of the row's key by the old rows and the new one
  have hinsert : ∃ n, s.insert_row r = some (true, { s with
      state := s.state.insert k ((s.state.get? k).getD [] ++ [r]), rows := n }) := by
    refine ⟨s.rows + 1, ?_⟩
    unfold SingleState.insert_row
    rw [hk]
    cases hget : s.state.get? k with
    | some rs => simp [hget]
    | none => simp [hget, h.complete]
  obtain ⟨n, hinsert⟩ := hinsert
  refine ⟨_, hinsert, ⟨h.complete, fun key => ?_⟩, rfl⟩
  rw [AssocMap.get?_insert, h.rows k]
  unfold matching
  rw [filter_append, filter_singleton, hk]
  by_cases heq : (k == key) = true
  · have hsame : ∀ row : Row, (row.cols s.key).any (· == k) = (row.cols s.key).any (· == key) := by
      intro row
      cases row.cols s.key with
      | none => rfl
      | some key' => exact (BEq.congr_right heq)
    simp only [heq, if_true, Option.getD_some, Option.any_some, hsame, cond_true]
  · simp only [heq, Bool.false_eq_true, if_false, Option.any_some, cond_false, append_nil]
    exact h.rows key

end SingleState

namespace MemoryState

/-- The full state of a source after the given rows were added, with an index on some columns. -/
def ofRows (cols : List Nat) (content : List Row) : Option MemoryState := do
  let st ← MemoryState.default.add_key cols none
  let (_, st) ← st.process_records (content.map Record.positive) none
  some st

theorem retainHits_stores {st : MemoryState} {rows : List Row} (hst : st.state = [s])
    (hs : s.Stores content) (hr : ∀ r ∈ rows, ∀ c ∈ s.key, c < r.length) :
    ∃ kept st' s', retainHits none st (rows.map Record.positive) = some (kept, st') ∧
      st'.state = [s'] ∧ s'.Stores (content ++ rows) ∧ s'.key = s.key := by
  induction rows generalizing st s content with
  | nil =>
    refine ⟨[], st, s, rfl, hst, ?_, rfl⟩
    rw [append_nil]
    exact hs
  | cons r rows ih =>
    obtain ⟨s₁, hs₁, hstores, hkey⟩ := hs.insert_row (hr r mem_cons_self)
    obtain ⟨kept, st', s', hrest, hst', hstores', hkey'⟩ :=
      ih (show ({ st with state := [s₁] } : MemoryState).state = [s₁] from rfl) hstores
        fun r' hr' => by
          rw [hkey]
          exact hr r' (mem_cons_of_mem _ hr')
    refine ⟨.positive r :: kept, st', s', ?_, hst', ?_, hkey'.trans hkey⟩
    · simp [retainHits, process_record, insert, hst, onAll, hs₁, hrest]
    · rw [append_assoc] at hstores'
      exact hstores'

theorem ofRows_lookup {cols : List Nat} (hcols : keyLength cols.length)
    (hr : ∀ r ∈ content, ∀ c ∈ cols, c < r.length) :
    ∃ st, ofRows cols content = some st ∧ ∀ key, key.length = cols.length →
      st.lookup cols key = some (.some (matching cols key content)) := by
  have hempty : (⟨cols, ∅, false, 0⟩ : SingleState).Stores [] := ⟨rfl, fun key => rfl⟩
  have hstate : (⟨[⟨cols, ∅, false, 0⟩], ∅⟩ : MemoryState).state = [⟨cols, ∅, false, 0⟩] := rfl
  obtain ⟨kept, st', s', hrun, hst', hstores, hkey⟩ := retainHits_stores hstate hempty hr
  refine ⟨st', ?_, fun key hlen => ?_⟩
  · have hadd : MemoryState.default.add_key cols none = some ⟨[⟨cols, ∅, false, 0⟩], ∅⟩ := by
      simp [add_key, MemoryState.default, state_for, new, hcols, construct]
    unfold ofRows
    rw [hadd]
    simp [process_records, is_partial, hrun]
  · have hfind : st'.state_for cols = some 0 := by
      simp [state_for, hst', hkey]
    have hs' : s'.lookup key = some (.some (matching s'.key key ([] ++ content))) :=
      hstores.lookup (by rw [hkey]; exact hlen)
    rw [hkey, nil_append] at hs'
    unfold MemoryState.lookup
    rw [hfind]
    simp [hst', hs']

end MemoryState

/-! ## Lookups through a projection -/

namespace Project

/-- The rows of a query through the projection, as a bag, are those of the
    matching source rows sent through it. -/
def Agrees (p : Project) (target : Target) (columns : List Nat) (key : Row)
    (content : List Row) : Prop :=
  ∃ in_cols src, p.in_cols columns = some in_cols ∧
    MemoryState.ofRows in_cols content = some src ∧
    (p.query_through target columns key src).map
        (fun found : Option (List Row) => found.map fun rows : List Row => (rows : Multiset Row)) =
      (p.on_input target ((matching in_cols key content).map Record.positive)).map
        (fun out => some (out.results.map Record.row : Multiset Row))

/-- What a query may ask for: emitted columns, and a key for them. -/
structure Query (emit columns : List Nat) (key : Row) : Prop where
  emitted : ∀ c ∈ columns, c < emit.length
  length : keyLength columns.length
  key : key.length = columns.length

/-- The columns a query through the projection reads, as `query_through` orders them. -/
def ascending (cols : Nat) (emit : List Nat) : List Nat :=
  (List.range cols).filter fun c => emit.any fun e => e == c

theorem pairwise_ascending (cols : Nat) (emit : List Nat) :
    (ascending cols emit).Pairwise (· < ·) := pairwise_lt_range.filter _

theorem mem_ascending (hemit : ∀ i ∈ emit, i < cols) (c : Nat) :
    c ∈ ascending cols emit ↔ c ∈ emit := by
  simp only [ascending, mem_filter, mem_range, any_eq_true, beq_iff_eq]
  constructor
  · rintro ⟨-, e, he, rfl⟩
    exact he
  · intro hc
    exact ⟨hemit c hc, c, hc, rfl⟩

theorem ascending_eq_iff (hemit : ∀ i ∈ emit, i < cols) :
    ascending cols emit = emit ↔ emit.Pairwise (· < ·) := by
  constructor
  · intro h
    rw [← h]
    exact pairwise_ascending cols emit
  · intro h
    have hperm : (ascending cols emit).Perm emit :=
      (perm_ext_iff_of_nodup (pairwise_ascending cols emit).nodup h.nodup).mpr
        (mem_ascending hemit)
    exact hperm.eq_of_pairwise (fun a b _ _ hab hba => absurd hab (Nat.lt_asymm hba))
      (pairwise_ascending cols emit) h

theorem cols_eq_map {cols : List Nat} (h : ∀ c ∈ cols, c < r.length) :
    r.cols cols = some (cols.map fun c => r.getD c .none) := by
  refine mapM_option_map fun c hc => ?_
  rw [getD_eq_getElem?_getD, getElem?_eq_getElem (h c hc)]
  rfl

/-- The emitted columns of a row, picked in the order of the row. -/
theorem picked_eq (emit : List Nat) (r : Row) :
    (r.zipIdx.filter fun c => emit.any fun e => e == c.2).map Prod.fst =
      (ascending r.length emit).map fun c => r.getD c .none := by
  have hzip : r.zipIdx = (List.range r.length).map fun c => (r.getD c .none, c) := by
    refine ext_getElem (by simp) fun i h _ => ?_
    have hi : i < r.length := by simpa using h
    simp [hi]
  rw [hzip, filter_map, map_map]
  rfl

/-- `query_through` makes the row that `on_input` would make with the ascending emit list. -/
theorem through_eq (p : Project) (target : Target) (emit : List Nat) (r : Row) :
    p.through target emit r = p.forward target (ascending r.length emit) r := by
  have hcols : r.cols (ascending r.length emit) =
      some ((ascending r.length emit).map fun c => r.getD c .none) :=
    cols_eq_map fun c hc => mem_range.mp (mem_of_mem_filter hc)
  unfold through forward
  rw [hcols, picked_eq]
  rfl

theorem in_cols_eq (hp : p.emit = some emit) (hcolumns : ∀ c ∈ columns, c < emit.length) :
    ∃ in_cols, p.in_cols columns = some in_cols ∧
      List.Forall₂ (fun c i => emit[c]? = some i) columns in_cols := by
  unfold in_cols
  rw [hp]
  refine mapM_option_forall₂ fun c hc => ?_
  have hlt := hcolumns c hc
  exact ⟨emit[c], by simp [hlt, Nat.le_of_lt hlt], getElem?_eq_getElem hlt⟩

theorem on_input_rows (hp : p.emit = some emit) (target : Target) (rows : List Row) :
    (p.on_input target (rows.map Record.positive)).map (fun out => out.results.map Record.row) =
      rows.mapM (p.forward target emit) := by
  have hrecords : (rows.map Record.positive).mapM
      (fun r => (p.forward target emit r.row).map r.withRow) =
      (rows.mapM (p.forward target emit)).map (List.map Record.positive) := by
    induction rows with
    | nil => rfl
    | cons r rows ih =>
      rw [map_cons, mapM_cons, mapM_cons, ih, Record.row_positive]
      cases p.forward target emit r with
      | none => rfl
      | some row => cases rows.mapM (p.forward target emit) <;> rfl
  unfold on_input
  rw [hp]
  show Option.map _ (Option.bind _ _) = _
  rw [hrecords]
  cases rows.mapM (p.forward target emit) with
  | none => rfl
  | some out => simp [Function.comp_def]

theorem agrees_iff (hp : p.emit = some emit) (hemit : ∀ i ∈ emit, i < p.cols)
    (hq : Query emit columns key) (hcontent : ∀ r ∈ content, r.length = p.cols) :
    p.Agrees target columns key content ↔ ∃ in_cols, p.in_cols columns = some in_cols ∧
      ((matching in_cols key content).mapM (p.through target emit)).map
          (fun rows : List Row => (rows : Multiset Row)) =
        ((matching in_cols key content).mapM (p.forward target emit)).map
          (fun rows : List Row => (rows : Multiset Row)) := by
  obtain ⟨in_cols, hin, hrel⟩ := in_cols_eq hp hq.emitted
  have hlen := hrel.length_eq
  have hlt : ∀ i ∈ in_cols, i < p.cols := by
    intro i hi
    obtain ⟨n, hn, rfl⟩ := getElem_of_mem hi
    have hget := (forall₂_iff_get.mp hrel).2 n (by omega) hn
    exact hemit _ (mem_of_getElem? hget)
  have hwidth : ∀ r ∈ content, ∀ c ∈ in_cols, c < r.length := by
    intro r hr c hc
    rw [hcontent r hr]
    exact hlt c hc
  obtain ⟨src, hsrc, hlookup⟩ := MemoryState.ofRows_lookup (by rw [← hlen]; exact hq.length) hwidth
  have hquery : p.query_through target columns key src =
      ((matching in_cols key content).mapM (p.through target emit)).map some := by
    unfold query_through
    rw [hin]
    simp only [Option.bind_eq_bind, Option.bind_some, hlookup key (hq.key.trans hlen), hp]
    cases (matching in_cols key content).mapM (p.through target emit) <;> rfl
  have hsides : (p.query_through target columns key src).map
        (fun found : Option (List Row) => found.map fun rows : List Row => (rows : Multiset Row)) =
      (p.on_input target ((matching in_cols key content).map Record.positive)).map
        (fun out => some (out.results.map Record.row : Multiset Row)) ↔
      ((matching in_cols key content).mapM (p.through target emit)).map
          (fun rows : List Row => (rows : Multiset Row)) =
        ((matching in_cols key content).mapM (p.forward target emit)).map
          (fun rows : List Row => (rows : Multiset Row)) := by
    rw [hquery, ← on_input_rows hp target]
    generalize (matching in_cols key content).mapM (p.through target emit) = x
    generalize p.on_input target _ = y
    cases x <;> cases y <;> simp
  constructor
  · rintro ⟨in_cols', src', hin', hsrc', hagree⟩
    rw [hin] at hin'
    cases hin'
    rw [hsrc] at hsrc'
    cases hsrc'
    exact ⟨in_cols, hin, hsides.mp hagree⟩
  · rintro ⟨in_cols', hin', hagree⟩
    rw [hin] at hin'
    cases hin'
    exact ⟨in_cols, src, hin, hsrc, hsides.mpr hagree⟩

/-- An increasing emit list is read off in its own order. -/
theorem agrees_of_increasing (hp : p.emit = some emit) (hemit : ∀ i ∈ emit, i < p.cols)
    (hincr : emit.Pairwise (· < ·)) (hq : Query emit columns key)
    (hcontent : ∀ r ∈ content, r.length = p.cols) : p.Agrees target columns key content := by
  rw [agrees_iff hp hemit hq hcontent]
  obtain ⟨in_cols, hin, -⟩ := in_cols_eq hp hq.emitted
  refine ⟨in_cols, hin, congrArg _ (mapM_option_congr fun r hr => ?_)⟩
  have hr : r.length = p.cols := hcontent r (mem_of_mem_filter hr)
  rw [through_eq, hr, (ascending_eq_iff hemit).mpr hincr]

theorem agrees_of_none (hp : p.emit = none) (hcolumns : ∀ c ∈ columns, c < p.cols)
    (hlength : keyLength columns.length) (hkey : key.length = columns.length)
    (hcontent : ∀ r ∈ content, r.length = p.cols) : p.Agrees target columns key content := by
  have hin : p.in_cols columns = some columns := by
    unfold in_cols
    rw [hp]
  have hwidth : ∀ r ∈ content, ∀ c ∈ columns, c < r.length := by
    intro r hr c hc
    rw [hcontent r hr]
    exact hcolumns c hc
  obtain ⟨src, hsrc, hlookup⟩ := MemoryState.ofRows_lookup hlength hwidth
  refine ⟨columns, src, hin, hsrc, ?_⟩
  unfold query_through on_input
  rw [hin, hp]
  simp [hlookup key hkey, Function.comp_def]

theorem on_commit_cases (cols : Nat) (emit : List Nat) (additional : Option Row)
    (expressions : Option (List ProjectExpression)) :
    (new cols emit additional expressions).on_commit = new cols emit additional expressions ∨
      (new cols emit additional expressions).on_commit =
        { new cols emit additional expressions with emit := none } ∧ emit.length = cols := by
  by_cases h : ((emit.length == cols && additional.isNone && expressions.isNone) &&
      emit.zipIdx.all fun e => e.2 == e.1) = true
  · right
    refine ⟨?_, ?_⟩
    · unfold on_commit new
      simp only [Option.bind_some, if_pos h]
    · simp only [Bool.and_eq_true, beq_iff_eq] at h
      exact h.1.1.1
  · left
    unfold on_commit new
    simp only [Option.bind_some, if_neg h]

theorem forward_plain (target : Target) (hl : ∀ c ∈ l, c < r.length) :
    (new cols emit none none).forward target l r = some (l.map fun c => r.getD c .none) := by
  unfold forward
  rw [cols_eq_map hl]
  simp [evaluated, new]

/-- A row that is NULL in all columns but one. -/
def mark (cols c : Nat) : Row := (List.range cols).map fun i => if i = c then .int 1 else .none

theorem getD_mark {c i : Nat} (hi : i < cols) :
    (mark cols c).getD i .none = if i = c then .int 1 else .none := by
  simp [mark, getD_eq_getElem?_getD, hi]

theorem eq_of_picks (hl : ∀ i ∈ l, i < cols) (hemit : ∀ i ∈ emit, i < cols)
    (h : ∀ r : Row, r.length = cols →
      l.map (fun c => r.getD c .none) = emit.map fun c => r.getD c .none) : l = emit := by
  have hlength : l.length = emit.length := by
    have hmap := congrArg List.length (h (mark cols 0) (by simp [mark]))
    simpa using hmap
  refine ext_getElem hlength fun i hi hi' => ?_
  -- the row that is marked in column `emit[i]`
  have hmap := congrArg (fun row => row[i]?) (h (mark cols emit[i]) (by simp [mark]))
  simp only [getElem?_map, getElem?_eq_getElem hi, getElem?_eq_getElem hi',
    Option.map_some, Option.some.injEq] at hmap
  rw [getD_mark (hl _ (getElem_mem hi)), getD_mark (hemit _ (getElem_mem hi')),
    if_pos rfl] at hmap
  by_contra hne
  rw [if_neg hne] at hmap
  cases hmap

/-- **Queries through a projection** return what `on_input` would forward, for every content of the
    source and every query, expressions and literals, before and after the commit, if and only if
    the emit list is increasing. -/
theorem query_through_agrees_iff (target : Target) (cols : Nat) (emit : List Nat)
    (hemit : ∀ i ∈ emit, i < cols) :
    (∀ (additional : Option Row) (expressions : Option (List ProjectExpression))
        (columns : List Nat) (key : Row) (content : List Row),
        Query emit columns key → (∀ r ∈ content, r.length = cols) →
        (new cols emit additional expressions).Agrees target columns key content ∧
        (new cols emit additional expressions).on_commit.Agrees target columns key content) ↔
      emit.Pairwise (· < ·) := by
  constructor
  · intro h
    rw [← ascending_eq_iff hemit]
    have hasc : ∀ i ∈ ascending cols emit, i < cols := fun i hi =>
      hemit i ((mem_ascending hemit i).mp hi)
    cases hlist : emit with
    | nil =>
      refine eq_nil_iff_forall_not_mem.mpr fun i hi => ?_
      rw [← hlist, mem_ascending hemit, hlist] at hi
      exact not_mem_nil hi
    | cons first rest =>
      rw [← hlist]
      refine eq_of_picks hasc hemit fun r hr => ?_
      -- the query for the first emitted column of the only row
      have hfirst : first < r.length := by
        rw [hr]
        exact hemit first (hlist ▸ mem_cons_self)
      have hq : Query emit [0] [r[first]] := ⟨fun c hc => by simp_all, rfl, rfl⟩
      have hcontent : ∀ r' ∈ [r], r'.length = (new cols emit none none).cols := fun r' hr' => by
          rw [mem_singleton.mp hr']
          exact hr
      have hagree := (h none none [0] [r[first]] [r] hq hcontent).1
      rw [agrees_iff rfl hemit hq hcontent] at hagree
      obtain ⟨ins, hin, hagree⟩ := hagree
      have hcols : ins = [first] := by
        simp [in_cols, new, hlist] at hin
        exact hin.symm
      have hmatch : matching [first] [r[first]] [r] = [r] := by
        simp [matching, Row.cols, getElem?_eq_getElem hfirst]
      rw [hcols, hmatch] at hagree
      simp only [mapM_cons, mapM_nil, through_eq, hr] at hagree
      rw [forward_plain target (fun i hi => hr ▸ hasc i hi),
        forward_plain target (fun i hi => hr ▸ hemit i hi)] at hagree
      simpa using hagree
  · intro hincr additional expressions columns key content hq hcontent
    have hnew : (new cols emit additional expressions).Agrees target columns key content :=
      agrees_of_increasing rfl hemit hincr hq hcontent
    refine ⟨hnew, ?_⟩
    rcases on_commit_cases cols emit additional expressions with hcommit | ⟨hcommit, hlen⟩
    · rw [hcommit]
      exact hnew
    · rw [hcommit]
      exact agrees_of_none rfl (fun c hc => hlen ▸ hq.emitted c hc) hq.length hq.key hcontent

/-- Every other column of three, with a literal behind them. -/
theorem omitted_column_agrees :
    (new 3 [0, 2] (some [.int 9]) none).Agrees debugBuild [1] [.int 3]
        [[.int 1, .int 2, .int 3], [.int 4, .int 5, .int 6]] ∧
      (new 3 [0, 2] (some [.int 9]) none).on_commit.Agrees debugBuild [1] [.int 3]
        [[.int 1, .int 2, .int 3], [.int 4, .int 5, .int 6]] :=
  (query_through_agrees_iff debugBuild 3 [0, 2] (by decide)).mpr (by decide) _ _ _ _ _
    ⟨by decide, rfl, rfl⟩ (by decide)

/-- Two columns swapped: `on_input` makes `(2, 1)` of the row `(1, 2)`, and a
    query for the first column returns `(1, 2)`. -/
theorem swapped_columns_disagree :
    ¬ (new 2 [1, 0] none none).Agrees debugBuild [0] [.int 2] [[.int 1, .int 2]] := by
  rw [agrees_iff rfl (by decide) ⟨by decide, rfl, rfl⟩ (by decide)]
  rintro ⟨ins, hin, hagree⟩
  cases hin
  exact absurd hagree (by decide)

end Project

end Noria.Server

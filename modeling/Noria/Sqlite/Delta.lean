import Mathlib.Tactic.Linarith
import Noria.Sqlite.Ops

/-! # Delta laws of the operators

  For every operator with one parent: when the records fed to `process` take the parent's content
  from `M` to `M'`, the records it returns take the operator's own content from `eval M` to `eval
  M'`. The laws are collected in `OperatorType.process_delta`, which is all that the propagation
  proofs use.
-/

namespace Noria.Sqlite

open Bag List Option

variable {M M' : Multiset VRow} {records : Records}

/-! ## Row formats -/

/-- What is known of the rows of a node: how many columns they have, and
    which of the columns hold only `Int` and `BigInt` values. -/
structure Format where
  width : Nat
  intCol : Nat → Prop

/-- A row of the format. -/
structure Format.Fits (s : Format) (row : Row) : Prop where
  length_eq : row.length = s.width
  integer : ∀ c, s.intCol c → ∃ d, row[c]? = some d ∧ d.is_integer = true

/-! ## Filter -/

namespace FilterCondition

theorem map_getElem? {β : Type} (row : Row) (c : Nat) (hc : c < row.length) (f : DataType → β)
    (g : Value → β) (hfg : ∀ d : DataType, f d = g d.val) :
    row[c]?.map f = some (g ((Row.val row).getD c .null)) := by
  have hd : row[c]? = some row[c] := getElem?_eq_getElem hc
  rw [Row.val_getD row c hd, hd, map_some, hfg]

mutual

theorem evaluate_eq : ∀ (cond : FilterCondition) (row : Row),
    (∀ c ∈ cond.columns, c < row.length) → cond.evaluate row = some (cond.holds (Row.val row))
  | .eq col val, row, h =>
    map_getElem? row col (h col mem_cons_self) (· == val) (fun v => decide (v = val.val))
      fun d => by rw [Bool.eq_iff_iff, DataType.beq_iff_val, decide_eq_true_iff]
  | .ne col val, row, h =>
    map_getElem? row col (h col mem_cons_self) (· != val) (fun v => decide (v ≠ val.val))
      fun d => by
        rw [Bool.eq_iff_iff, DataType.bne_iff_val, decide_eq_true_iff]
  | .gt col val, row, h =>
    map_getElem? row col (h col mem_cons_self) (fun d => d.cmp val == .gt)
      (fun v => v.cmp val.val == .gt) fun d => by rw [DataType.cmp_eq_val]
  | .lt col val, row, h =>
    map_getElem? row col (h col mem_cons_self) (fun d => d.cmp val == .lt)
      (fun v => v.cmp val.val == .lt) fun d => by rw [DataType.cmp_eq_val]
  | .isNull col, row, h =>
    map_getElem? row col (h col mem_cons_self) (· == DataType.none)
      (fun v => decide (v = .null)) fun d => by
        rw [Bool.eq_iff_iff, DataType.beq_iff_val, decide_eq_true_iff]
        rfl
  | .isNotNull col, row, h =>
    map_getElem? row col (h col mem_cons_self) (· != DataType.none)
      (fun v => decide (v ≠ .null)) fun d => by
        rw [Bool.eq_iff_iff, DataType.bne_iff_val, decide_eq_true_iff]
        rfl
  | .and conds, row, h => evaluateAll_eq conds row h
  | .or conds, row, h => evaluateAny_eq conds row h
  | .alwaysTrue, _, _ => rfl

theorem evaluateAll_eq : ∀ (conds : List FilterCondition) (row : Row),
    (∀ c ∈ columnsList conds, c < row.length) →
      evaluateAll conds row = some (holdsAll conds (Row.val row))
  | [], _, _ => rfl
  | cond :: conds, row, h => by
    have hc := evaluate_eq cond row fun c hm => h c (mem_append_left _ hm)
    have hcs := evaluateAll_eq conds row fun c hm => h c (mem_append_right _ hm)
    simp only [evaluateAll, holdsAll, hc, hcs, bind_eq_bind, bind_some]
    cases cond.holds (Row.val row) <;> rfl

theorem evaluateAny_eq : ∀ (conds : List FilterCondition) (row : Row),
    (∀ c ∈ columnsList conds, c < row.length) →
      evaluateAny conds row = some (holdsAny conds (Row.val row))
  | [], _, _ => rfl
  | cond :: conds, row, h => by
    have hc := evaluate_eq cond row fun c hm => h c (mem_append_left _ hm)
    have hcs := evaluateAny_eq conds row fun c hm => h c (mem_append_right _ hm)
    simp only [evaluateAny, holdsAny, hc, hcs, bind_eq_bind, bind_some]
    cases cond.holds (Row.val row) <;> rfl

end

end FilterCondition

/-- The filter keeps exactly the records whose row passes. -/
theorem FilterOp.keep_eq (cond : FilterCondition) (records : Records)
    (h : ∀ r ∈ records, ∀ c ∈ cond.columns, c < r.row.length) :
    FilterOp.keep cond records = some (records.filter fun r => cond.holds (Row.val r.row)) := by
  induction records with
  | nil => rfl
  | cons r rs ih =>
    have hr := cond.evaluate_eq r.row (h r mem_cons_self)
    have hrs := ih (forall_mem_cons.mp h).2
    simp only [FilterOp.keep, hr, hrs, bind_eq_bind, bind_some, filter_cons]

theorem Records.changes_filter (p : VRow → Bool) (records : Records) :
    Records.changes (records.filter fun r => p (Row.val r.row))
      = (Records.changes records).filter fun c => p c.elem := by
  induction records with
  | nil => rfl
  | cons r rs ih =>
    simp only [Records.changes_cons, filter_cons, Record.elem_change]
    split <;> simp [ih]

theorem FilterOp.process_delta (op : FilterOp)
    (hcols : ∀ r ∈ records, ∀ c ∈ op.condition.columns, c < r.row.length)
    (happ : Applies M records.changes M') :
    ∃ results : Records, op.process records = some ⟨results, []⟩ ∧ (∀ r ∈ results, r ∈ records) ∧
      Applies (M.filter fun v => op.condition.holds v = true) results.changes
        (M'.filter fun v => op.condition.holds v = true) := by
  refine ⟨records.filter fun r => op.condition.holds (Row.val r.row), ?_, ?_, ?_⟩
  · rw [FilterOp.process, FilterOp.keep_eq _ _ hcols]
    rfl
  · exact fun r hr => mem_of_mem_filter hr
  · rw [Records.changes_filter]
    have := happ.filter fun v => op.condition.holds v = true
    simpa using this

/-! ## Project -/

theorem Record.change_withRow (r : Record) (row : Row) (f : VRow → VRow)
    (h : Row.val row = f (Row.val r.row)) : (r.withRow row).change = r.change.map f := by
  cases r <;> simp_all [Record.withRow, Record.is_positive, Change.map]

theorem mapM_rows (f : Row → Option Row) (g : VRow → VRow)
    (h : ∀ r ∈ records, ∃ row, f r.row = some row ∧ Row.val row = g (Row.val r.row)) :
    ∃ results : Records, (records.mapM fun r => (f r.row).map r.withRow) = some results ∧
      results.changes = records.changes.map (Change.map g) ∧
      ∀ r ∈ results, ∃ r₀ ∈ records, f r₀.row = some r.row := by
  induction records with
  | nil => exact ⟨[], rfl, rfl, by simp⟩
  | cons r rs ih =>
    obtain ⟨row, hrow, hval⟩ := h r mem_cons_self
    obtain ⟨results, hres, hch, hmem⟩ := ih (forall_mem_cons.mp h).2
    refine ⟨r.withRow row :: results, ?_, ?_, ?_⟩
    · simp [mapM_cons, hrow, hres]
    · simp [hch, Record.change_withRow r row g hval]
    · intro r' hr'
      rcases mem_cons.mp hr' with rfl | hr'
      · exact ⟨r, mem_cons_self, by simpa using hrow⟩
      · obtain ⟨r₀, hm, hf⟩ := hmem r' hr'
        exact ⟨r₀, mem_cons_of_mem _ hm, hf⟩

theorem ProjectOp.process_delta (op : ProjectOp)
    (hcols : ∀ r ∈ records, ∀ c ∈ op.emit, c < r.row.length) (happ : Applies M records.changes M') :
    ∃ results : Records, op.process records = some ⟨results, []⟩ ∧
      (∀ r ∈ results, ∃ r₀ ∈ records, r₀.row.cols op.emit = some r.row) ∧
      Applies (M.map (VRow.proj op.emit)) results.changes (M'.map (VRow.proj op.emit)) := by
  have hrow : ∀ r ∈ records, ∃ row, r.row.cols op.emit = some row ∧
      Row.val row = VRow.proj op.emit (Row.val r.row) := by
    intro r hr
    obtain ⟨row, hrow⟩ := Row.cols_isSome (hcols r hr)
    exact ⟨row, hrow, Row.val_cols hrow⟩
  obtain ⟨results, hres, hch, hmem⟩ := mapM_rows (fun row => row.cols op.emit) _ hrow
  refine ⟨results, ?_, hmem, ?_⟩
  · rw [ProjectOp.process, hres]
    rfl
  · rw [hch]
    exact happ.map _

end Noria.Sqlite

import Noria.Sqlite.Delta

/-! # Delta law of the aggregate

  `AggregateOp` keeps a row count and a running sum for every group. The counters are `i64`s that
  wrap, so they are compared with the content modulo `2^64` (`Int64.ofInt` is additive), and only
  the values that are emitted need the true counts and sums to be in range. `Tracks` is the
  invariant of the counters. `process_shown` is the law for what the operator really shows for a
  group (`shown`), whatever the function; for COUNT and SUM that is the aggregate of the group
  (`shown_eq_over`).
-/

namespace Noria.Sqlite

open Bag List StateKey

variable {record : Record} {op : AggregateOp} {cs : List (Change VRow)} {records : Records}
  {n : Nat}

/-! ## Groups of a bag -/

def groupOf (group_by : List Nat) (M : Multiset VRow) (g : VRow) : Multiset VRow :=
  M.filter fun v => VRow.proj group_by v = g

/-- What a row adds to the running sum of its group. -/
def AggregateFunc.addend (func : AggregateFunc) (v : VRow) : Int :=
  match func with
  | .sum col => (v.getD col .null).intOf
  | .avg col => (v.getD col .null).intOf
  | _ => 0

/-- The running sum of a bag of rows. -/
def AggregateFunc.total (func : AggregateFunc) (rows : Multiset VRow) : Int :=
  (rows.map func.addend).sum

/-- The row count and the sum of every group are `i64`s. -/
def InRange (group_by : List Nat) (func : AggregateFunc) (M : Multiset VRow) : Prop :=
  ∀ g, ((groupOf group_by M g).card : Int) < 2 ^ 63 ∧
    -2 ^ 63 ≤ func.total (groupOf group_by M g) ∧ func.total (groupOf group_by M g) < 2 ^ 63

/-- The aggregate's row for one group; none for an empty group. -/
def groupRows (group_by : List Nat) (func : AggregateFunc) (M : Multiset VRow) (g : VRow) :
    Multiset VRow :=
  if (groupOf group_by M g).card = 0 then 0 else {g ++ [.int (func.over (groupOf group_by M g))]}

theorem card_groupOf_ne_zero {group_by : List Nat} {M : Multiset VRow} {v : VRow} (hv : v ∈ M) :
    (groupOf group_by M (VRow.proj group_by v)).card ≠ 0 := by
  intro h
  have hmem : v ∈ groupOf group_by M (VRow.proj group_by v) := Multiset.mem_filter.mpr ⟨hv, rfl⟩
  rw [Multiset.card_eq_zero.mp h] at hmem
  exact Multiset.notMem_zero v hmem

section Shown

variable (group_by : List Nat) (f : Multiset VRow → Int) (M : Multiset VRow)

/-- The groups of a bag with something computed from each. -/
def shownAggregate : Multiset VRow :=
  (M.map (VRow.proj group_by)).dedup.map fun g => g ++ [.int (f (groupOf group_by M g))]

/-- The row of one group; none for an empty group. -/
def shownRows (g : VRow) : Multiset VRow :=
  if (groupOf group_by M g).card = 0 then 0 else {g ++ [.int (f (groupOf group_by M g))]}

/-- The content is the sum of the groups' rows, taken over any set of groups
    that has all the non-empty ones. -/
theorem shownAggregate_eq_sum (S : Finset VRow) (hS : ∀ v ∈ M, VRow.proj group_by v ∈ S) :
    shownAggregate group_by f M = ∑ g ∈ S, shownRows group_by f M g := by
  have hsub : (M.map (VRow.proj group_by)).toFinset ⊆ S := by
    intro g hg
    rw [Multiset.mem_toFinset, Multiset.mem_map] at hg
    obtain ⟨v, hv, rfl⟩ := hg
    exact hS v hv
  have hzero : ∀ g ∈ S, g ∉ (M.map (VRow.proj group_by)).toFinset →
      shownRows group_by f M g = 0 := by
    intro g _ hg
    have hempty : groupOf group_by M g = 0 := by
      rw [groupOf, Multiset.filter_eq_nil]
      rintro v hv rfl
      exact hg (Multiset.mem_toFinset.mpr (Multiset.mem_map_of_mem _ hv))
    simp [shownRows, hempty]
  rw [← Finset.sum_subset hsub hzero]
  have hone : ∀ g ∈ (M.map (VRow.proj group_by)).toFinset, shownRows group_by f M g
      = {g ++ [.int (f (groupOf group_by M g))]} := by
    intro g hg
    rw [Multiset.mem_toFinset, Multiset.mem_map] at hg
    obtain ⟨v, hv, rfl⟩ := hg
    rw [shownRows, if_neg (card_groupOf_ne_zero hv)]
  rw [Finset.sum_congr rfl hone, Finset.sum_eq_multiset_sum, Multiset.toFinset_val, shownAggregate]
  conv_lhs => rw [← Multiset.sum_map_singleton (Multiset.map _ _), Multiset.map_map]
  rfl

end Shown

/-- What the operator shows for a group: MIN and MAX show the sum, to which
    their rows add nothing. -/
def AggregateFunc.shown (func : AggregateFunc) (rows : Multiset VRow) : Int :=
  match func with
  | .count => rows.card
  | .sum _ => func.total rows
  | .avg _ => (func.total rows).tdiv rows.card
  | .min _ => 0
  | .max _ => 0

/-! ### How a batch moves the counters -/

def countOf (group_by : List Nat) (g v : VRow) : Int :=
  if VRow.proj group_by v = g then 1 else 0

def sumOf (group_by : List Nat) (func : AggregateFunc) (g v : VRow) : Int :=
  if VRow.proj group_by v = g then func.addend v else 0

theorem sum_map_ite {α : Type*} (M : Multiset α) (p : α → Prop) [DecidablePred p] (f : α → Int) :
    (M.map fun v => if p v then f v else 0).sum = ((M.filter p).map f).sum := by
  induction M using Multiset.induction with
  | empty => rfl
  | cons a M ih =>
    by_cases hp : p a
    · simp [hp, ih]
    · simp [hp, ih]

theorem card_groupOf_applies {M M' : Multiset VRow} (happ : Applies M cs M') (group_by : List Nat)
    (g : VRow) :
    ((groupOf group_by M' g).card : Int)
      = (groupOf group_by M g).card + (cs.map (Change.weight (countOf group_by g))).sum := by
  have hcard : ∀ N : Multiset VRow,
      (N.map (countOf group_by g)).sum = ((groupOf group_by N g).card : Int) := by
    intro N
    show (N.map fun v => if VRow.proj group_by v = g then (1 : Int) else 0).sum = _
    rw [sum_map_ite N (fun v => VRow.proj group_by v = g) fun _ => (1 : Int)]
    simp [groupOf]
  rw [← hcard, ← hcard]
  exact happ.sum_eq _

theorem total_groupOf_applies {M M' : Multiset VRow} (happ : Applies M cs M') (group_by : List Nat)
    (func : AggregateFunc) (g : VRow) :
    func.total (groupOf group_by M' g)
      = func.total (groupOf group_by M g)
        + (cs.map (Change.weight (sumOf group_by func g))).sum := by
  have htot : ∀ N : Multiset VRow,
      (N.map (sumOf group_by func g)).sum = func.total (groupOf group_by N g) := by
    intro N
    exact sum_map_ite N (fun v => VRow.proj group_by v = g) func.addend
  rw [← htot, ← htot]
  exact happ.sum_eq _

theorem groupOf_applies_of_notMem {M M' : Multiset VRow} (happ : Applies M cs M')
    (group_by : List Nat) (g : VRow) (h : ∀ c ∈ cs, VRow.proj group_by c.elem ≠ g) :
    groupOf group_by M g = groupOf group_by M' g := by
  have hf := happ.filter fun v => VRow.proj group_by v = g
  have hnil : (cs.filter fun c => VRow.proj group_by c.elem = g) = [] := by
    rw [filter_eq_nil_iff]
    intro c hc
    simpa using h c hc
  rw [hnil, Applies.nil_iff] at hf
  exact hf

/-! ## The first loop: the change of every group -/

/-- The column whose values are added up. -/
def AggregateFunc.summed : AggregateFunc → Option Nat
  | .sum col => some col
  | .avg col => some col
  | _ => none

namespace AggregateOp

/-- A row the aggregate can read: it has the grouping columns, and an integer in the summed one. -/
structure Reads (op : AggregateOp) (row : Row) : Prop where
  group : ∀ c ∈ op.group_by, c < row.length
  summed : ∀ c, op.func.summed = some c → ∃ d, row[c]? = some d ∧ d.is_integer = true

theorem delta_eq (record : Record) :
    delta record = Int64.ofInt (record.change.weight fun _ => (1 : Int)) := by
  cases record <;> rfl

theorem signedValue_eq (record : Record) {col : Nat} {d : DataType}
    (hd : record.row[col]? = some d) (hint : d.is_integer = true) :
    signedValue d (delta record)
      = Int64.ofInt (record.change.weight fun v => (v.getD col .null).intOf) := by
  have hval : ((Row.val record.row).getD col .null).intOf = d.val.intOf := by
    rw [Row.val_getD _ _ hd]
  have hsign : ∀ x : Int64, x.toInt = d.val.intOf → x * delta record
      = Int64.ofInt (record.change.weight fun v => (v.getD col .null).intOf) := by
    intro x hx
    cases record with
    | positive row =>
      show x * 1 = Int64.ofInt ((Row.val row).getD col .null).intOf
      rw [Int64.mul_one,
        show ((Row.val row).getD col .null).intOf = x.toInt from hval.trans hx.symm,
        Int64.ofInt_toInt]
    | negative row =>
      show x * -1 = Int64.ofInt (-((Row.val row).getD col .null).intOf)
      rw [Int64.mul_neg, Int64.mul_one, Int64.ofInt_neg,
        show ((Row.val row).getD col .null).intOf = x.toInt from hval.trans hx.symm,
        Int64.ofInt_toInt]
  cases d with
  | int v => exact hsign v.toInt64 (Int32.toInt_toInt64 v)
  | bigInt v => exact hsign v rfl
  | _ => cases hint

theorem value_delta_eq (h : op.Reads record.row) :
    value_delta op.func record = some (Int64.ofInt (record.change.weight op.func.addend)) := by
  have hs := h.summed
  cases hf : op.func with
  | sum col =>
    rw [hf] at hs
    obtain ⟨d, hd, hint⟩ := hs col rfl
    show record.row[col]?.map _ = _
    rw [hd, Option.map_some]
    exact congrArg some (signedValue_eq record hd hint)
  | avg col =>
    rw [hf] at hs
    obtain ⟨d, hd, hint⟩ := hs col rfl
    show record.row[col]?.map _ = _
    rw [hd, Option.map_some]
    exact congrArg some (signedValue_eq record hd hint)
  | count => cases record <;> rfl
  | min col => cases record <;> rfl
  | max col => cases record <;> rfl

theorem weight_countOf (group_by : List Nat) (g : VRow) (record : Record) :
    record.change.weight (countOf group_by g)
      = if VRow.proj group_by (Row.val record.row) = g
        then record.change.weight fun _ => (1 : Int) else 0 := by
  by_cases h : VRow.proj group_by (Row.val record.row) = g
  · cases record <;> simp_all [countOf]
  · cases record <;> simp_all [countOf]

theorem weight_sumOf (group_by : List Nat) (func : AggregateFunc) (g : VRow) (record : Record) :
    record.change.weight (sumOf group_by func g)
      = if VRow.proj group_by (Row.val record.row) = g
        then record.change.weight func.addend else 0 := by
  by_cases h : VRow.proj group_by (Row.val record.row) = g
  · cases record <;> simp_all [sumOf]
  · cases record <;> simp_all [sumOf]

theorem changeGroup_eq (h : op.Reads record.row) (m : AssocMap StateKey (Int64 × Int64)) :
    ∃ key m', StateKey.from_row record.row op.group_by = some key ∧
      changeGroup op m record = some m' ∧
      (∀ e ∈ m'.entries, e.1 = key ∨ ∃ e₀ ∈ m.entries, e₀.1 = e.1) ∧
      (∀ k, (m'.get? k).isSome ↔ key.vals = k.vals ∨ (m.get? k).isSome) ∧
      ∀ k, (m'.get? k).getD (0, 0)
        = (((m.get? k).getD (0, 0)).1
            + Int64.ofInt (record.change.weight (countOf op.group_by k.vals)),
          ((m.get? k).getD (0, 0)).2
            + Int64.ofInt (record.change.weight (sumOf op.group_by op.func k.vals))) := by
  obtain ⟨key, hkey⟩ := from_row_isSome h.group
  have hvals := vals_from_row hkey
  let moved := (((m.get? key).getD (0, 0)).1 + delta record,
    ((m.get? key).getD (0, 0)).2 + Int64.ofInt (record.change.weight op.func.addend))
  refine ⟨key, m.insert key moved, hkey, ?_, fun e he => m.key_of_mem_insert he, ?_, ?_⟩
  · simp only [changeGroup, hkey, value_delta_eq h, Option.bind_eq_bind, Option.bind_some]
    rfl
  · intro k
    rw [AssocMap.get?_insert, ← beq_iff_vals]
    split <;> simp_all
  · intro k
    rw [AssocMap.get?_insert, weight_countOf, weight_sumOf, ← hvals]
    by_cases hk : (key == k) = true
    · rw [if_pos hk, if_pos ((beq_iff_vals _ _).mp hk),
        if_pos ((beq_iff_vals _ _).mp hk), ← delta_eq, ← m.get?_congr hk]
      rfl
    · have hne : key.vals ≠ k.vals := fun he => hk ((beq_iff_vals _ _).mpr he)
      rw [if_neg hk, if_neg hne, if_neg hne]
      show _ = (_ + 0, _ + 0)
      rw [Int64.add_zero, Int64.add_zero]

theorem changeGroup_fold (h : ∀ r ∈ records, op.Reads r.row)
    (m : AssocMap StateKey (Int64 × Int64)) :
    ∃ m', records.foldlM (changeGroup op) m = some m' ∧
      (∀ e ∈ m'.entries, (∃ r ∈ records, StateKey.from_row r.row op.group_by = some e.1) ∨
        ∃ e₀ ∈ m.entries, e₀.1 = e.1) ∧
      (∀ k, (m'.get? k).isSome ↔
        (∃ r ∈ records, VRow.proj op.group_by (Row.val r.row) = k.vals) ∨ (m.get? k).isSome) ∧
      ∀ k, (m'.get? k).getD (0, 0)
        = (((m.get? k).getD (0, 0)).1
            + Int64.ofInt (records.changes.map (Change.weight (countOf op.group_by k.vals))).sum,
          ((m.get? k).getD (0, 0)).2 + Int64.ofInt
            (records.changes.map (Change.weight (sumOf op.group_by op.func k.vals))).sum) := by
  induction records generalizing m with
  | nil =>
    refine ⟨m, rfl, fun e he => .inr ⟨e, he, rfl⟩, by simp, fun k => ?_⟩
    show _ = (_ + 0, _ + 0)
    rw [Int64.add_zero, Int64.add_zero]
  | cons r rs ih =>
    obtain ⟨key, m₁, hkey, hm₁, hent₁, hsome₁, hget₁⟩ := changeGroup_eq (h r mem_cons_self) m
    obtain ⟨m', hm', hent, hsome, hget⟩ := ih (forall_mem_cons.mp h).2 m₁
    refine ⟨m', ?_, ?_, ?_, ?_⟩
    · simp only [foldlM_cons, hm₁, Option.bind_eq_bind, Option.bind_some, hm']
    · intro e he
      rcases hent e he with ⟨r', hr', hk'⟩ | ⟨e₀, he₀, heq⟩
      · exact .inl ⟨r', mem_cons_of_mem _ hr', hk'⟩
      · rcases hent₁ e₀ he₀ with hk | ⟨e₁, he₁, heq₁⟩
        · exact .inl ⟨r, mem_cons_self, by rw [hkey, ← heq, hk]⟩
        · exact .inr ⟨e₁, he₁, heq₁.trans heq⟩
    · intro k
      rw [hsome, hsome₁, vals_from_row hkey]
      simp only [mem_cons, exists_eq_or_imp]
      rw [or_left_comm, or_assoc]
    · intro k
      rw [hget, hget₁]
      simp only [Records.changes_cons, map_cons, sum_cons, Int64.ofInt_add,
        Int64.add_assoc]

/-! ## The second loop: retracting and emitting -/

/-- The counters that belong to a group; an empty group has none. -/
def counters (group_by : List Nat) (func : AggregateFunc) (M : Multiset VRow) (g : VRow) :
    Option AggregateGroupState :=
  if (groupOf group_by M g).card = 0 then none
  else some ⟨Int64.ofInt (groupOf group_by M g).card,
    Int64.ofInt (func.total (groupOf group_by M g))⟩

/-- What is emitted for a group when the input goes from `M` to `M'`. -/
def groupChanges (group_by : List Nat) (func : AggregateFunc) (M M' : Multiset VRow) (g : VRow) :
    List (Change VRow) :=
  (if (groupOf group_by M g).card = 0 then []
    else [.del (g ++ [.int (func.shown (groupOf group_by M g))])]) ++
  (if (groupOf group_by M' g).card = 0 then []
    else [.ins (g ++ [.int (func.shown (groupOf group_by M' g))])])

theorem applies_groupChanges (group_by : List Nat) (func : AggregateFunc) (M M' : Multiset VRow)
    (g : VRow) :
    Applies (shownRows group_by func.shown M g) (groupChanges group_by func M M' g)
      (shownRows group_by func.shown M' g) := by
  unfold shownRows groupChanges
  by_cases h : (groupOf group_by M g).card = 0
  · by_cases h' : (groupOf group_by M' g).card = 0
    · simp only [h, h', if_true, append_nil]
      exact .nil 0
    · simp only [h, h', if_true, if_false, nil_append]
      exact .ins (.nil _)
  · by_cases h' : (groupOf group_by M' g).card = 0
    · simp only [h, h', if_true, if_false, append_nil]
      exact .del (.nil 0)
    · simp only [h, h', if_false, singleton_append]
      exact .del (.ins (.nil _))

/-- The aggregates whose result is one of the two counters. -/
def Counter (func : AggregateFunc) : Prop :=
  func = .count ∨ ∃ col, func = .sum col

theorem shown_eq_over {func : AggregateFunc} (hf : Counter func) : func.shown = func.over := by
  rcases hf with rfl | ⟨col, rfl⟩
  · rfl
  · rfl

theorem toInt_div_ofInt {t : Int} (hlo : -2 ^ 63 ≤ t) (hhi : t < 2 ^ 63) (hn : (n : Int) < 2 ^ 63) :
    (Int64.ofInt t / Int64.ofInt n).toInt = t.tdiv n := by
  have hcount : (Int64.ofInt n).toInt = n := Int64.toInt_ofInt_of_le (by omega) hn
  have hne : Int64.ofInt n ≠ -1 := by
    intro h
    rw [h] at hcount
    change -1 = (n : Int) at hcount
    omega
  rw [Int64.toInt_div_of_ne_right _ _ hne, Int64.toInt_ofInt_of_le hlo hhi, hcount]

/-- In range, the emitted result is what is shown for the group. -/
theorem val_result {group_by : List Nat} {func : AggregateFunc} {M : Multiset VRow}
    (hM : InRange group_by func M) (g : VRow) :
    (result func (Int64.ofInt (groupOf group_by M g).card)
        (Int64.ofInt (func.total (groupOf group_by M g)))).val
      = .int (func.shown (groupOf group_by M g)) := by
  obtain ⟨hcard, hlo, hhi⟩ := hM g
  cases func with
  | count =>
    show Value.int (Int64.ofInt _).toInt = Value.int _
    rw [Int64.toInt_ofInt_of_le (by omega) hcard]
    rfl
  | sum col =>
    show Value.int (Int64.ofInt _).toInt = Value.int _
    rw [Int64.toInt_ofInt_of_le hlo hhi]
    rfl
  | avg col =>
    show Value.int (Int64.ofInt _ / Int64.ofInt _).toInt = Value.int _
    rw [toInt_div_ofInt hlo hhi hcard]
    rfl
  | min col =>
    show Value.int (Int64.ofInt _).toInt = Value.int 0
    rw [Int64.toInt_ofInt_of_le hlo hhi]
    exact congrArg Value.int (Multiset.sum_map_zero ..)
  | max col =>
    show Value.int (Int64.ofInt _).toInt = Value.int 0
    rw [Int64.toInt_ofInt_of_le hlo hhi]
    exact congrArg Value.int (Multiset.sum_map_zero ..)

theorem ofInt_pos_iff (h : (n : Int) < 2 ^ 63) : Int64.ofInt n > 0 ↔ n ≠ 0 := by
  show (0 : Int64) < _ ↔ _
  rw [Int64.lt_iff_toInt_lt, Int64.toInt_ofInt_of_le (by omega) h]
  show (0 : Int) < n ↔ _
  omega

theorem ofInt_nonpos_iff (h : (n : Int) < 2 ^ 63) : Int64.ofInt n ≤ 0 ↔ n = 0 := by
  rw [Int64.le_iff_toInt_le, Int64.toInt_ofInt_of_le (by omega) h]
  show (n : Int) ≤ 0 ↔ _
  omega

theorem counters_getD (group_by : List Nat) (func : AggregateFunc) (M : Multiset VRow) (g : VRow) :
    (counters group_by func M g).getD ⟨0, 0⟩
      = ⟨Int64.ofInt (groupOf group_by M g).card,
        Int64.ofInt (func.total (groupOf group_by M g))⟩ := by
  unfold counters
  split
  · rename_i h
    rw [h, Multiset.card_eq_zero.mp h]
    rfl
  · rfl

section Emit

variable {group_by : List Nat} {func : AggregateFunc} {M M' : Multiset VRow}

/-- A group's change carries the counters from those of `M` to those of `M'`. -/
def Carries (group_by : List Nat) (func : AggregateFunc) (M M' : Multiset VRow)
    (change : StateKey × (Int64 × Int64)) : Prop :=
  Int64.ofInt (groupOf group_by M' change.1.vals).card
      = Int64.ofInt (groupOf group_by M change.1.vals).card + change.2.1 ∧
    Int64.ofInt (func.total (groupOf group_by M' change.1.vals))
      = Int64.ofInt (func.total (groupOf group_by M change.1.vals)) + change.2.2

theorem emitGroup_eq (hM : InRange group_by func M)
    (hM' : InRange group_by func M') {acc : AssocMap StateKey AggregateGroupState × Records}
    {change : StateKey × (Int64 × Int64)}
    (hold : acc.1.get? change.1 = counters group_by func M change.1.vals)
    (hcar : Carries group_by func M M' change) :
    ∃ recs : Records, (emitGroup func acc change).2 = acc.2 ++ recs ∧
      recs.changes = groupChanges group_by func M M' change.1.vals ∧
      (∀ r ∈ recs, ∃ x : Int64, r.row = change.1.values ++ [.bigInt x]) ∧
      ∀ k, (emitGroup func acc change).1.get? k
        = if change.1 == k then counters group_by func M' change.1.vals else acc.1.get? k := by
  obtain ⟨key, dc, ds⟩ := change
  obtain ⟨hdc, hds⟩ := hcar
  have hcard := (hM key.vals).1
  have hcard' := (hM' key.vals).1
  simp only [emitGroup, hold, counters_getD, ← hdc, ← hds, gt_iff_lt]
  simp only [← gt_iff_lt, ofInt_pos_iff hcard, ofInt_pos_iff hcard', ofInt_nonpos_iff hcard']
  refine ⟨_, append_assoc _ _ _, ?_, ?_, ?_⟩
  · rw [Records.changes_append, groupChanges]
    congr 1
    · by_cases h : (groupOf group_by M key.vals).card = 0
      · simp [h]
      · simp [h, val_values, val_result hM key.vals]
    · by_cases h' : (groupOf group_by M' key.vals).card = 0
      · simp [h']
      · simp [h', val_values, val_result hM' key.vals]
  · intro r hr
    have hresult : ∀ c t : Int64, ∃ x : Int64, result func c t = .bigInt x := by
      intro c t
      cases func <;> exact ⟨_, rfl⟩
    rw [mem_append] at hr
    rcases hr with hr | hr
    · split at hr
      · rw [mem_singleton] at hr
        obtain ⟨x, hx⟩ := hresult (Int64.ofInt (groupOf group_by M key.vals).card)
          (Int64.ofInt (func.total (groupOf group_by M key.vals)))
        exact ⟨x, by rw [hr, Record.row_negative, hx]⟩
      · cases hr
    · split at hr
      · rw [mem_singleton] at hr
        obtain ⟨x, hx⟩ := hresult (Int64.ofInt (groupOf group_by M' key.vals).card)
          (Int64.ofInt (func.total (groupOf group_by M' key.vals)))
        exact ⟨x, by rw [hr, Record.row_positive, hx]⟩
      · cases hr
  · intro k
    unfold counters
    by_cases h' : (groupOf group_by M' key.vals).card = 0
    · rw [if_pos h', if_pos h', AssocMap.get?_erase, AssocMap.get?_insert]
      split <;> rfl
    · rw [if_neg h', if_neg h', AssocMap.get?_insert]

theorem emitGroup_fold (hM : InRange group_by func M)
    (hM' : InRange group_by func M') {l : List (StateKey × (Int64 × Int64))}
    (hnd : (l.map fun e => e.1.vals).Nodup)
    (acc : AssocMap StateKey AggregateGroupState × Records)
    (hold : ∀ e ∈ l, acc.1.get? e.1 = counters group_by func M e.1.vals)
    (hcar : ∀ e ∈ l, Carries group_by func M M' e) :
    ∃ recs : Records, (l.foldl (emitGroup func) acc).2 = acc.2 ++ recs ∧
      recs.changes
        = ((l.map fun e => e.1.vals).map (groupChanges group_by func M M')).flatten ∧
      (∀ r ∈ recs, ∃ e ∈ l, ∃ x : Int64, r.row = e.1.values ++ [.bigInt x]) ∧
      ∀ k, (l.foldl (emitGroup func) acc).1.get? k
        = if k.vals ∈ l.map fun e => e.1.vals then counters group_by func M' k.vals
          else acc.1.get? k := by
  induction l generalizing acc with
  | nil => exact ⟨[], by simp, rfl, by simp, by simp⟩
  | cons e l ih =>
    rw [map_cons, nodup_cons] at hnd
    obtain ⟨recs₁, hrecs₁, hch₁, hrow₁, hget₁⟩ :=
      emitGroup_eq hM hM' (hold e mem_cons_self) (hcar e mem_cons_self)
    -- the groups still to come are different, so their counters are the old ones
    have hold₁ : ∀ e' ∈ l, (emitGroup func acc e).1.get? e'.1
        = counters group_by func M e'.1.vals := by
      intro e' he'
      have hne : ¬(e.1 == e'.1) = true := by
        rw [beq_iff_vals]
        intro heq
        exact hnd.1 (mem_map.mpr ⟨e', he', heq.symm⟩)
      rw [hget₁, if_neg hne]
      exact hold e' (mem_cons_of_mem _ he')
    obtain ⟨recs, hrecs, hch, hrow, hget⟩ := ih hnd.2 _ hold₁ (forall_mem_cons.mp hcar).2
    refine ⟨recs₁ ++ recs, ?_, ?_, ?_, ?_⟩
    · rw [foldl_cons, hrecs, hrecs₁, append_assoc]
    · simp [hch₁, hch]
    · intro r hr
      rcases mem_append.mp hr with hr | hr
      · exact ⟨e, mem_cons_self, hrow₁ r hr⟩
      · obtain ⟨e', he', hx⟩ := hrow r hr
        exact ⟨e', mem_cons_of_mem _ he', hx⟩
    · intro k
      rw [foldl_cons, hget, hget₁]
      simp only [map_cons, mem_cons, beq_iff_vals]
      by_cases hk : k.vals ∈ l.map fun e => e.1.vals
      · rw [if_pos hk, if_pos (.inr hk)]
      · by_cases hek : e.1.vals = k.vals
        · rw [if_neg hk, if_pos hek, if_pos (.inl hek.symm), hek]
        · have hnone : ¬(k.vals = e.1.vals ∨ k.vals ∈ l.map fun e => e.1.vals) := by
            rintro (h | h)
            · exact hek h.symm
            · exact hk h
          rw [if_neg hk, if_neg hek, if_neg hnone]

end Emit

/-! ## The law -/

/-- The counters of the operator are those of the content `M`. -/
def Tracks (op : AggregateOp) (M : Multiset VRow) : Prop :=
  ∀ k : StateKey, op.internal_state.get? k = counters op.group_by op.func M k.vals

theorem tracks_new (order : HashOrder) (group_by : List Nat) (func : AggregateFunc)
    (key_cols : List Nat) : (new order group_by func key_cols).Tracks 0 := by
  intro k
  rfl

theorem process_shown {M M' : Multiset VRow} (hreads : ∀ r ∈ records, op.Reads r.row)
    (hM : InRange op.group_by op.func M) (hM' : InRange op.group_by op.func M')
    (htracks : op.Tracks M) (happ : Applies M records.changes M') :
    ∃ (state' : AssocMap StateKey AggregateGroupState) (results : Records),
      op.process records
        = some ({ op with internal_state := state', calls := op.calls + 1 }, ⟨results, []⟩) ∧
      (∀ k : StateKey, state'.get? k = counters op.group_by op.func M' k.vals) ∧
      (∀ r ∈ results, ∃ r₀ ∈ records, ∃ key, StateKey.from_row r₀.row op.group_by = some key ∧
        ∃ x : Int64, r.row = key.values ++ [.bigInt x]) ∧
      Applies (shownAggregate op.group_by op.func.shown M) results.changes
        (shownAggregate op.group_by op.func.shown M') := by
  obtain ⟨gc, hgc, hent, hsome, hget⟩ := changeGroup_fold hreads ∅
  obtain ⟨l, hl, hperm⟩ : ∃ l, l = (op.order op.calls gc.entries).val ∧ l.Perm gc.entries :=
    ⟨_, rfl, (op.order op.calls gc.entries).property⟩
  have hmem : ∀ e, e ∈ l ↔ e ∈ gc.entries := fun e => hperm.mem_iff
  -- the groups are pairwise different, in whatever order
  have hnd : (l.map fun e => e.1.vals).Nodup := by
    rw [(hperm.map fun e => e.1.vals).nodup_iff]
    refine List.Pairwise.map _ (fun a b h heq => ?_) gc.distinct
    rw [(beq_iff_vals _ _).mpr heq] at h
    cases h
  have hkeys : ∀ g : StateKey, g.vals ∈ l.map (fun e => e.1.vals) ↔
      ∃ r ∈ records, VRow.proj op.group_by (Row.val r.row) = g.vals := by
    intro g
    have := hsome g
    simp only [AssocMap.get?_empty, Option.isSome_none, Bool.false_eq_true, or_false] at this
    rw [← this, mem_map]
    constructor
    · rintro ⟨e, he, heq⟩
      rw [← gc.get?_congr ((beq_iff_vals e.1 g).mpr heq), gc.get?_of_mem ((hmem e).mp he)]
      rfl
    · intro h
      obtain ⟨v, hv⟩ := Option.isSome_iff_exists.mp h
      obtain ⟨k₀, hk₀, he⟩ := gc.mem_of_get? hv
      exact ⟨(k₀, v), (hmem _).mpr he, (beq_iff_vals _ _).mp hk₀⟩
  have hcar : ∀ e ∈ l, Carries op.group_by op.func M M' e := by
    intro e he
    have hval := hget e.1
    rw [gc.get?_of_mem ((hmem e).mp he)] at hval
    simp only [AssocMap.get?_empty, Option.getD_none, Option.getD_some, Int64.zero_add] at hval
    rw [Carries, card_groupOf_applies happ, total_groupOf_applies happ, Int64.ofInt_add,
      Int64.ofInt_add, hval]
    exact ⟨rfl, rfl⟩
  obtain ⟨results, hres, hch, hrow, hst⟩ := emitGroup_fold hM hM' hnd
    (op.internal_state, []) (fun e _ => htracks e.1) hcar
  refine ⟨(l.foldl (emitGroup op.func) (op.internal_state, [])).1, results, ?_, ?_, ?_, ?_⟩
  · simp only [process, hgc, Option.bind_eq_bind, Option.bind_some, ← hl, hres, nil_append]
  · intro k
    rw [hst]
    split
    · rfl
    · rename_i hk
      -- no record belongs to this group
      have hsame := groupOf_applies_of_notMem happ op.group_by k.vals (by
        intro c hc heq
        obtain ⟨r, hr, rfl⟩ := mem_map.mp hc
        rw [Record.elem_change] at heq
        exact hk ((hkeys k).mpr ⟨r, hr, heq⟩))
      rw [htracks k, counters, counters, hsame]
  · intro r hr
    obtain ⟨e, he, x, hx⟩ := hrow r hr
    rcases hent e ((hmem e).mp he) with ⟨r₀, hr₀, hk₀⟩ | ⟨e₀, he₀, _⟩
    · exact ⟨r₀, hr₀, e.1, hk₀, x, hx⟩
    · simp at he₀
  · -- the groups without a record keep their rows
    let S := ((M + M').map (VRow.proj op.group_by)).toFinset ∪ (l.map fun e => e.1.vals).toFinset
    have hS : ∀ N ≤ M + M', ∀ v ∈ N, VRow.proj op.group_by v ∈ S := by
      intro N hN v hv
      refine Finset.mem_union_left _ (Multiset.mem_toFinset.mpr ?_)
      exact Multiset.mem_map_of_mem _ (Multiset.mem_of_le hN hv)
    rw [shownAggregate_eq_sum _ _ M S (hS M (Multiset.le_add_right M M')),
      shownAggregate_eq_sum _ _ M' S (hS M' (Multiset.le_add_left M' M)), hch]
    refine Applies.sum_groups S hnd ?_ (fun g _ => applies_groupChanges _ _ M M' g) ?_
    · intro g hg
      exact Finset.mem_union_right _ (mem_toFinset.mpr hg)
    · intro g _ hg
      have hsame := groupOf_applies_of_notMem happ op.group_by g (by
        intro c hc heq
        obtain ⟨r, hr, rfl⟩ := mem_map.mp hc
        rw [Record.elem_change] at heq
        obtain ⟨key, hkey⟩ := from_row_isSome (hreads r hr).group
        have hvals := vals_from_row hkey
        have := (hkeys key).mpr ⟨r, hr, hvals.symm⟩
        rw [hvals, heq] at this
        exact hg this)
      rw [shownRows, shownRows, hsame]

end AggregateOp

end Noria.Sqlite

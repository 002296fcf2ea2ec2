import Noria.Framework.Machine
import Noria.Sqlite.Aggregate

/-! # MIN and MAX

  `AggregateOp` has no state for an extremum. A record adds nothing to the running sum of a MIN or
  MAX, and the sum is what is shown, so the operator keeps one row for each non-empty group, and
  that row always says 0 (`feed_extremal`).

  `extremum_right_iff`: after any sequence of batches the rows are right
  exactly if 0 is the extremum of every group.
-/

namespace Noria.Sqlite

open Bag List

/-! ## The extremum of a group -/

namespace AggregateFunc

/-- MIN and MAX of a column. -/
def Extremal (func : AggregateFunc) : Prop :=
  (∃ col, func = .min col) ∨ ∃ col, func = .max col

/-- The integers in a column. -/
def columnOf (col : Nat) (rows : Multiset VRow) : Multiset Int :=
  rows.map fun v => (v.getD col .null).intOf

/-- `x` is the least, respectively the greatest, of the column. -/
def IsExtremum (func : AggregateFunc) (rows : Multiset VRow) (x : Int) : Prop :=
  match func with
  | .min col => IsLeast { y | y ∈ columnOf col rows } x
  | .max col => IsGreatest { y | y ∈ columnOf col rows } x
  | _ => False

variable {func : AggregateFunc} {rows : Multiset VRow}

theorem rel_headD_sort (r : Int → Int → Prop) [DecidableRel r] [IsTrans Int r] [Std.Antisymm r]
    [Std.Total r] (hrefl : ∀ x, r x x) {m : Multiset Int} (hm : m ≠ 0) :
    (m.sort r).headD 0 ∈ m ∧ ∀ y ∈ m, r ((m.sort r).headD 0) y := by
  have hsort := m.sort_eq r
  have hpair := m.pairwise_sort r
  cases hl : m.sort r with
  | nil =>
    rw [hl] at hsort
    exact absurd hsort.symm hm
  | cons x l =>
    rw [hl] at hsort hpair
    rw [← hsort]
    refine ⟨mem_cons_self, fun y hy => ?_⟩
    rcases mem_cons.mp hy with rfl | hy
    · exact hrefl y
    · exact (pairwise_cons.mp hpair).1 y hy

theorem isExtremum_over (hf : func.Extremal) (hrows : rows ≠ 0) :
    func.IsExtremum rows (func.over rows) := by
  have hne : ∀ col, columnOf col rows ≠ 0 := by
    intro col h
    exact hrows (Multiset.map_eq_zero.mp h)
  rcases hf with ⟨col, rfl⟩ | ⟨col, rfl⟩
  · exact rel_headD_sort (· ≤ ·) (fun x => Int.le_refl x) (hne col)
  · exact rel_headD_sort (· ≥ ·) (fun x => Int.le_refl x) (hne col)

theorem over_eq_iff (hf : func.Extremal) (hrows : rows ≠ 0) (x : Int) :
    func.over rows = x ↔ func.IsExtremum rows x := by
  have hover := isExtremum_over hf hrows
  refine ⟨fun h => h ▸ hover, fun hx => ?_⟩
  rcases hf with ⟨col, rfl⟩ | ⟨col, rfl⟩
  · exact IsLeast.unique hover hx
  · exact IsGreatest.unique hover hx

end AggregateFunc

/-! ## What the operator keeps -/

namespace AggregateOp

def machine : Machine AggregateOp Records Records := fun op records =>
  (op.process records).map fun r => (r.2.results, r.1)

variable {group_by : List Nat} {func : AggregateFunc} {M M' : Multiset VRow}

theorem card_le_of_applies {cs : List (Change VRow)} (h : Applies M cs M') :
    M'.card ≤ M.card + cs.length := by
  induction h with
  | nil m => exact Nat.le_refl _
  | ins _ ih =>
    rw [Multiset.card_cons] at ih
    rw [length_cons]
    omega
  | del _ ih =>
    rw [Multiset.card_cons, length_cons]
    omega

theorem inRange_of_extremal (hf : func.Extremal) (h : (M.card : Int) < 2 ^ 63) :
    InRange group_by func M := by
  intro g
  have hcard : (groupOf group_by M g).card ≤ M.card :=
    Multiset.card_le_card (Multiset.filter_le _ _)
  have htotal : func.total (groupOf group_by M g) = 0 := by
    rcases hf with ⟨col, rfl⟩ | ⟨col, rfl⟩
    · exact Multiset.sum_map_zero ..
    · exact Multiset.sum_map_zero ..
  omega

/-- **Whole runs.** The output always holds one row for each non-empty group, with a 0 in it. -/
theorem feed_extremal (op : AggregateOp) (hf : op.func.Extremal) {batches : List Records}
    (hreads : ∀ b ∈ batches, ∀ r ∈ b, ∀ c ∈ op.group_by, c < r.row.length)
    (htracks : op.Tracks M) (happ : Applies M (batches.map Records.changes).flatten M')
    (hsmall : ((M.card + (batches.map List.length).sum : Nat) : Int) < 2 ^ 63) :
    ∃ out op', Machine.feed machine op batches = some (out, op') ∧
      Applies (shownAggregate op.group_by (fun _ => 0) M) (out.map Records.changes).flatten
        (shownAggregate op.group_by (fun _ => 0) M') := by
  have hshown : op.func.shown = fun _ => 0 := by
    rcases hf with ⟨col, hcol⟩ | ⟨col, hcol⟩
    · rw [hcol]
      rfl
    · rw [hcol]
      rfl
  induction batches generalizing op M with
  | nil =>
    rw [map_nil, flatten_nil, Applies.nil_iff] at happ
    rw [happ]
    exact ⟨[], op, rfl, .nil _⟩
  | cons b batches ih =>
    rw [map_cons, flatten_cons, Applies.append_iff] at happ
    obtain ⟨M₁, hb, hrest⟩ := happ
    rw [map_cons, sum_cons] at hsmall
    have hcard := card_le_of_applies hb
    rw [Records.changes, length_map] at hcard
    have hreads' : ∀ r ∈ b, op.Reads r.row := by
      intro r hr
      refine ⟨hreads b mem_cons_self r hr, fun c hc => ?_⟩
      rcases hf with ⟨col, hcol⟩ | ⟨col, hcol⟩
      · rw [hcol] at hc
        cases hc
      · rw [hcol] at hc
        cases hc
    obtain ⟨state', results, hproc, hstate, -, hlaw⟩ := process_shown hreads'
      (inRange_of_extremal hf (by omega)) (inRange_of_extremal hf (by omega)) htracks hb
    obtain ⟨out, op', hfeed, hlaw'⟩ :=
      ih { op with internal_state := state', calls := op.calls + 1 } hf
        (forall_mem_cons.mp hreads).2 hstate hrest (by omega) hshown
    rw [hshown] at hlaw
    refine ⟨results :: out, op', Machine.feed_cons ?_ hfeed, hlaw.append hlaw'⟩
    rw [machine, hproc]
    rfl

theorem shownAggregate_eq_iff {f f' : Multiset VRow → Int} :
    shownAggregate group_by f M = shownAggregate group_by f' M ↔
      ∀ v ∈ M, f (groupOf group_by M (VRow.proj group_by v)) =
        f' (groupOf group_by M (VRow.proj group_by v)) := by
  unfold shownAggregate
  refine ⟨fun h v hv => ?_, fun h => Multiset.map_congr rfl fun g hg => ?_⟩
  · have hg : VRow.proj group_by v ∈ (M.map (VRow.proj group_by)).dedup :=
      Multiset.mem_dedup.mpr (Multiset.mem_map_of_mem _ hv)
    have hmem := Multiset.mem_map_of_mem (fun g => g ++ [Value.int (f (groupOf group_by M g))]) hg
    rw [h] at hmem
    obtain ⟨g', -, heq⟩ := Multiset.mem_map.mp hmem
    obtain ⟨rfl, hlast⟩ := append_inj' heq rfl
    exact (Value.int.inj (singleton_inj.mp hlast)).symm
  · obtain ⟨v, hv, rfl⟩ := Multiset.mem_map.mp (Multiset.mem_dedup.mp hg)
    rw [h v hv]

end AggregateOp

/-! ## When it is right -/

open AggregateOp AggregateFunc in
/-- **MIN and MAX.** After any sequence of batches, the emitted records leave one row for each
    non-empty group with its extremum exactly if 0 is the extremum of every non-empty group. -/
theorem extremum_right_iff {func : AggregateFunc} (hf : func.Extremal) (order : HashOrder)
    (group_by key_cols : List Nat) {batches : List Records} {M : Multiset VRow}
    (hreads : ∀ b ∈ batches, ∀ r ∈ b, ∀ c ∈ group_by, c < r.row.length)
    (happ : Applies 0 (batches.map Records.changes).flatten M)
    (hsmall : (((batches.map List.length).sum : Nat) : Int) < 2 ^ 63) :
    ∃ out op' R, Machine.feed machine (.new order group_by func key_cols) batches =
        some (out, op') ∧
      Applies 0 (out.map Records.changes).flatten R ∧
      (R = groupAggregate group_by func M ↔
        ∀ v ∈ M, func.IsExtremum (groupOf group_by M (VRow.proj group_by v)) 0) := by
  obtain ⟨out, op', hfeed, hlaw⟩ := feed_extremal (.new order group_by func key_cols) hf
    hreads (tracks_new order group_by func key_cols) happ
    (by rwa [Multiset.card_zero, Nat.zero_add])
  refine ⟨out, op', _, hfeed, hlaw, ?_⟩
  refine shownAggregate_eq_iff.trans (forall₂_congr fun v hv => ?_)
  have hrows : groupOf group_by M (VRow.proj group_by v) ≠ 0 :=
    fun h => card_groupOf_ne_zero hv (Multiset.card_eq_zero.mpr h)
  rw [eq_comm]
  exact over_eq_iff hf hrows 0

/-- The least value of the only group is 0. -/
theorem extremum_right_of_zero : ∃ out op' R,
    Machine.feed AggregateOp.machine (.new .inserted [0] (.min 1) [])
        [[.positive [.int 1, .int 5]], [.positive [.int 1, .int 0]]] = some (out, op') ∧
      Applies 0 (out.map Records.changes).flatten R ∧
      R = groupAggregate [0] (.min 1) {[.int 1, .int 0], [.int 1, .int 5]} := by
  have hbatches : Applies 0 (List.map Records.changes
      [[.positive [.int 1, .int 5]], [.positive [.int 1, .int 0]]]).flatten
      {[.int 1, .int 0], [.int 1, .int 5]} := .ins (.ins (.nil _))
  obtain ⟨out, op', R, hfeed, happ, hiff⟩ := extremum_right_iff (.inl ⟨1, rfl⟩) .inserted [0] []
    (by decide) hbatches (by decide)
  refine ⟨out, op', R, hfeed, happ, hiff.mpr fun v hv => ?_⟩
  have hproj : VRow.proj [0] v = [.int 1] := by
    rcases Multiset.mem_cons.mp hv with rfl | hv
    · rfl
    · rw [Multiset.mem_singleton.mp hv]
      rfl
  rw [hproj]
  simp [AggregateFunc.IsExtremum, IsLeast, lowerBounds, AggregateFunc.columnOf, groupOf,
    VRow.proj, Value.intOf]

/-- **The extremum is not kept.** The minimum of a single row with a 5 is shown as 0. -/
theorem minimum_shown_as_zero :
    (∃ op', Machine.feed AggregateOp.machine (.new .inserted [0] (.min 1) [])
        [[.positive [.int 1, .int 5]]] = some ([[.positive [.int 1, .bigInt 0]]], op')) ∧
      groupAggregate [0] (.min 1) {[.int 1, .int 5]} = {[.int 1, .int 5]} := by
  refine ⟨⟨_, rfl⟩, ?_⟩
  simp [groupAggregate, AggregateFunc.over, VRow.proj, Value.intOf, Multiset.filter_singleton]

end Noria.Sqlite

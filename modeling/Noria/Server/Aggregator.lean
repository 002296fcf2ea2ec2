import Noria.Server.Grouped

/-! # COUNT and SUM

  `Aggregator` is the inner operation of a grouped operator for COUNT and
  SUM (`dataflow/src/ops/grouped/aggregate.rs`).

  Groups never go away: a group that has lost all its records keeps a row with the value zero. What
  the output is at any moment is a function of the whole history of input records (`outputs`), and
  `grouped_totals` says that the state follows it.
-/

namespace Noria.Server

open Bag List
open Noria.Sqlite (Record Records)

/-! ## The operation -/

inductive Aggregation where
  | COUNT
  | SUM
  deriving DecidableEq

structure Aggregator where
  op : Aggregation
  over_col : Nat
  group : List Nat

/-- `Aggregation::over`, which does not let the aggregation column be grouped by. -/
def Aggregation.over (op : Aggregation) (us over_col : Nat) (group_by : List Nat) :
    Option (GroupedOperator Aggregator) :=
  if group_by.contains over_col then none else some (.new us ⟨op, over_col, group_by⟩)

variable {current : Option DataType} {h rs : Records} {k : VRow} {a : Aggregator} {db : MemoryState}

namespace Aggregator

def setup (a : Aggregator) (fields : Nat) : Option Aggregator :=
  if a.over_col < fields then some a else none

theorem setup_eq_some {a' : Aggregator} {fields : Nat} :
    a.setup fields = some a' ↔ a.over_col < fields ∧ a' = a := by
  simp [setup, eq_comm]

/-- What a value adds to a sum. -/
def summand : DataType → Option Int
  | .none => some 0
  | v => v.to_i128

def to_diff (a : Aggregator) (r : Row) (pos : Bool) : Option Int :=
  match a.op with
  | .COUNT => some (if pos then 1 else -1)
  | .SUM => do
    let v ← r[a.over_col]?
    let v ← summand v
    some (if pos then v else 0 - v)

/-- The value a group has had so far. -/
def startOf : Option DataType → Option Int
  | none => some 0
  | some v => v.to_i128

def apply (_ : Aggregator) (current : Option DataType) (diffs : List Int) : Option DataType := do
  let n ← startOf current
  DataType.from_i128 (diffs.foldl (· + ·) n)

instance : GroupedOperation Aggregator where
  Diff := Int
  setup := setup
  group_by := group
  to_diff := to_diff
  apply := apply

end Aggregator

/-! ## What the output should be -/

namespace Aggregator

/-- What a row adds to the value of its group. -/
def addend (a : Aggregator) (v : VRow) : Int :=
  match a.op with
  | .COUNT => 1
  | .SUM => (v.getD a.over_col .null).intOf

/-- Can a record be aggregated? A sum is over integers and NULLs. -/
def Summable (a : Aggregator) (r : Row) : Prop :=
  a.op = .SUM → ∃ d, r[a.over_col]? = some d ∧ (d = .none ∨ d.kind = .int)

/-- Records of a group that are deleted count negatively. -/
theorem to_diff_eq {r : Record} (h : a.Summable r.row) :
    a.to_diff r.row r.is_positive = some (r.change.weight a.addend) := by
  unfold to_diff addend Summable at *
  cases hop : a.op with
  | COUNT => cases r <;> rfl
  | SUM =>
    obtain ⟨d, hd, hint⟩ := h hop
    have hval : (Row.val r.row).getD a.over_col .null = d.val := Row.val_getD r.row a.over_col hd
    have hread : summand d = some d.val.intOf := by
      rcases hint with rfl | hint
      · rfl
      · cases d <;> first | rfl | cases hint
    simp only [hd, hread, Option.bind_eq_bind, Option.bind_some]
    cases r with
    | positive row =>
      rw [Record.change_positive, Change.weight_ins, ← Record.row_positive row, hval]
      rfl
    | negative row =>
      rw [Record.change_negative, Change.weight_del, ← Record.row_negative row, hval]
      simp [Record.is_positive]

end Aggregator

namespace GroupedOperator

variable (g : GroupedOperator Aggregator)

def groupOf (r : Record) : VRow := VRow.proj g.group_by (Row.val r.row)

def groups (h : Records) : Finset VRow := (h.map g.groupOf).toFinset

/-- The number of positive minus negative records of a group, respectively
    the signed sum of the column. -/
def total (h : Records) (k : VRow) : Int :=
  ((h.filter fun r => g.groupOf r = k).map fun r => r.change.weight g.inner.addend).sum

/-- The output row of a group, if it ever occurred. -/
def groupRow (h : Records) (k : VRow) : Multiset VRow :=
  if k ∈ g.groups h then {k ++ [.int (g.total h k)]} else 0

/-- The output for a history: a row for each group that occurs in it. -/
def outputs (h : Records) : Multiset VRow := ∑ k ∈ g.groups h, g.groupRow h k

variable {g}

theorem mem_groups : k ∈ g.groups h ↔ ∃ r ∈ h, g.groupOf r = k := by
  rw [groups, mem_toFinset, mem_map]

theorem total_append (h rs : Records) (k : VRow) :
    g.total (h ++ rs) k = g.total h k + g.total rs k := by
  unfold total
  rw [filter_append, map_append, sum_append]

theorem total_of_not_mem (hk : k ∉ g.groups rs) : g.total rs k = 0 := by
  unfold total
  rw [filter_eq_nil_iff.mpr]
  · rfl
  · intro r hr heq
    exact hk (mem_groups.mpr ⟨r, hr, of_decide_eq_true heq⟩)

theorem outputs_eq_shown (h : Records) :
    g.outputs h = shown (g.groups h) fun k => .int (g.total h k) := rfl

theorem length_of_mem_groups (hk : k ∈ g.groups h) :
    k.length = g.group_by.length := length_of_mem_groupsIn hk

theorem groups_append (h rs : Records) :
    g.groups (h ++ rs) = g.groups h ∪ groupsIn g.group_by rs := groupsIn_append _ h rs

/-! ## One group, one batch, a run -/

theorem apply_eq {n : Int} (hn : Aggregator.startOf current = some n) {diffs : List Int}
    (hrange : -2 ^ 63 ≤ n + diffs.sum ∧ n + diffs.sum < 2 ^ 63) :
    ∃ d, GroupedOperation.apply a current diffs = some d ∧ d.val = .int (n + diffs.sum) := by
  have hfold : ∀ (l : List Int) (m : Int), l.foldl (· + ·) m = m + l.sum := by
    intro l
    induction l with
    | nil => simp
    | cons x l ih =>
      intro m
      rw [foldl_cons, ih, sum_cons, add_assoc]
  obtain ⟨d, hd, hval⟩ := DataType.val_from_i128 hrange
  refine ⟨d, ?_, hval⟩
  show Aggregator.apply a current diffs = some d
  simp [Aggregator.apply, hn, hfold, hd]

/-- **The records of one group** change its value by what they add up to. -/
theorem newValue_eq (hsum : ∀ r ∈ rs, g.inner.Summable r.row)
    (hrange : -2 ^ 63 ≤ g.total (h ++ rs) k ∧ g.total (h ++ rs) k < 2 ^ 63)
    (hcurrent : current.map DataType.val =
      if k ∈ g.groups h then some (.int (g.total h k)) else none) :
    ∃ d, g.newValue rs k current = some d ∧ d.val = .int (g.total (h ++ rs) k) := by
  have hdiffs : (recordsOf g.group_by rs k).mapM (fun r =>
      GroupedOperation.to_diff g.inner r.row r.is_positive) =
        some ((recordsOf g.group_by rs k).map fun r => r.change.weight g.inner.addend) :=
    mapM_option_map fun r hr => Aggregator.to_diff_eq (hsum r (mem_filter.mp hr).1)
  have hstart : Aggregator.startOf current = some (g.total h k) := by
    by_cases hk : k ∈ g.groups h
    · rw [if_pos hk] at hcurrent
      obtain ⟨c, rfl, hc⟩ := Option.map_eq_some_iff.mp hcurrent
      exact DataType.to_i128_of_val hc
    · -- a new group starts from zero
      rw [if_neg hk] at hcurrent
      cases Option.map_eq_none_iff.mp hcurrent
      rw [total_of_not_mem hk]
      rfl
  rw [total_append] at hrange ⊢
  rw [newValue, hdiffs, Option.bind_some]
  exact apply_eq hstart hrange

/-- What a batch has to be like: the values to sum are integers or NULLs. -/
structure Input (g : GroupedOperator Aggregator) (rs : Records) : Prop
    extends Groupable g.group_by rs where
  summable : ∀ r ∈ rs, g.inner.Summable r.row

/-- All totals are `i64`s. -/
def InRange (g : GroupedOperator Aggregator) (h : Records) : Prop :=
  ∀ k, -2 ^ 63 ≤ g.total h k ∧ g.total h k < 2 ^ 63

/-- **A batch** changes the output as the history does. -/
theorem on_input_delta (hdb : db.Complete (g.outputs h)) (hg : g.Indexed db) (hin : g.Input rs)
    (hrange : g.InRange (h ++ rs)) (replay_key_cols : Option (List Nat)) :
    ∃ res, g.on_input rs replay_key_cols db = some res ∧
      Applies (g.outputs h) (Records.changes res.results) (g.outputs (h ++ rs)) ∧
      ∀ r ∈ res.results, r.row.length = g.group_by.length + 1 := by
  obtain ⟨current, hcurrent, hreturns, -⟩ := on_input_shown hg hdb
    (fun k hk => length_of_mem_groups hk) hin.toGroupable replay_key_cols
  have hvalue : ∀ k ∈ groupsIn g.group_by rs, ∃ d, g.newValue rs k (current k) = some d ∧
      d.val = .int (g.total (h ++ rs) k) :=
    fun k hk => newValue_eq hin.summable (hrange k) (hcurrent k hk)
  have : Nonempty DataType := ⟨.none⟩
  choose! new hnew hval using hvalue
  obtain ⟨res, hres, happ, hlength⟩ := hreturns new hnew
  refine ⟨res, hres, ?_, hlength⟩
  rw [← groups_append] at happ
  have hshown : shown (g.groups (h ++ rs))
      (nextShown g.group_by rs (fun k => .int (g.total h k)) new)
      = shown (g.groups (h ++ rs)) fun k => .int (g.total (h ++ rs) k) := by
    refine shown_congr fun k _ => ?_
    unfold nextShown
    split
    · rename_i hk
      exact hval k hk
    · rename_i hk
      rw [total_append, total_of_not_mem hk, add_zero]
  rwa [hshown] at happ

theorem advance_complete (hdb : db.Complete (g.outputs h)) (hg : g.Indexed db)
    (hcols : ∀ key ∈ db.keys, ∀ c ∈ key, c ≤ g.group_by.length) (hin : g.Input rs)
    (hrange : g.InRange (h ++ rs)) (replay_key_cols : Option (List Nat)) :
    ∃ db', g.advance replay_key_cols db rs = some db' ∧ db'.Complete (g.outputs (h ++ rs)) ∧
      db'.keys = db.keys := by
  obtain ⟨res, hres, happ, hlength⟩ := on_input_delta hdb hg hin hrange replay_key_cols
  have hfits : db.Fits res.results := by
    intro r hr s hs c hc
    have := hcols s.key (mem_map_of_mem hs) c hc
    rw [hlength r hr]
    omega
  obtain ⟨db', hdb', hcomplete, hkeys⟩ := hdb.process_records hfits happ
  refine ⟨db', ?_, hcomplete, hkeys⟩
  simp [advance, hres, hdb']

theorem foldlM_advance (hdb : db.Complete (g.outputs h)) (hg : g.Indexed db)
    (hcols : ∀ key ∈ db.keys, ∀ c ∈ key, c ≤ g.group_by.length) {batches : List Records}
    (hin : ∀ rs ∈ batches, g.Input rs) (hrange : ∀ n, g.InRange (h ++ (batches.take n).flatten))
    (replay_key_cols : Option (List Nat)) :
    ∃ db', batches.foldlM (g.advance replay_key_cols) db = some db' ∧
      db'.Complete (g.outputs (h ++ batches.flatten)) ∧ db'.keys = db.keys := by
  induction batches generalizing db h with
  | nil => exact ⟨db, rfl, by simpa using hdb, rfl⟩
  | cons rs batches ih =>
    have hfirst : g.InRange (h ++ rs) := by simpa using hrange 1
    obtain ⟨db₁, hdb₁, hcomplete₁, hkeys₁⟩ := advance_complete hdb hg hcols
      (hin rs mem_cons_self) hfirst replay_key_cols
    have hrest : ∀ n, g.InRange ((h ++ rs) ++ (batches.take n).flatten) := by
      intro n
      simpa using hrange (n + 1)
    rw [← hkeys₁] at hcols
    obtain ⟨db', hdb', hcomplete', hkeys'⟩ := ih hcomplete₁
      ⟨hg.out, hkeys₁ ▸ hg.own, hg.length⟩ hcols (forall_mem_cons.mp hin).2 hrest
    refine ⟨db', ?_, ?_, hkeys'.trans hkeys₁⟩
    · rw [foldlM_cons, hdb₁]
      exact hdb'
    · simpa using hcomplete'

end GroupedOperator

/-! ## The law of grouped aggregation -/

/-- **Grouped COUNT and SUM.** For any group-by columns of the parent and any sequence of batches,
    each processed against the operator's own state and then applied to it: afterwards that state
    has exactly one row for each group that ever occurred, with the signed count or sum over the
    whole history of the group in its last column. (The state of an operator that groups by no
    column or by more than six cannot be created.) -/
theorem grouped_totals {op : Aggregation} {us over_col fields : Nat} {group_by : List Nat}
    {g₀ g : GroupedOperator Aggregator} (hover : op.over us over_col group_by = some g₀)
    (hconnected : g₀.on_connected fields = some g)
    (hgroup : ∀ c ∈ group_by, c < fields) {keys : List (List Nat)} {db₀ : MemoryState}
    (hdb₀ : MemoryState.withKeys keys = some db₀) (hown : g.out_key ∈ keys)
    (hkeys : ∀ key ∈ keys, ∀ c ∈ key, c ≤ group_by.length) {batches : List Records}
    (hwidth : ∀ rs ∈ batches, ∀ r ∈ rs, r.row.length = fields)
    (hint : op = .SUM → ∀ rs ∈ batches, ∀ r ∈ rs, ∀ d, r.row[over_col]? = some d →
      d = .none ∨ d.kind = .int)
    (hkinds : ∀ rs ∈ batches, ∀ r ∈ rs, ∀ r' ∈ rs, ∀ c ∈ group_by,
      r.row[c]?.map DataType.kind = r'.row[c]?.map DataType.kind)
    (hrange : ∀ n, g.InRange (batches.take n).flatten) (replay_key_cols : Option (List Nat)) :
    ∃ db, batches.foldlM (g.advance replay_key_cols) db₀ = some db ∧
      db.Complete (g.outputs batches.flatten) ∧
      ∀ key : Row, key.length = group_by.length →
        ∃ rs, db.lookup g.out_key key = some (.some rs) ∧ (rs.map Row.val : Multiset VRow) =
          if Row.val key ∈ g.groups batches.flatten
          then {Row.val key ++ [.int (g.total batches.flatten (Row.val key))]} else 0 := by
  unfold Aggregation.over at hover
  split at hover
  · cases hover
  cases hover
  obtain ⟨hsetup, hsorted, hout⟩ := GroupedOperator.on_connected_new hconnected
  obtain ⟨hlt, hinner⟩ := Aggregator.setup_eq_some.mp hsetup
  rw [hinner] at hsorted
  change g.group_by = group_by.insertionSort _ at hsorted
  obtain ⟨hlength, hcomplete, hg, hcols, hgroupable⟩ := GroupedOperator.connected_ready hsorted hout
    hgroup hdb₀ hown hkeys hwidth hkinds
  have hin : ∀ rs ∈ batches, g.Input rs := by
    refine fun rs hrs => ⟨hgroupable rs hrs, fun r hr hop => ?_⟩
    rw [hinner] at hop ⊢
    have hover : over_col < r.row.length := by rw [hwidth rs hrs r hr]; exact hlt
    have hd := getElem?_eq_getElem hover
    exact ⟨r.row[over_col], hd, hint hop rs hrs r hr _ hd⟩
  obtain ⟨db, hdb, hdbc, hdbk⟩ := GroupedOperator.foldlM_advance (h := []) (g := g) hcomplete hg
    hcols hin (by simpa using hrange) replay_key_cols
  refine ⟨db, hdb, hdbc, fun key hkey => ?_⟩
  have hkout : key.length = g.out_key.length := by rw [hout, length_range, hlength, hkey]
  obtain ⟨rs, hrs, hbag⟩ := hdbc.lookup (by rw [hdbk]; exact hg.own) hkout
  refine ⟨rs, hrs, ?_⟩
  rw [hbag, hout, GroupedOperator.outputs_eq_shown,
    GroupedOperator.rowsOf_shown fun k hk => GroupedOperator.length_of_mem_groups hk]
  rfl

/-- A sum over the second column, grouped by the first. -/
def sumBy : GroupedOperator Aggregator := ⟨0, ⟨.SUM, 1, [0]⟩, 2, [0], [0], [0]⟩

/-- Its state before the first batch. -/
def sumByState : MemoryState := ⟨[⟨[0], ∅, false, 0⟩], ∅⟩

/-- One group, with two records added and one of them removed again. -/
def sumByBatches : List Records :=
  [[.positive [.int 1, .int 5], .positive [.int 1, .int 6]], [.negative [.int 1, .int 5]]]

theorem sumBy_totals : ∃ db, sumByBatches.foldlM (sumBy.advance none) sumByState = some db ∧
    ∃ rs, db.lookup [0] [.int 1] = some (.some rs) ∧
      (rs.map Row.val : Multiset VRow) = {[.int 1, .int 6]} := by
  have hover : Aggregation.SUM.over 0 1 [0] = some (.new 0 ⟨.SUM, 1, [0]⟩) := rfl
  have hconnected : (GroupedOperator.new 0 (⟨.SUM, 1, [0]⟩ : Aggregator)).on_connected 2 =
      some sumBy := rfl
  have hstate : MemoryState.withKeys [[0]] = some sumByState := rfl
  have hrange : ∀ n, sumBy.InRange (sumByBatches.take n).flatten := by
    intro n k
    by_cases hk : [Value.int 1] = k
    · subst hk
      rcases n with _ | _ | n
      · decide
      · decide
      · have hlen : sumByBatches.length ≤ n + 2 := Nat.le_add_left 2 n
        rw [take_of_length_le hlen]
        decide
    · have hall : ∀ r ∈ (sumByBatches.take n).flatten, sumBy.groupOf r = [.int 1] := by
        intro r hr
        obtain ⟨rs, hrs, hr⟩ := mem_flatten.mp hr
        have hmem : ∀ rs ∈ sumByBatches, ∀ r ∈ rs, sumBy.groupOf r = [.int 1] := by decide
        exact hmem rs (mem_of_mem_take hrs) r hr
      have hnone : sumBy.total (sumByBatches.take n).flatten k = 0 := by
        unfold GroupedOperator.total
        rw [filter_eq_nil_iff.mpr]
        · rfl
        · intro r hr
          rw [hall r hr]
          simpa using hk
      rw [hnone]
      decide
  obtain ⟨db, hdb, -, hlookup⟩ := grouped_totals hover hconnected (by decide) hstate (by decide)
    (by decide) (by decide) (by decide) (by decide) hrange none
  obtain ⟨rs, hrs, hbag⟩ := hlookup [.int 1] rfl
  exact ⟨db, hdb, rs, hrs, hbag.trans (by decide)⟩

end Noria.Server

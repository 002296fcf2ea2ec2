import Mathlib.Algebra.BigOperators.Group.Finset.Piecewise
import Noria.Server.Processing
import Noria.Server.State

/-! # Grouped operators

  `GroupedOperator` keeps one row for each group of its input (`dataflow/src/ops/grouped`), which it
  looks up in its own materialized output: the values of the group-by columns, and the result of the
  inner operation in the last column.

  `on_input_shown` says what a batch does whatever the inner operation
  is: the operator returns exactly if the operation does for each group of
  the batch, and then shows the values that the operation has computed.
-/

namespace Noria.Server

open Bag List
open Noria.Sqlite (Record Records)

/-! ## The operator -/

/-- Operations that collapse a group of records into a single record. The
    panics of the operation are `none`. -/
class GroupedOperation (T : Type) where
  Diff : Type
  /-- The operation is connected to a parent with so many fields. -/
  setup : T → Nat → Option T
  group_by : T → List Nat
  to_diff : T → Row → Bool → Option Diff
  /-- Compute the updated group value. -/
  apply : T → Option DataType → List Diff → Option DataType

structure GroupedOperator (T : Type) where
  us : Nat
  inner : T
  cols : Nat
  group_by : List Nat
  out_key : List Nat
  colfix : List Nat

namespace GroupedOperator

variable {T : Type} [GroupedOperation T]

def new (us : Nat) (op : T) : GroupedOperator T := ⟨us, op, 0, [], [], []⟩

def on_connected (g : GroupedOperator T) (fields : Nat) : Option (GroupedOperator T) := do
  let inner ← GroupedOperation.setup g.inner fields
  let group_by := (g.group_by ++ GroupedOperation.group_by inner).insertionSort (· ≤ ·)
  some { g with
    inner
    cols := fields
    group_by
    out_key := List.range group_by.length
    colfix := g.colfix ++ (List.range fields).filter (group_by.contains ·) }

theorem on_connected_new {us fields : Nat} {op : T} {g : GroupedOperator T}
    (h : (new us op).on_connected fields = some g) :
    GroupedOperation.setup op fields = some g.inner ∧
      g.group_by = (GroupedOperation.group_by g.inner).insertionSort (· ≤ ·) ∧
      g.out_key = List.range g.group_by.length := by
  obtain ⟨inner, hinner, hg⟩ := Option.bind_eq_some_iff.mp h
  cases hg
  exact ⟨hinner, rfl, rfl⟩

/-- The value in the last column, `rs[rs.len() - 1]`, of the group's row if it has one. -/
def currentOf : Option Row → Option (Option DataType)
  | none => some none
  | some row => row.getLast?.map some

def handle_group (g : GroupedOperator T) (db : MemoryState) (replay_key_cols : Option (List Nat))
    (group_rs : List Keyed) : Option ProcessingResult := do
  let diffs ← group_rs.mapM fun e =>
    GroupedOperation.to_diff g.inner e.2.row e.2.is_positive
  let (group, _) ← group_rs.head?
  -- `KeyType::from`
  if keyLength group.length then
    match ← db.lookup g.out_key group with
    | .missing =>
      some { ProcessingResult.empty with
        misses := group_rs.map fun e => ⟨g.us, g.out_key, g.group_by, replay_key_cols, e.2.row⟩ }
    | .some rs =>
      let old := rs.head?
      let current ← currentOf old
      let new ← GroupedOperation.apply g.inner current diffs
      let lookups := if replay_key_cols.isSome then [⟨g.us, g.out_key, group⟩] else []
      if current.any (new == ·) then some { ProcessingResult.empty with lookups }
      else
        some { ProcessingResult.empty with
          results := (old.map .negative).toList ++ [.positive (group ++ [new])]
          lookups }
  else none

def on_input (g : GroupedOperator T) (rs : Records) (replay_key_cols : Option (List Nat))
    (db : MemoryState) : Option ProcessingResult := do
  if rs.isEmpty then some { ProcessingResult.empty with results := rs }
  else
    let keyed ← keyedBy (fun r => r.row.cols g.group_by) rs
    let parts ← (groupsOf keyed).mapM (g.handle_group db replay_key_cols)
    some (.concat parts)

/-- A batch is processed against the operator's own state, and the output goes into that state. -/
def advance (g : GroupedOperator T) (replay_key_cols : Option (List Nat)) (db : MemoryState)
    (rs : Records) : Option MemoryState := do
  let res ← g.on_input rs replay_key_cols db
  let (_, db) ← db.process_records res.results none
  some db

/-! ## One row for each group

  What the operator does with a batch, whatever the inner operation is. -/

/-- The row of a group of `S`: the group's values, and the value that is shown for it. -/
def shownRow (S : Finset VRow) (f : VRow → Value) (k : VRow) : Multiset VRow :=
  if k ∈ S then {k ++ [f k]} else 0

/-- One row for each group of `S`. -/
def shown (S : Finset VRow) (f : VRow → Value) : Multiset VRow := ∑ k ∈ S, shownRow S f k

theorem filter_sum (p : VRow → Prop) [DecidablePred p] (S : Finset VRow)
    (F : VRow → Multiset VRow) : (∑ i ∈ S, F i).filter p = ∑ i ∈ S, (F i).filter p := by
  induction S using Finset.induction_on with
  | empty => rfl
  | insert i S hi ih => rw [Finset.sum_insert hi, Finset.sum_insert hi, Multiset.filter_add, ih]

theorem shown_eq_sum {S S' : Finset VRow} (f : VRow → Value) (h : S ⊆ S') :
    shown S f = ∑ k ∈ S', shownRow S f k := Finset.sum_subset h fun _ _ hk => if_neg hk

theorem shown_congr {S : Finset VRow} {f f' : VRow → Value} (h : ∀ k ∈ S, f k = f' k) :
    shown S f = shown S f' := by
  refine Finset.sum_congr rfl fun k hk => ?_
  rw [shownRow, shownRow, h k hk]

theorem proj_range_append {k : VRow} {n : Nat} (hk : k.length = n) (v : Value) :
    VRow.proj (List.range n) (k ++ [v]) = k := by
  subst hk
  refine ext_getElem (by simp) fun i hi hi' => ?_
  simp [VRow.proj, getElem?_append_left hi', getElem?_eq_getElem hi']

/-- The row of a group is found under the group's values. -/
theorem rowsOf_shown {S : Finset VRow} {n : Nat} (hS : ∀ k ∈ S, k.length = n) (f : VRow → Value)
    (k : VRow) : rowsOf (List.range n) k (shown S f) = shownRow S f k := by
  have hrow : ∀ i ∈ S, rowsOf (List.range n) k (shownRow S f i)
      = if i = k then shownRow S f k else 0 := by
    intro i hi
    have hproj := proj_range_append (hS i hi) (f i)
    unfold rowsOf
    by_cases hik : i = k
    · subst hik
      rw [if_pos rfl, Multiset.filter_eq_self, shownRow, if_pos hi]
      intro v hv
      rw [Multiset.mem_singleton.mp hv]
      exact hproj
    · rw [if_neg hik, Multiset.filter_eq_nil, shownRow, if_pos hi]
      intro v hv
      rw [Multiset.mem_singleton.mp hv, hproj]
      exact hik
  have hsum : rowsOf (List.range n) k (shown S f)
      = ∑ i ∈ S, rowsOf (List.range n) k (shownRow S f i) := filter_sum _ S _
  rw [hsum, Finset.sum_congr rfl hrow, Finset.sum_ite_eq']
  split
  · rfl
  · rename_i hk
    exact (if_neg hk).symm

/-- What comes out for a group with the row `old` and the value `current`
    in it, when the operation computes `new`. -/
def groupResult (g : GroupedOperator T) (replay_key_cols : Option (List Nat)) (group : Row)
    (old : Option Row) (current : Option DataType) (new : DataType) : ProcessingResult :=
  let lookups := if replay_key_cols.isSome then [⟨g.us, g.out_key, group⟩] else []
  if current.any (new == ·) then { ProcessingResult.empty with lookups }
  else
    { ProcessingResult.empty with
      results := (old.map .negative).toList ++ [.positive (group ++ [new])]
      lookups }

/-- The row of a group, as the operation meets it. -/
structure GroupRow (S : Finset VRow) (f : VRow → Value) (k : VRow) (old : Option Row)
    (current : Option DataType) : Prop where
  row : old.map Row.val = if k ∈ S then some (k ++ [f k]) else none
  value : current.map DataType.val = if k ∈ S then some (f k) else none

omit [GroupedOperation T] in
/-- The row is revoked unless its value stays the same. -/
theorem groupResult_applies {g : GroupedOperator T} {S : Finset VRow} {f : VRow → Value} {k : VRow}
    {old : Option Row} {current : Option DataType} (h : GroupRow S f k old current) {group : Row}
    (hgroup : Row.val group = k) (replay : Option (List Nat)) (new : DataType) :
    Applies (shownRow S f k)
        (Records.changes (g.groupResult replay group old current new).results)
        {k ++ [new.val]} ∧ ∀ r ∈ (g.groupResult replay group old current new).results,
        r.row.length = k.length + 1 := by
  obtain ⟨hrow, hvalue⟩ := h
  have hnew : Row.val (group ++ [new]) = k ++ [new.val] := by
    rw [Row.val_append, hgroup, Row.val_cons]
    rfl
  have hnewlen : (group ++ [new]).length = k.length + 1 := by
    rw [← Row.length_val, hnew, length_append]
    rfl
  unfold shownRow groupResult
  by_cases hk : k ∈ S
  · rw [if_pos hk] at hrow hvalue ⊢
    obtain ⟨row, rfl, hval⟩ := Option.map_eq_some_iff.mp hrow
    obtain ⟨c, rfl, hc⟩ := Option.map_eq_some_iff.mp hvalue
    have hrowlen : row.length = k.length + 1 := by
      rw [← Row.length_val, hval, length_append]
      rfl
    rw [Option.any_some]
    by_cases hsame : (new == c) = true
    · rw [if_pos hsame]
      rw [DataType.beq_iff_val, hc] at hsame
      rw [hsame]
      exact ⟨.nil _, by simp [ProcessingResult.empty]⟩
    · rw [if_neg hsame]
      refine ⟨?_, by simp [hrowlen, hnewlen]⟩
      show Applies _ [.del (Row.val row), .ins (Row.val (group ++ [new]))] _
      rw [hval, hnew, ← Multiset.cons_zero]
      exact .del (.ins (.nil _))
  · rw [if_neg hk] at hrow hvalue ⊢
    cases Option.map_eq_none_iff.mp hrow
    cases Option.map_eq_none_iff.mp hvalue
    refine ⟨?_, by simpa using hnewlen⟩
    show Applies _ [.ins (Row.val (group ++ [new]))] _
    rw [hnew, ← Multiset.cons_zero]
    exact .ins (.nil _)

/-- An operator with its state: the output rows are indexed by the values of their groups. -/
structure Indexed (g : GroupedOperator T) (db : MemoryState) : Prop where
  out : g.out_key = List.range g.group_by.length
  own : g.out_key ∈ db.keys
  length : keyLength g.group_by.length = true

/-- **The records of one group.** The operation is applied to the value of the group's row. -/
theorem handle_group_eq {g : GroupedOperator T} {db : MemoryState} (hg : g.Indexed db)
    {S : Finset VRow} {f : VRow → Value} (hdb : db.Complete (shown S f))
    (hS : ∀ k ∈ S, k.length = g.group_by.length) {group : List Keyed} {k : VRow} (hne : group ≠ [])
    (hkeys : ∀ e ∈ group, e.2.row.cols g.group_by = some e.1 ∧ Row.val e.1 = k) :
    ∃ key old current, Row.val key = k ∧ GroupRow S f k old current ∧
      ∀ replay, g.handle_group db replay group =
        (group.mapM fun e => GroupedOperation.to_diff g.inner e.2.row e.2.is_positive).bind
          fun diffs => (GroupedOperation.apply g.inner current diffs).map
            (g.groupResult replay key old current) := by
  obtain ⟨⟨key, first⟩, rest, rfl⟩ := exists_cons_of_ne_nil hne
  obtain ⟨hcols, hkey⟩ := hkeys _ mem_cons_self
  have hklen : key.length = g.group_by.length := Row.length_cols hcols
  have hkout : key.length = g.out_key.length := by rw [hg.out, length_range, hklen]
  obtain ⟨rs, hlookup, hrs⟩ := hdb.lookup hg.own hkout
  rw [hg.out, hkey, rowsOf_shown hS] at hrs
  have hrow : ∃ current, currentOf rs.head? = some current ∧ GroupRow S f k rs.head? current := by
    unfold shownRow at hrs
    by_cases hk : k ∈ S
    · rw [if_pos hk] at hrs
      obtain ⟨row, rfl⟩ : ∃ row, rs = [row] := by
        have hcard := congrArg Multiset.card hrs
        rw [Multiset.coe_card, length_map, Multiset.card_singleton] at hcard
        exact length_eq_one_iff.mp hcard
      have hrow : Row.val row = k ++ [f k] := by simpa using hrs
      have hlast : (Row.val row).getLast? = some (f k) := by rw [hrow, getLast?_concat]
      rw [Row.val, getLast?_map, Option.map_eq_some_iff] at hlast
      obtain ⟨c, hc, hcval⟩ := hlast
      refine ⟨some c, by rw [head?_cons, currentOf, hc]; rfl, ?_, ?_⟩
      · rw [if_pos hk, head?_cons, Option.map_some, hrow]
      · rw [if_pos hk, Option.map_some, hcval]
    · rw [if_neg hk] at hrs
      obtain rfl : rs = [] := by simpa using hrs
      exact ⟨none, rfl, by rw [if_neg hk]; rfl, by rw [if_neg hk]; rfl⟩
  obtain ⟨current, hcurrent, hgroup⟩ := hrow
  refine ⟨key, rs.head?, current, hkey, hgroup, fun replay => ?_⟩
  unfold handle_group
  congr 1
  funext diffs
  simp only [head?_cons, Option.bind_eq_bind, Option.bind_some, hklen, hg.length, if_true,
    hlookup, hcurrent]
  cases GroupedOperation.apply g.inner current diffs with
  | none => rfl
  | some new =>
    rw [Option.bind_some, Option.map_some, groupResult]
    split <;> rfl

/-! ### A batch -/

def groupsIn (group_by : List Nat) (rs : Records) : Finset VRow :=
  (rs.map fun r => VRow.proj group_by (Row.val r.row)).toFinset

def recordsOf (group_by : List Nat) (rs : Records) (k : VRow) : Records :=
  rs.filter fun r => VRow.proj group_by (Row.val r.row) = k

theorem mem_groupsIn {group_by : List Nat} {rs : Records} {k : VRow} :
    k ∈ groupsIn group_by rs ↔ ∃ r ∈ rs, VRow.proj group_by (Row.val r.row) = k := by
  rw [groupsIn, mem_toFinset, mem_map]

theorem length_of_mem_groupsIn {group_by : List Nat} {rs : Records} {k : VRow}
    (hk : k ∈ groupsIn group_by rs) : k.length = group_by.length := by
  obtain ⟨r, -, rfl⟩ := mem_groupsIn.mp hk
  exact VRow.length_proj _ _

theorem groupsIn_append (group_by : List Nat) (h rs : Records) :
    groupsIn group_by (h ++ rs) = groupsIn group_by h ∪ groupsIn group_by rs := by
  rw [groupsIn, map_append, toFinset_append]
  rfl

theorem rows_unchanged {group_by : List Nat} {rs : Records} {M M' : Multiset VRow}
    (happ : Applies M (Records.changes rs) M') {k : VRow} (hk : k ∉ groupsIn group_by rs) :
    M.filter (fun v => VRow.proj group_by v = k) = M'.filter fun v => VRow.proj group_by v = k := by
  have hsame := happ.filter fun v => VRow.proj group_by v = k
  rw [filter_eq_nil_iff.mpr, Applies.nil_iff] at hsame
  · exact hsame
  · intro c hc heq
    obtain ⟨r, hr, rfl⟩ := mem_map.mp hc
    rw [Record.elem_change] at heq
    exact hk (mem_groupsIn.mpr ⟨r, hr, of_decide_eq_true heq⟩)

/-- What a batch has to be like to be grouped: rows with the group-by
    columns, and one kind of value in each of them. -/
structure Groupable (group_by : List Nat) (rs : Records) : Prop where
  columns : ∀ r ∈ rs, ∀ c ∈ group_by, c < r.row.length
  kinds : ∀ r ∈ rs, ∀ r' ∈ rs, ∀ c ∈ group_by,
    r.row[c]?.map DataType.kind = r'.row[c]?.map DataType.kind

omit [GroupedOperation T] in
/-- A new operator with its state, and what it is given: `fields` columns, with one kind of value in
    each group-by column. -/
theorem connected_ready {g : GroupedOperator T} {group_by : List Nat} {fields : Nat}
    (hsorted : g.group_by = group_by.insertionSort (· ≤ ·))
    (hout : g.out_key = List.range g.group_by.length) (hgroup : ∀ c ∈ group_by, c < fields)
    {keys : List (List Nat)} {db₀ : MemoryState} (hdb₀ : MemoryState.withKeys keys = some db₀)
    (hown : g.out_key ∈ keys) (hkeys : ∀ key ∈ keys, ∀ c ∈ key, c ≤ group_by.length)
    {batches : List Records} (hwidth : ∀ rs ∈ batches, ∀ r ∈ rs, r.row.length = fields)
    (hkinds : ∀ rs ∈ batches, ∀ r ∈ rs, ∀ r' ∈ rs, ∀ c ∈ group_by,
      r.row[c]?.map DataType.kind = r'.row[c]?.map DataType.kind) :
    g.group_by.length = group_by.length ∧ db₀.Complete 0 ∧ g.Indexed db₀ ∧
      (∀ key ∈ db₀.keys, ∀ c ∈ key, c ≤ g.group_by.length) ∧
      ∀ rs ∈ batches, Groupable g.group_by rs := by
  have hlength : g.group_by.length = group_by.length := by rw [hsorted, length_insertionSort]
  have hmem : ∀ c ∈ g.group_by, c ∈ group_by := fun c hc =>
    (mem_insertionSort _).mp (hsorted ▸ hc)
  obtain ⟨hcomplete, hkeys₀, hlengths⟩ := MemoryState.withKeys_complete hdb₀
  have hown₀ : g.out_key ∈ db₀.keys := (hkeys₀ _).mpr hown
  have hkeylen := hlengths _ hown₀
  rw [hout, length_range] at hkeylen
  refine ⟨hlength, hcomplete, ⟨hout, hown₀, hkeylen⟩, fun key hkey c hc => ?_, fun rs hrs =>
    ⟨fun r hr c hc => ?_, fun r hr r' hr' c hc => hkinds rs hrs r hr r' hr' c (hmem c hc)⟩⟩
  · exact hlength ▸ hkeys key ((hkeys₀ key).mp hkey) c hc
  · rw [hwidth rs hrs r hr]
    exact hgroup c (hmem c hc)

theorem kinds_of_cols {r r' : Row} {cols : List Nat} {key key' : Row}
    (h : r.cols cols = some key) (h' : r'.cols cols = some key')
    (hkinds : ∀ c ∈ cols, r[c]?.map DataType.kind = r'[c]?.map DataType.kind) :
    key.kinds = key'.kinds := by
  induction cols generalizing key key' with
  | nil =>
    cases h
    cases h'
    rfl
  | cons c cols ih =>
    simp only [Row.cols, mapM_cons, Option.pure_def, Option.bind_eq_bind,
      Option.bind_eq_some_iff] at h h'
    obtain ⟨d, hd, t, ht, hs⟩ := h
    obtain ⟨d', hd', t', ht', hs'⟩ := h'
    cases hs
    cases hs'
    have hc := hkinds c mem_cons_self
    rw [hd, hd', Option.map_some, Option.map_some, Option.some_inj] at hc
    show d.kind :: Row.kinds t = d'.kind :: Row.kinds t'
    rw [hc, ih ht ht' (forall_mem_cons.mp hkinds).2]

/-- The groups of a batch are handled one after another, each with its
    records in the order of the batch. -/
theorem on_input_eq {g : GroupedOperator T} {rs : Records} (hin : Groupable g.group_by rs)
    (replay : Option (List Nat)) (db : MemoryState) :
    ∃ (ks : List VRow) (part : VRow → List Keyed), ks.Nodup ∧
      (∀ k, k ∈ ks ↔ k ∈ groupsIn g.group_by rs) ∧
      (∀ k, (part k).map Prod.snd = recordsOf g.group_by rs k ∧
        ∀ e ∈ part k, e.2.row.cols g.group_by = some e.1 ∧ Row.val e.1 = k) ∧
      g.on_input rs replay db =
        (ks.mapM fun k => g.handle_group db replay (part k)).map .concat := by
  obtain ⟨keyed, hkeyed, hsnd, hkey⟩ := keyedBy_eq fun r hr => Row.cols_isSome (hin.columns r hr)
  have hmem : ∀ e ∈ keyed, e.2 ∈ rs := fun e he => hsnd ▸ mem_map_of_mem he
  have hval : ∀ e ∈ keyed, Row.val e.1 = VRow.proj g.group_by (Row.val e.2.row) :=
    fun e he => Row.val_cols (hkey e he)
  obtain ⟨ks, hnodup, hks, hgroups⟩ := groupsOf_eq fun a ha b hb =>
    kinds_of_cols (hkey a ha) (hkey b hb) (hin.kinds a.2 (hmem a ha) b.2 (hmem b hb))
  refine ⟨ks, fun k => keyed.filter fun e => Row.val e.1 = k, hnodup, ?_, ?_, ?_⟩
  · intro k
    rw [hks, mem_groupsIn]
    constructor
    · rintro ⟨e, he, rfl⟩
      exact ⟨e.2, hmem e he, (hval e he).symm⟩
    · rintro ⟨r, hr, rfl⟩
      rw [← hsnd, mem_map] at hr
      obtain ⟨e, he, rfl⟩ := hr
      exact ⟨e, he, hval e he⟩
  · intro k
    constructor
    · rw [recordsOf, ← hsnd, filter_map]
      congr 1
      exact filter_congr fun e he => by simp [hval e he]
    · intro e he
      obtain ⟨he, hek⟩ := mem_filter.mp he
      exact ⟨hkey e he, of_decide_eq_true hek⟩
  · unfold on_input
    by_cases hempty : rs.isEmpty
    · rw [List.isEmpty_iff] at hempty
      subst hempty
      have hnil : ks = [] := by
        refine eq_nil_iff_forall_not_mem.mpr fun k hk => ?_
        obtain ⟨e, he, -⟩ := (hks k).mp hk
        exact absurd (hmem e he) not_mem_nil
      rw [hnil]
      rfl
    · rw [if_neg hempty]
      simp only [hkeyed, hgroups, Option.bind_eq_bind, Option.bind_some, mapM_map,
        Option.map_eq_bind]
      rfl

/-- What the operation computes for a group, from the value that is shown for it. -/
def newValue (g : GroupedOperator T) (rs : Records) (k : VRow) (current : Option DataType) :
    Option DataType :=
  ((recordsOf g.group_by rs k).mapM fun r =>
    GroupedOperation.to_diff g.inner r.row r.is_positive).bind
      (GroupedOperation.apply g.inner current)

/-- The values that are shown after a batch. -/
def nextShown (group_by : List Nat) (rs : Records) (f : VRow → Value) (new : VRow → DataType)
    (k : VRow) : Value :=
  if k ∈ groupsIn group_by rs then (new k).val else f k

/-- **A batch.** The operator returns exactly if the operation does for every group of the batch,
    and the output then has a row with the new value for each of them. -/
theorem on_input_shown {g : GroupedOperator T} {db : MemoryState} (hg : g.Indexed db)
    {S : Finset VRow} {f : VRow → Value} (hdb : db.Complete (shown S f))
    (hS : ∀ k ∈ S, k.length = g.group_by.length) {rs : Records} (hin : Groupable g.group_by rs)
    (replay : Option (List Nat)) : ∃ current : VRow → Option DataType,
      (∀ k ∈ groupsIn g.group_by rs,
        (current k).map DataType.val = if k ∈ S then some (f k) else none) ∧
      (∀ new : VRow → DataType,
        (∀ k ∈ groupsIn g.group_by rs, g.newValue rs k (current k) = some (new k)) →
        ∃ res, g.on_input rs replay db = some res ∧
          Applies (shown S f) (Records.changes res.results)
            (shown (S ∪ groupsIn g.group_by rs) (nextShown g.group_by rs f new)) ∧
          ∀ r ∈ res.results, r.row.length = g.group_by.length + 1) ∧
      ∀ res, g.on_input rs replay db = some res →
        ∀ k ∈ groupsIn g.group_by rs, (g.newValue rs k (current k)).isSome := by
  obtain ⟨ks, part, hnodup, hks, hpart, hinput⟩ := on_input_eq hin replay db
  have hgroup : ∀ k ∈ groupsIn g.group_by rs, ∃ key old current, Row.val key = k ∧
      GroupRow S f k old current ∧ g.handle_group db replay (part k) =
        (g.newValue rs k current).map (g.groupResult replay key old current) := by
    intro k hk
    obtain ⟨hsnd, hkeys⟩ := hpart k
    have hne : part k ≠ [] := by
      intro hnil
      obtain ⟨r, hr, hrk⟩ := mem_groupsIn.mp hk
      have hr : r ∈ recordsOf g.group_by rs k := mem_filter.mpr ⟨hr, decide_eq_true hrk⟩
      rw [← hsnd, hnil] at hr
      cases hr
    obtain ⟨key, old, current, hkey, hrow, hhandle⟩ := handle_group_eq hg hdb hS hne hkeys
    refine ⟨key, old, current, hkey, hrow, ?_⟩
    rw [hhandle, newValue, ← hsnd, mapM_map, Option.map_bind]
    rfl
  choose! key old current hkey hrow hhandle using hgroup
  refine ⟨current, fun k hk => (hrow k hk).value, ?_, ?_⟩
  · intro new hnew
    have happ := fun k hk =>
      groupResult_applies (g := g) (hrow k hk) (hkey k hk) replay (new k)
    have hrun : ks.mapM (fun k => g.handle_group db replay (part k)) = some (ks.map fun k =>
        g.groupResult replay (key k) (old k) (current k) (new k)) := by
      refine mapM_option_map fun k hk => ?_
      have hk := (hks k).mp hk
      rw [hhandle k hk, hnew k hk, Option.map_some]
    refine ⟨.concat (ks.map fun k =>
        g.groupResult replay (key k) (old k) (current k) (new k)), ?_, ?_, ?_⟩
    · rw [hinput, hrun, Option.map_some]
    · have hchanges : Records.changes (ProcessingResult.concat (ks.map fun k =>
            g.groupResult replay (key k) (old k) (current k) (new k))).results =
          (ks.map fun k => Records.changes (g.groupResult replay (key k) (old k)
            (current k) (new k)).results).flatten := by
        simp only [ProcessingResult.concat, Records.changes, flatMap_map, map_flatMap]
        rfl
      have hsub : S ⊆ S ∪ groupsIn g.group_by rs := Finset.subset_union_left
      rw [hchanges, shown_eq_sum f hsub, shown]
      refine Applies.sum_groups _ hnodup (fun k hk => ?_) (fun k hk => ?_) fun k _ hk => ?_
      · exact Finset.mem_union_right _ ((hks k).mp hk)
      · have hk := (hks k).mp hk
        rw [shownRow.eq_def (S ∪ _), if_pos (Finset.mem_union_right _ hk), nextShown, if_pos hk]
        exact (happ k hk).1
      · rw [hks] at hk
        simp only [shownRow, Finset.mem_union, hk, or_false, nextShown, if_false]
    · intro r hr
      simp only [ProcessingResult.concat, flatMap_map, mem_flatMap] at hr
      obtain ⟨k, hk, hr⟩ := hr
      have hk := (hks k).mp hk
      rw [(happ k hk).2 r hr, length_of_mem_groupsIn hk]
  · intro res hres k hk
    rw [hinput, Option.map_eq_some_iff] at hres
    obtain ⟨parts, hparts, -⟩ := hres
    cases hnew : g.newValue rs k (current k) with
    | some new => rfl
    | none =>
      have hnone : ks.mapM (fun k => g.handle_group db replay (part k)) = none := by
        refine mapM_option_none ⟨k, (hks k).mpr hk, ?_⟩
        rw [hhandle k hk, hnew]
        rfl
      rw [hnone] at hparts
      cases hparts

end GroupedOperator

end Noria.Server

import Noria.Framework.AssocMap
import Noria.Framework.Loop
import Noria.Sqlite.Record

/-! # Materialized state

  The in-memory store behind a materialized node (`dataflow/state.rs`).

  A store is read in two ways below. `MemoryState.bucket` is the list kept for one key, and
  `process_record_bucket` says what one record does to every bucket, whatever the record is.
  `MemoryState.bag` is the content as a whole; `process_record_bag` says that a record of an exact
  change moves it by that change, so the fallback that treats NULL as a wildcard never decides
  anything there.
-/

namespace Noria.Sqlite

open Bag List Option

variable {cols : List Nat} {row : Row}

/-! ## Keys -/

/-- Key storage, specialized for the single-column case. Both functions
    that build a key use `Single` exactly for one column. -/
inductive StateKey where
  | single (v : DataType)
  | multi (vs : List DataType) (h : vs.length ≠ 1)
  deriving DecidableEq

namespace StateKey

/-- The derived `PartialEq`. -/
def eq : StateKey → StateKey → Bool
  | .single a, .single b => a == b
  | .multi as _, .multi bs _ => as == bs
  | _, _ => false

instance : BEq StateKey := ⟨StateKey.eq⟩

/-- Create a key from a row and key column indices; `none` is the panic on
    a column the row does not have. -/
def from_row (row : Row) (key_columns : List Nat) : Option StateKey :=
  if key_columns.length = 1 then
    row[key_columns.headD 0]?.map .single
  else
    -- as many values as key columns, so not one
    match row.cols key_columns with
    | some vs => if hl : vs.length ≠ 1 then some (.multi vs hl) else none
    | none => none

def from_slice (key : List DataType) : StateKey :=
  if h : key.length = 1 then .single (key.headD .none) else .multi key h

def vals : StateKey → VRow
  | .single v => [v.val]
  | .multi vs _ => Row.val vs

/-- The values as they are put in front of an aggregate's result. -/
def values : StateKey → List DataType
  | .single v => [v]
  | .multi vs _ => vs

theorem val_values (k : StateKey) : Row.val k.values = k.vals := by
  cases k <;> rfl

theorem beq_iff_vals (k l : StateKey) : (k == l) = true ↔ k.vals = l.vals := by
  show StateKey.eq k l = true ↔ _
  cases k with
  | single a =>
    cases l with
    | single b => simp [StateKey.eq, vals, DataType.beq_iff_val]
    | multi bs h =>
      simp only [StateKey.eq, vals, Bool.false_eq_true, false_iff]
      intro he
      exact h (by rw [← Row.length_val, ← he]; rfl)
  | multi as h =>
    cases l with
    | single b =>
      simp only [StateKey.eq, vals, Bool.false_eq_true, false_iff]
      intro he
      exact h (by rw [← Row.length_val, he]; rfl)
    | multi bs h' => exact Row.beq_iff_val as bs

instance : EquivBEq StateKey where
  rfl := by intro k; rw [beq_iff_vals]
  symm := by
    intro k l h
    rw [beq_iff_vals] at h ⊢
    exact h.symm
  trans := by
    intro k l m h h'
    rw [beq_iff_vals] at h h' ⊢
    exact h.trans h'

theorem vals_from_slice (key : List DataType) : (from_slice key).vals = Row.val key := by
  unfold from_slice
  split
  · rename_i h
    obtain ⟨v, rfl⟩ := length_eq_one_iff.mp h
    rfl
  · rfl

/-- The key of a row has the values of the row's key columns. -/
theorem vals_from_row {k : StateKey} (h : from_row row cols = some k) :
    k.vals = VRow.proj cols (Row.val row) := by
  unfold from_row at h
  split at h
  · rename_i hl
    obtain ⟨c, rfl⟩ := length_eq_one_iff.mp hl
    rw [map_eq_some_iff] at h
    obtain ⟨d, hd, rfl⟩ := h
    show [d.val] = [(Row.val row).getD c .null]
    rw [Row.val_getD row c hd]
  · split at h
    · rename_i vs hvs
      split at h
      · cases h
        exact Row.val_cols hvs
      · cases h
    · cases h

theorem from_row_isSome (h : ∀ c ∈ cols, c < row.length) :
    ∃ k, from_row row cols = some k := by
  unfold from_row
  split
  · rename_i hl
    obtain ⟨c, rfl⟩ := length_eq_one_iff.mp hl
    have hc := h c mem_cons_self
    exact ⟨.single row[c], by simp [getElem?_eq_getElem hc]⟩
  · rename_i hl
    obtain ⟨vs, hvs⟩ := Row.cols_isSome h
    have hlen := Row.length_cols hvs
    split
    · rename_i ws hws
      rw [hvs] at hws
      cases hws
      have hne : vs.length ≠ 1 := by rw [hlen]; exact hl
      exact ⟨.multi vs hne, by simp [hne]⟩
    · rename_i hnone
      rw [hvs] at hnone
      cases hnone

end StateKey

/-! ## The store -/

inductive LookupResult where
  | some (rows : List Row)
  | empty
  | missing

structure MemoryState where
  key_columns : List Nat
  data : AssocMap StateKey (List Row)
  row_count : Nat

/-- A read-only snapshot of state data, used for join lookups. -/
structure StateSnapshot where
  key_columns : List Nat
  data : AssocMap StateKey (List Row)

/-- Lookup by key, the same code in the store and in a snapshot of it. -/
def lookupIn (data : AssocMap StateKey (List Row)) (key : List DataType) : LookupResult :=
  match data.get? (StateKey.from_slice key) with
  | some [] => .empty
  | some rows => .some rows
  | none => .missing

/-- A stored row matches a partial row: equal up to columns where the partial row is NULL. -/
def matchesWildcard (stored row : Row) : Bool :=
  stored.length == row.length &&
    (stored.zip row).all fun p => p.1 == p.2 || p.2 == DataType.none

/-- Take one row out of a bucket: an equal row if there is one, else the
    first that matches with NULLs as wildcards, else none at all. -/
def removeRow (rows : List Row) (row : Row) : List Row :=
  match rows.findIdx? (· == row) with
  | some pos => rows.eraseIdx pos
  | none =>
    match rows.findIdx? (matchesWildcard · row) with
    | some pos => rows.eraseIdx pos
    | none => rows

namespace MemoryState

def new (key_columns : List Nat) : MemoryState := ⟨key_columns, ∅, 0⟩

def snapshot (st : MemoryState) : StateSnapshot := ⟨st.key_columns, st.data⟩

def extract_key (st : MemoryState) (row : Row) : Option StateKey :=
  StateKey.from_row row st.key_columns

def process_record (st : MemoryState) (record : Record) : Option MemoryState := do
  let key ← st.extract_key record.row
  if record.is_positive then
    let rows := (st.data.get? key).getD []
    some { st with
      data := st.data.insert key (rows ++ [record.row])
      row_count := st.row_count + 1 }
  else
    match st.data.get? key with
    | none => some st
    | some rows =>
      let left := removeRow rows record.row
      some { st with
        -- an emptied bucket is dropped, so a key is never left behind
        data := if left.isEmpty then st.data.erase key else st.data.insert key left
        row_count := st.row_count - (rows.length - left.length) }

def process_records (st : MemoryState) (records : Records) : Option MemoryState :=
  records.foldlM process_record st

def lookup (st : MemoryState) (key : List DataType) : LookupResult := lookupIn st.data key

def clear (st : MemoryState) : MemoryState := { st with data := ∅, row_count := 0 }

end MemoryState

def StateSnapshot.lookup (st : StateSnapshot) (key : List DataType) : LookupResult :=
  lookupIn st.data key

/-! ## Buckets -/

variable {rows : List Row} {m : Multiset VRow} {st st' : MemoryState} {record : Record}
  {key : StateKey}

theorem removeRow_nil (row : Row) : removeRow [] row = [] := rfl

theorem removeRow_sublist (rows : List Row) (row : Row) : (removeRow rows row).Sublist rows := by
  unfold removeRow
  split
  · exact eraseIdx_sublist _ _
  · split
    · exact eraseIdx_sublist _ _
    · exact List.Sublist.refl _

theorem removeRow_split (rows : List Row) (row : Row) :
    ∃ removed : List VRow, removed.length ≤ 1 ∧
      (rows.map Row.val).Perm (removed ++ (removeRow rows row).map Row.val) ∧
      (Row.val row ∈ rows.map Row.val → removed = [Row.val row]) := by
  have herase : ∀ pos p, rows.findIdx? p = some pos →
      ∃ r, p r = true ∧
        (rows.map Row.val).Perm ([Row.val r] ++ (rows.eraseIdx pos).map Row.val) := by
    intro pos p hpos
    obtain ⟨hlt, hp, -⟩ := findIdx?_eq_some_iff_getElem.mp hpos
    exact ⟨rows[pos], hp, (getElem_cons_eraseIdx_perm hlt).symm.map Row.val⟩
  unfold removeRow
  cases hf : rows.findIdx? (· == row) with
  | some pos =>
    obtain ⟨r, hr, hperm⟩ := herase pos _ hf
    exact ⟨_, le_refl _, hperm, fun _ => congrArg ([·]) ((Row.beq_iff_val r row).mp hr)⟩
  | none =>
    have hnot : Row.val row ∉ rows.map Row.val := by
      intro hmem
      obtain ⟨r, hr, hv⟩ := mem_map.mp hmem
      have hne := findIdx?_eq_none_iff.mp hf r hr
      rw [(Row.beq_iff_val r row).mpr hv] at hne
      cases hne
    cases hw : rows.findIdx? (matchesWildcard · row) with
    | some pos =>
      obtain ⟨r, -, hperm⟩ := herase pos _ hw
      exact ⟨_, le_refl _, hperm, fun hmem => absurd hmem hnot⟩
    | none => exact ⟨[], Nat.zero_le _, .refl _, fun hmem => absurd hmem hnot⟩

namespace MemoryState

def bucket (st : MemoryState) (k : StateKey) : List Row := (st.data.get? k).getD []

/-- What a record does to the bucket of its own key. -/
def bucketStep (rows : List Row) (record : Record) : List Row :=
  if record.is_positive then rows ++ [record.row] else removeRow rows record.row

theorem process_record_isSome (h : st.extract_key record.row = some key) :
    ∃ st', st.process_record record = some st' := by
  unfold process_record
  simp only [h, bind_eq_bind, bind_some]
  split
  · exact ⟨_, rfl⟩
  · split <;> exact ⟨_, rfl⟩

/-- **What a record does to the store**: it steps the bucket of its own
    key and leaves every other bucket alone. -/
theorem process_record_bucket (h : st.process_record record = some st') :
    ∃ key, st.extract_key record.row = some key ∧ st'.key_columns = st.key_columns ∧
      ∀ k, st'.bucket k =
        if key == k then bucketStep (st.bucket k) record else st.bucket k := by
  obtain ⟨key, hkey, h⟩ := bind_eq_some_iff.mp h
  refine ⟨key, hkey, ?_⟩
  split at h
  · rename_i hpos
    cases h
    refine ⟨rfl, fun k => ?_⟩
    simp only [bucket, AssocMap.get?_insert, bucketStep, hpos, if_true]
    by_cases hk : key == k
    · simp [hk, st.data.get?_congr hk]
    · simp [hk]
  · rename_i hneg
    split at h
    · rename_i hnone
      cases h
      refine ⟨rfl, fun k => ?_⟩
      by_cases hk : key == k
      · have hb : st.bucket k = [] := by
          rw [bucket, ← st.data.get?_congr hk, hnone]
          rfl
        simp [hk, hb, bucketStep, hneg, removeRow_nil]
      · simp [hk]
    · rename_i rows hsome
      cases h
      refine ⟨rfl, fun k => ?_⟩
      by_cases hk : key == k
      · have hb : st.bucket k = rows := by
          rw [bucket, ← st.data.get?_congr hk, hsome]
          rfl
        rw [if_pos hk, hb]
        simp only [bucketStep, hneg, bucket]
        split
        · rename_i hemp
          simp [AssocMap.get?_erase, hk, isEmpty_iff.mp hemp]
        · simp [AssocMap.get?_insert, hk]
      · simp only [hk, bucket]
        split
        · simp [AssocMap.get?_erase, hk]
        · simp [AssocMap.get?_insert, hk]

/-! ## Content -/

/-- The content of the store, as a bag of value rows. -/
def bag (st : MemoryState) : Multiset VRow :=
  (st.data.entries.flatMap fun e => e.2.map Row.val : List VRow)

/-- Every row lies in the bucket of its own key and no bucket is empty. -/
structure Ok (st : MemoryState) : Prop where
  nonempty : ∀ e ∈ st.data.entries, e.2 ≠ []
  own_key : ∀ e ∈ st.data.entries, ∀ r ∈ e.2,
    VRow.proj st.key_columns (Row.val r) = e.1.vals

theorem ok_new (cols : List Nat) : (new cols).Ok := ⟨by simp [new], by simp [new]⟩

@[simp] theorem bag_new (cols : List Nat) : (new cols).bag = 0 := rfl

theorem bag_of_perm {l : List (StateKey × List Row)} (h : st.data.entries.Perm l) :
    st.bag = ((l.flatMap fun e => e.2.map Row.val : List VRow) : Multiset VRow) :=
  Multiset.coe_eq_coe.mpr (h.flatMap_right _)

theorem bucket_eq_filter (hok : st.Ok) (k : StateKey) :
    ((st.bucket k).map Row.val : Multiset VRow) =
      st.bag.filter fun v => VRow.proj st.key_columns v = k.vals := by
  have hother : ∀ (l : List (StateKey × List Row)), (∀ e ∈ l, e ∈ st.data.entries) →
      (∀ e ∈ l, (e.1 == k) = false) →
      (l.flatMap fun e => e.2.map Row.val).filter
        (fun v => VRow.proj st.key_columns v = k.vals) = [] := by
    intro l hl hne
    rw [filter_eq_nil_iff]
    intro v hv
    obtain ⟨e, he, hve⟩ := mem_flatMap.mp hv
    obtain ⟨r, hr, rfl⟩ := mem_map.mp hve
    have hkey := hok.own_key e (hl e he) r hr
    have hne' := hne e he
    rw [decide_eq_true_iff, hkey]
    intro hvals
    rw [(StateKey.beq_iff_vals e.1 k).mpr hvals] at hne'
    cases hne'
  unfold bucket
  cases hg : st.data.get? k with
  | none =>
    have hne : ∀ e ∈ st.data.entries, (e.1 == k) = false := by
      intro e he
      rw [Bool.eq_false_iff]
      intro hk
      rw [← st.data.get?_congr hk, st.data.get?_of_mem he] at hg
      cases hg
    rw [bag, Multiset.filter_coe, hother _ (fun e he => he) hne]
    rfl
  | some rows =>
    obtain ⟨k₀, rest, hk₀, hrest, hperm, _, _⟩ := st.data.exists_split hg
    have hmem : (k₀, rows) ∈ st.data.entries := hperm.mem_iff.mpr mem_cons_self
    have hself : (rows.map Row.val).filter
        (fun v => VRow.proj st.key_columns v = k.vals) = rows.map Row.val := by
      rw [filter_eq_self]
      intro v hv
      obtain ⟨r, hr, rfl⟩ := mem_map.mp hv
      rw [decide_eq_true_iff, hok.own_key _ hmem r hr]
      exact (StateKey.beq_iff_vals k₀ k).mp hk₀
    rw [bag_of_perm hperm, Multiset.filter_coe, flatMap_cons, filter_append, hself,
      hother rest (fun e he => hperm.mem_iff.mpr (mem_cons_of_mem _ he)) hrest,
      append_nil]
    rfl

theorem insert_row_bag (hok : st.Ok) (hkey : key.vals = VRow.proj st.key_columns (Row.val row))
    (n : Nat) :
    let st' : MemoryState :=
      { st with data := st.data.insert key (st.bucket key ++ [row]), row_count := n }
    st'.Ok ∧ st'.bag = Row.val row ::ₘ st.bag := by
  intro st'
  cases hg : st.data.get? key with
  | none =>
    have hent : st'.data.entries = st.data.entries ++ [(key, [row])] := by
      simp [st', AssocMap.entries_insert, bucket, hg]
    refine ⟨⟨?_, ?_⟩, ?_⟩
    · intro e he
      rw [hent] at he
      rcases mem_append.mp he with he | he
      · exact hok.nonempty e he
      · simp at he
        simp [he]
    · intro e he r hr
      rw [hent] at he
      rcases mem_append.mp he with he | he
      · exact hok.own_key e he r hr
      · simp at he
        subst he
        simp at hr
        subst hr
        exact hkey.symm
    · rw [bag, hent, flatMap_append, ← Multiset.coe_add, add_comm, bag]
      rfl
  | some rows =>
    obtain ⟨k₀, rest, hk₀, _, hperm, hins, _⟩ := st.data.exists_split hg
    have hb : st.bucket key = rows := by rw [bucket, hg]; rfl
    have hperm' : st'.data.entries.Perm ((k₀, rows ++ [row]) :: rest) := by
      simpa [st', hb] using hins (rows ++ [row])
    have hmem : (k₀, rows) ∈ st.data.entries := hperm.mem_iff.mpr mem_cons_self
    have hvals := (StateKey.beq_iff_vals k₀ key).mp hk₀
    refine ⟨⟨?_, ?_⟩, ?_⟩
    · intro e he
      rcases mem_cons.mp (hperm'.mem_iff.mp he) with rfl | he
      · simp
      · exact hok.nonempty e (hperm.mem_iff.mpr (mem_cons_of_mem _ he))
    · intro e he r hr
      rcases mem_cons.mp (hperm'.mem_iff.mp he) with rfl | he
      · rcases mem_append.mp hr with hr | hr
        · exact hok.own_key _ hmem r hr
        · simp at hr
          subst hr
          exact (hvals.trans hkey).symm
      · exact hok.own_key e (hperm.mem_iff.mpr (mem_cons_of_mem _ he)) r hr
    · rw [bag_of_perm hperm', bag_of_perm hperm]
      simp only [flatMap_cons, map_append, ← Multiset.coe_add, map_cons,
        map_nil]
      rw [← Multiset.singleton_add]
      show _ + {Row.val row} + _ = _
      abel

theorem remove_row_bag (hok : st.Ok) (hg : st.data.get? key = some rows) {left : List Row}
    {removed : List VRow} (hsub : left.Sublist rows)
    (hsplit : (rows.map Row.val).Perm (removed ++ left.map Row.val)) (n : Nat) :
    let st' : MemoryState :=
      { st with
        data := if left.isEmpty then st.data.erase key else st.data.insert key left
        row_count := n }
    st'.Ok ∧ st.bag = removed + st'.bag := by
  intro st'
  obtain ⟨k₀, rest, _, _, hperm, hins, hera⟩ := st.data.exists_split hg
  have hrest : ∀ e ∈ rest, e ∈ st.data.entries := fun e he =>
    hperm.mem_iff.mpr (mem_cons_of_mem _ he)
  have hk₀ : (k₀, rows) ∈ st.data.entries := hperm.mem_iff.mpr mem_cons_self
  have hbag : st.bag = removed +
      ((left.map Row.val ++ rest.flatMap fun e => e.2.map Row.val : List VRow) :
        Multiset VRow) := by
    rw [bag_of_perm hperm, flatMap_cons, Multiset.coe_add, Multiset.coe_eq_coe, ← append_assoc]
    exact hsplit.append_right _
  by_cases hl : left.isEmpty
  · have hent : st'.data.entries.Perm rest := by simpa [st', hl] using hera
    refine ⟨⟨?_, ?_⟩, ?_⟩
    · intro e he
      exact hok.nonempty e (hrest e (hent.mem_iff.mp he))
    · intro e he
      exact hok.own_key e (hrest e (hent.mem_iff.mp he))
    · rw [hbag, bag_of_perm hent, isEmpty_iff.mp hl]
      rfl
  · have hent : st'.data.entries.Perm ((k₀, left) :: rest) := by simpa [st', hl] using hins left
    refine ⟨⟨?_, ?_⟩, ?_⟩
    · intro e he
      rcases mem_cons.mp (hent.mem_iff.mp he) with rfl | he
      · simpa using hl
      · exact hok.nonempty e (hrest e he)
    · intro e he r hr
      rcases mem_cons.mp (hent.mem_iff.mp he) with rfl | he
      · exact hok.own_key _ hk₀ r (hsub.subset hr)
      · exact hok.own_key e (hrest e he) r hr
    · rw [hbag, bag_of_perm hent, flatMap_cons]

theorem process_record_positive (hok : st.Ok)
    (h : st.process_record (.positive row) = some st') :
    st'.Ok ∧ st'.bag = Row.val row ::ₘ st.bag ∧ st'.row_count = st.row_count + 1 := by
  obtain ⟨key, hkey, h⟩ := bind_eq_some_iff.mp h
  cases h
  obtain ⟨hok', hbag⟩ := insert_row_bag hok (StateKey.vals_from_row hkey) (st.row_count + 1)
  exact ⟨hok', hbag, rfl⟩

/-- **A negative removes at most one row**, and an equal one if there is one. -/
theorem process_record_negative (hok : st.Ok)
    (h : st.process_record (.negative row) = some st') :
    st'.Ok ∧ ∃ removed : List VRow, removed.length ≤ 1 ∧ st.bag = removed + st'.bag ∧
      (Row.val row ∈ st.bag → removed = [Row.val row]) ∧
      st'.row_count = st.row_count - removed.length := by
  obtain ⟨key, hkey, h⟩ := bind_eq_some_iff.mp h
  -- A row of the content is in the bucket of its key.
  have hin : Row.val row ∈ st.bag → Row.val row ∈ (st.bucket key).map Row.val := by
    intro hmem
    have : Row.val row ∈ (((st.bucket key).map Row.val : List VRow) : Multiset VRow) := by
      rw [bucket_eq_filter hok, Multiset.mem_filter]
      exact ⟨hmem, (StateKey.vals_from_row hkey).symm⟩
    simpa using this
  simp only [Record.is_positive, Record.row_negative, Bool.false_eq_true, if_false] at h
  split at h
  · rename_i hnone
    cases h
    refine ⟨hok, [], Nat.zero_le _, (zero_add _).symm, fun hmem => ?_, rfl⟩
    have hbucket := hin hmem
    rw [bucket, hnone] at hbucket
    cases hbucket
  · rename_i rows hsome
    cases h
    obtain ⟨removed, hle, hperm, heq⟩ := removeRow_split rows row
    obtain ⟨hok', hbag⟩ := remove_row_bag hok hsome (removeRow_sublist rows row) hperm
      (st.row_count - (rows.length - (removeRow rows row).length))
    rw [bucket, hsome] at hin
    refine ⟨hok', removed, hle, hbag, fun hmem => heq (hin hmem), ?_⟩
    have hlength := hperm.length_eq
    rw [length_map, length_append, length_map] at hlength
    rw [hlength, Nat.add_sub_cancel_right]

theorem process_record_ok (hok : st.Ok) (h : st.process_record record = some st') : st'.Ok := by
  cases record with
  | positive row => exact (process_record_positive hok h).1
  | negative row => exact (process_record_negative hok h).1

/-- **A record of an exact change moves the content by that change.** -/
theorem process_record_bag (hok : st.Ok) (h : st.process_record record = some st')
    (happ : Applies st.bag [record.change] m) :
    st'.Ok ∧ st'.bag = m := by
  cases record with
  | positive row =>
    rw [Record.change_positive, Applies.ins_iff, Applies.nil_iff] at happ
    obtain ⟨hok', hbag, -⟩ := process_record_positive hok h
    exact ⟨hok', hbag.trans happ⟩
  | negative row =>
    rw [Record.change_negative, Applies.del_iff] at happ
    obtain ⟨m₀, hm, happ⟩ := happ
    rw [Applies.nil_iff] at happ
    subst happ
    obtain ⟨hok', removed, -, hbag, heq, -⟩ := process_record_negative hok h
    rw [heq (hm ▸ Multiset.mem_cons_self _ _), hm] at hbag
    exact ⟨hok', ((Multiset.cons_inj_right _).mp hbag).symm⟩

theorem key_columns_process_record (h : st.process_record record = some st') :
    st'.key_columns = st.key_columns := by
  obtain ⟨_, _, hk, _⟩ := process_record_bucket h
  exact hk

theorem process_records_bag {records : Records} (hok : st.Ok)
    (hlen : ∀ r ∈ records, ∀ c ∈ st.key_columns, c < r.row.length)
    (happ : Applies st.bag (Records.changes records) m) :
    ∃ st', st.process_records records = some st' ∧ st'.key_columns = st.key_columns ∧
      st'.Ok ∧ st'.bag = m := by
  induction records generalizing st with
  | nil =>
    rw [Records.changes_nil, Applies.nil_iff] at happ
    exact ⟨st, rfl, rfl, hok, happ⟩
  | cons r rs ih =>
    rw [Records.changes_cons, ← singleton_append, Applies.append_iff] at happ
    obtain ⟨m₁, h₁, h₂⟩ := happ
    obtain ⟨key, hkey⟩ := StateKey.from_row_isSome (hlen r mem_cons_self)
    obtain ⟨st₁, hst₁⟩ : ∃ st₁, st.process_record r = some st₁ := process_record_isSome hkey
    obtain ⟨hok₁, hbag₁⟩ := process_record_bag hok hst₁ h₁
    have hcols := key_columns_process_record hst₁
    obtain ⟨st', hst', hcols', hok', hbag'⟩ := ih hok₁
      (by rw [hcols]; exact (forall_mem_cons.mp hlen).2)
      (by rw [hbag₁]; exact h₂)
    refine ⟨st', ?_, hcols'.trans hcols, hok', hbag'⟩
    simp only [process_records, foldlM_cons, hst₁, bind_eq_bind, bind_some]
    exact hst'

/-! ## Any history -/

/-- A store after batches, whose negatives need not be there, and clears. -/
inductive Reached : MemoryState → Prop
  | new (cols : List Nat) : Reached (new cols)
  | process_records {st st' : MemoryState} {records : Records} (h : Reached st)
      (hst' : st.process_records records = some st') : Reached st'
  | clear {st : MemoryState} (h : Reached st) : Reached st.clear

theorem Reached.counted (h : st.Reached) : st.Ok ∧ st.row_count = st.bag.card := by
  induction h with
  | new cols => exact ⟨ok_new cols, rfl⟩
  | clear h => exact ⟨⟨by simp [MemoryState.clear], by simp [MemoryState.clear]⟩, rfl⟩
  | process_records h hst' ih =>
    refine foldlM_option_keeps (P := fun st => st.Ok ∧ st.row_count = st.bag.card)
      (fun st record st' _ hst h => ?_) ih hst'
    cases record with
    | positive row =>
      obtain ⟨hok, hbag, hcount⟩ := process_record_positive hst.1 h
      exact ⟨hok, by rw [hcount, hbag, hst.2, Multiset.card_cons]⟩
    | negative row =>
      obtain ⟨hok, removed, -, hbag, -, hcount⟩ := process_record_negative hst.1 h
      refine ⟨hok, ?_⟩
      rw [hcount, hst.2, hbag, Multiset.card_add, Multiset.coe_card, Nat.add_sub_cancel_left]

theorem lookup_missing_iff (hok : st.Ok) (key : List DataType) :
    st.lookup key = .missing ↔ ∀ v ∈ st.bag, VRow.proj st.key_columns v ≠ Row.val key := by
  have hbucket := bucket_eq_filter hok (StateKey.from_slice key)
  rw [StateKey.vals_from_slice] at hbucket
  rw [← Multiset.filter_eq_nil, ← hbucket, Multiset.coe_eq_zero, map_eq_nil_iff]
  unfold lookup lookupIn bucket
  cases hget : st.data.get? (StateKey.from_slice key) with
  | none => simp
  | some rows =>
    obtain ⟨k, -, hmem⟩ := st.data.mem_of_get? hget
    have hne := hok.nonempty _ hmem
    cases rows with
    | nil => exact absurd rfl hne
    | cons r rows => simp

/-- **The store keeps its invariants in every history.** Rows lie in the buckets of their keys, and
    no bucket is empty; the counter is the number of rows; a lookup misses the keys without rows;
    and a negative takes one row at most, of which the counter always has one to take. -/
theorem store_consistent (h : st.Reached) :
    st.Ok ∧ st.row_count = st.bag.card ∧
      (∀ key, st.lookup key = .missing ↔
        ∀ v ∈ st.bag, VRow.proj st.key_columns v ≠ Row.val key) ∧
      ∀ row st', st.process_record (.negative row) = some st' →
        ∃ removed : List VRow, removed.length ≤ 1 ∧ st.bag = removed + st'.bag ∧
          (Row.val row ∈ st.bag → removed = [Row.val row]) ∧
          st'.row_count + removed.length = st.row_count := by
  obtain ⟨hok, hcount⟩ := h.counted
  refine ⟨hok, hcount, lookup_missing_iff hok, fun row st' hst' => ?_⟩
  obtain ⟨-, removed, hle, hbag, heq, hcount'⟩ := process_record_negative hok hst'
  refine ⟨removed, hle, hbag, heq, ?_⟩
  have hcard := congrArg Multiset.card hbag
  rw [Multiset.card_add, Multiset.coe_card] at hcard
  omega

/-- Equal rows, two groups, and a deletion that only a wildcard matches. -/
def mixed : Records :=
  [.positive [.int 1, .int 2, .int 5], .positive [.int 1, .int 2, .int 5],
    .positive [.int 1, .int 3, .int 7], .negative [.int 1, .int 2, .none]]

theorem store_consistent_mixed : ∃ st, (new [0, 1]).process_records mixed = some st ∧ st.Ok ∧
    st.bag.card = 2 ∧ ∀ v ∈ st.bag, VRow.proj [0, 1] v ≠ Row.val [.int 1, .int 4] := by
  obtain ⟨st, hst, hcount, hkeys, hmissing⟩ : ∃ st, (new [0, 1]).process_records mixed = some st ∧
      st.row_count = 2 ∧ st.key_columns = [0, 1] ∧ st.lookup [.int 1, .int 4] = .missing :=
    ⟨_, rfl, rfl, rfl, rfl⟩
  obtain ⟨hok, hcard, hlookup, -⟩ := store_consistent (.process_records (.new [0, 1]) hst)
  exact ⟨st, hst, hok, hcard ▸ hcount, hkeys ▸ (hlookup _).mp hmissing⟩

end MemoryState

end Noria.Sqlite

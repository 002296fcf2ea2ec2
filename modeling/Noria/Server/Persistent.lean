import Noria.Server.Base

/-! # Base tables on disk

  Unless told otherwise the server keeps base tables in a RocksDB database
  (`dataflow/src/state/persistent_state.rs`), with a column family for each index: a map from bytes
  to rows. The first index is the one on the primary key. The others have every row once more, under
  the columns of the index and the primary key.

  Keys are bytes here, so `Int(1)` and `BigInt(1)` are two keys. A row is removed by its primary
  key; whether it is the row that is stored there is looked at by debug builds only.
-/

namespace Noria.Server

open Bag Option List
open Noria.Sqlite (Record Records)

/-- A serialized key. Different values have different bytes. -/
structure Bytes where
  values : Row
  deriving DecidableEq

structure PersistentIndex where
  columns : List Nat
  /-- The rows, under their key in this index and their primary key. -/
  rows : AssocMap (Bytes × Bytes) Row

/-- The state of a table with a primary key (`has_unique_index`). -/
structure PersistentState where
  /-- Is this a debug build (`debug_assertions`)? -/
  checked : Bool
  primary : List Nat
  rows : AssocMap Bytes Row
  /-- The indices after the first. -/
  indices : List PersistentIndex

namespace PersistentState

/-- A new table, with indices on `keys` beside the one on the primary key. -/
def new (checked : Bool) (primary_key : List Nat) (keys : List (List Nat)) : PersistentState :=
  ⟨checked, primary_key, ∅, (keys.filter (· ≠ primary_key)).map fun columns => ⟨columns, ∅⟩⟩

def keys (st : PersistentState) : List (List Nat) :=
  st.primary :: st.indices.map PersistentIndex.columns

def build_key (row : Row) (columns : List Nat) : Option Bytes := do
  let key ← row.cols columns
  if keyLength key.length then some ⟨key⟩ else none

def lookup (st : PersistentState) (columns : List Nat) (key : Row) : Option LookupResult :=
  if columns = st.primary then some (.some (st.rows.get? ⟨key⟩).toList)
  else do
    let index ← st.indices.find? fun index => index.columns = columns
    some (.some ((index.rows.entries.filter fun e => e.1.1 = ⟨key⟩).map Prod.snd))

/-- `put_cf` and `delete_cf`. -/
def put {κ : Type} [BEq κ] (rows : AssocMap κ Row) (key : κ) : Option Row → AssocMap κ Row
  | some r => rows.insert key r
  | none => rows.erase key

/-- The row `r` is written to every index, or deleted from it. -/
def write (st : PersistentState) (r : Row) (pk : Bytes) (value : Option Row) :
    Option PersistentState := do
  let indices ← st.indices.mapM fun index => do
    let key ← build_key r index.columns
    some { index with rows := put index.rows (key, pk) value }
  some { st with rows := put st.rows pk value, indices }

def insert (st : PersistentState) (r : Row) : Option PersistentState := do
  let pk ← build_key r st.primary
  st.write r pk (some r)

/-- A debug build compares the row with the one in `db`, from before the batch. -/
def remove (st db : PersistentState) (r : Row) : Option PersistentState := do
  let pk ← build_key r st.primary
  if db.checked && !(db.rows.get? pk).any (r == ·) then none
  else st.write r pk none

def apply_record (db st : PersistentState) : Record → Option PersistentState
  | .positive r => st.insert r
  | .negative r => st.remove db r

/-- The writes are collected, and done together at the end. -/
def process_records (db : PersistentState) (records : Records) : Option PersistentState :=
  records.foldlM db.apply_record db

instance : TableState PersistentState where
  lookup := lookup
  process_records := process_records

/-- The rows are stored under their primary keys, and every index has all of them. -/
structure Ordered (st : PersistentState) : Prop where
  own : ∀ pk r, st.rows.get? pk = some r → build_key r st.primary = some pk
  indexed : ∀ index ∈ st.indices, ∀ key pk r, index.rows.get? (key, pk) = some r ↔
    st.rows.get? pk = some r ∧ build_key r index.columns = some key

structure Complete (st : PersistentState) (m : Multiset VRow) : Prop extends st.Ordered where
  content : (st.rows.entries.map fun e => Row.val e.2 : Multiset VRow) = m

/-- The indices are on some of the first `w` columns. -/
def Fits (st : PersistentState) (w : Nat) : Prop :=
  ∀ columns ∈ st.keys, keyLength columns.length = true ∧ ∀ c ∈ columns, c < w

variable {st db : PersistentState} {m : Multiset VRow} {w : Nat} {r : Row} {pk : Bytes}

theorem build_key_eq {columns : List Nat} (hlength : keyLength columns.length = true)
    {key : Row} (h : r.cols columns = some key) : build_key r columns = some ⟨key⟩ := by
  rw [build_key, h]
  simp [Row.length_cols h, hlength]

theorem cols_of_build_key {columns : List Nat} (h : build_key r columns = some pk) :
    r.cols columns = some pk.values := by
  obtain ⟨key, hkey, h⟩ := bind_eq_some_iff.mp h
  split at h
  · cases h
    exact hkey
  · cases h

/-! ## One row -/

theorem get?_put {κ : Type} [BEq κ] [LawfulBEq κ] (rows : AssocMap κ Row) (k k' : κ)
    (value : Option Row) :
    (put rows k value).get? k' = if k == k' then value else rows.get? k' := by
  cases value with
  | none => exact rows.get?_erase k k'
  | some r => exact rows.get?_insert k k' r

/-- A row that has the columns of every index is written to every index. -/
theorem Ordered.write (h : st.Ordered) (hfits : st.Fits w) (hr : w ≤ r.length)
    (hpk : build_key r st.primary = some pk) (value : Option Row)
    (hvalue : ∀ r', value = some r' → r' = r) (hold : ∀ r', st.rows.get? pk = some r' → r' = r) :
    ∃ st', st.write r pk value = some st' ∧ st'.Ordered ∧ st'.keys = st.keys ∧
      st'.rows = put st.rows pk value := by
  let keyOf : PersistentIndex → Bytes := fun index => (build_key r index.columns).getD ⟨[]⟩
  have hkeys : ∀ index ∈ st.indices, build_key r index.columns = some (keyOf index) := by
    intro index hindex
    obtain ⟨hlength, hcols⟩ := hfits _ (mem_cons_of_mem _ (mem_map_of_mem hindex))
    obtain ⟨key, hkey⟩ := Row.cols_isSome fun c hc => (hcols c hc).trans_le hr
    simp only [keyOf, build_key_eq hlength hkey, getD_some]
  let indices := st.indices.map fun index =>
    { index with rows := put index.rows (keyOf index, pk) value }
  have hmap : (st.indices.mapM fun index => do
      let key ← build_key r index.columns
      some { index with rows := put index.rows (key, pk) value }) = some indices :=
    mapM_option_map fun index hindex => by rw [hkeys index hindex]; rfl
  refine ⟨{ st with rows := put st.rows pk value, indices }, ?_, ⟨fun pk' r' hget => ?_, ?_⟩, ?_,
    rfl⟩
  · exact bind_eq_some_iff.mpr ⟨_, hmap, rfl⟩
  · rw [get?_put] at hget
    split at hget
    · rename_i heq
      rwa [hvalue r' hget, ← eq_of_beq heq]
    · exact h.own pk' r' hget
  · intro index hindex key pk' r'
    obtain ⟨old, hin, rfl⟩ := mem_map.mp hindex
    have hbefore := h.indexed old hin key pk' r'
    have hkey := hkeys old hin
    simp only [get?_put, beq_iff_eq, Prod.mk.injEq]
    -- the entry of the primary key is at the index key of `r`, if there is one
    grind
  · simp [keys, indices]

theorem Complete.insert (h : st.Complete m) (hfits : st.Fits w) (hr : w ≤ r.length)
    (hpk : build_key r st.primary = some pk) (hfree : st.rows.get? pk = none) :
    ∃ st', st.insert r = some st' ∧ st'.Complete (Row.val r ::ₘ m) ∧ st'.keys = st.keys ∧
      st'.rows = put st.rows pk (some r) := by
  obtain ⟨st', hst', hordered, hkeys, hrows⟩ := h.write hfits hr hpk (some r)
    (fun _ hr' => (some.inj hr').symm) fun r' hr' => by rw [hfree] at hr'; cases hr'
  refine ⟨st', by simp [PersistentState.insert, hpk, hst'], ⟨hordered, ?_⟩, hkeys, hrows⟩
  rw [hrows, put, AssocMap.entries_insert, hfree, ← h.content]
  simp [← Multiset.coe_add, Multiset.add_comm]

theorem Complete.remove (h : st.Complete m) (hfits : st.Fits w) (hr : w ≤ r.length)
    (hget : st.rows.get? pk = some r) (hdb : db.rows.get? pk = some r) :
    ∃ st' m', st.remove db r = some st' ∧ m = Row.val r ::ₘ m' ∧ st'.Complete m' ∧
      st'.keys = st.keys ∧ st'.rows = put st.rows pk none := by
  have hpk := h.own pk r hget
  obtain ⟨st', hst', hordered, hkeys, hrows⟩ := h.write hfits hr hpk none
    (fun _ hr' => nomatch hr') fun r' hr' => some.inj (hr'.symm.trans hget)
  obtain ⟨pk₀, hpk₀, hin⟩ := st.rows.mem_of_get? hget
  obtain rfl : pk₀ = pk := eq_of_beq hpk₀
  refine ⟨st', _, by simp [PersistentState.remove, hpk, hdb, hst'], ?_, ⟨hordered, rfl⟩, hkeys,
    hrows⟩
  rw [hrows, ← h.content, Multiset.cons_coe]
  exact Multiset.coe_eq_coe.mpr ((st.rows.perm_cons_erase hin).map fun e => Row.val e.2)

/-- The row that is stored under a key is replaced. -/
theorem Complete.replaceRow (h : st.Complete m) (hfits : st.Fits w) {was current : Option Row}
    (hwas : st.rows.get? pk = was) (hdb : db.rows.get? pk = was)
    (hcurrent : ∀ r, current = some r → build_key r st.primary = some pk)
    (hwidth : ∀ rec ∈ replaceRow was current, w ≤ rec.row.length) :
    ∃ st' m', (replaceRow was current).foldlM db.apply_record st = some st' ∧
      Applies m (Records.changes (replaceRow was current)) m' ∧ st'.Complete m' ∧
      st'.keys = st.keys ∧ ∀ pk', pk' ≠ pk → st'.rows.get? pk' = st.rows.get? pk' := by
  unfold Server.replaceRow at hwidth ⊢
  split at hwidth
  · rename_i hsame
    rw [if_pos hsame]
    exact ⟨st, m, rfl, .nil m, h, rfl, fun _ _ => rfl⟩
  · rename_i hsame
    rw [if_neg hsame, foldlM_append]
    obtain ⟨st₁, m₁, hst₁, happ₁, hcomplete₁, hkeys₁, hfree, hother₁⟩ : ∃ st₁ m₁,
        (was.map Record.negative).toList.foldlM db.apply_record st = some st₁ ∧
        Applies m (Records.changes (was.map Record.negative).toList) m₁ ∧ st₁.Complete m₁ ∧
        st₁.keys = st.keys ∧ st₁.rows.get? pk = none ∧
        ∀ pk', pk' ≠ pk → st₁.rows.get? pk' = st.rows.get? pk' := by
      cases was with
      | none => exact ⟨st, m, rfl, .nil m, h, rfl, hwas, fun _ _ => rfl⟩
      | some r =>
        obtain ⟨st₁, m₁, hst₁, rfl, hcomplete, hkeys, hrows⟩ :=
          h.remove hfits (hwidth _ (mem_append_left _ mem_cons_self)) hwas hdb
        refine ⟨st₁, m₁, ?_, .del (.nil m₁), hcomplete, hkeys, ?_, fun pk' hne => ?_⟩
        · exact bind_eq_some_iff.mpr ⟨st₁, hst₁, rfl⟩
        · rw [hrows, get?_put, if_pos BEq.rfl]
        · rw [hrows, get?_put, if_neg (by simpa using Ne.symm hne)]
    have hprimary : st₁.primary = st.primary := (cons.inj hkeys₁).1
    rw [hst₁]
    cases current with
    | none =>
      refine ⟨st₁, m₁, rfl, ?_, hcomplete₁, hkeys₁, hother₁⟩
      simpa using happ₁
    | some r =>
      obtain ⟨st₂, hst₂, hcomplete, hkeys, hrows⟩ := hcomplete₁.insert
        (show st₁.Fits w from fun columns hin => hfits columns (hkeys₁ ▸ hin))
        (hwidth _ (mem_append_right _ mem_cons_self))
        (hprimary ▸ hcurrent r rfl) hfree
      refine ⟨st₂, _, ?_, ?_, hcomplete, hkeys.trans hkeys₁, fun pk' hne => ?_⟩
      · exact bind_eq_some_iff.mpr ⟨st₁, rfl, bind_eq_some_iff.mpr ⟨st₂, hst₂, rfl⟩⟩
      · rw [show Records.changes (_ ++ _) = _ from Records.changes_append _ _]
        exact happ₁.append (.ins (.nil _))
      · rw [hrows, get?_put, if_neg (by simpa using Ne.symm hne), hother₁ pk' hne]

/-! ## A batch -/

section batch

variable {rep : VRow → Row} {was current : VRow → Option Row} {ks : List VRow}

/-- The replacements of a batch, for keys that are written as `rep` says. -/
theorem Complete.replacements (h : st.Complete m) (hfits : st.Fits w) (hnodup : ks.Nodup)
    (hks : ∀ k ∈ ks, Row.val (rep k) = k ∧ st.rows.get? ⟨rep k⟩ = was k ∧
      db.rows.get? ⟨rep k⟩ = was k ∧
      (∀ r, current k = some r → build_key r st.primary = some ⟨rep k⟩) ∧
      ∀ rec ∈ Server.replaceRow (was k) (current k), w ≤ rec.row.length) :
    ∃ st' m', (Server.replacements ks was current).foldlM db.apply_record st = some st' ∧
      Applies m (Records.changes (Server.replacements ks was current)) m' ∧ st'.Complete m' ∧
      st'.keys = st.keys ∧
      ∀ pk, (∀ k ∈ ks, pk ≠ ⟨rep k⟩) → st'.rows.get? pk = st.rows.get? pk := by
  induction ks generalizing st m with
  | nil => exact ⟨st, m, rfl, .nil m, h, rfl, fun _ _ => rfl⟩
  | cons k ks ih =>
    obtain ⟨hk, hnodup⟩ := nodup_cons.mp hnodup
    obtain ⟨⟨hrep, hwas, hdb, hcurrent, hwidth⟩, hks⟩ := forall_mem_cons.mp hks
    obtain ⟨st₁, m₁, hst₁, happ₁, hcomplete₁, hkeys₁, hother₁⟩ :=
      h.replaceRow hfits hwas hdb hcurrent hwidth
    have hprimary : st₁.primary = st.primary := (cons.inj hkeys₁).1
    -- the keys to come are other bytes
    have hne : ∀ k' ∈ ks, (⟨rep k'⟩ : Bytes) ≠ ⟨rep k⟩ := by
      intro k' hk' heq
      have hval := congrArg (fun b : Bytes => Row.val b.values) heq
      simp only [(hks k' hk').1, hrep] at hval
      exact hk (hval ▸ hk')
    obtain ⟨st', m', hst', happ', hcomplete, hkeys, hother⟩ := ih hcomplete₁
      (fun columns hin => hfits columns (hkeys₁ ▸ hin)) hnodup fun k' hk' => by
        rw [hother₁ _ (hne k' hk'), hprimary]
        exact hks k' hk'
    refine ⟨st', m', ?_, ?_, hcomplete, hkeys.trans hkeys₁, fun pk hpk => ?_⟩
    · rw [Server.replacements, flatMap_cons, foldlM_append, hst₁]
      exact hst'
    · rw [Server.replacements, flatMap_cons,
        show Records.changes (_ ++ _) = _ from Records.changes_append _ _]
      exact happ₁.append happ'
    · obtain ⟨hpk, hpks⟩ := forall_mem_cons.mp hpk
      rw [hother pk hpks, hother₁ pk hpk]

/-- All keys in the table are written as `rep` says. -/
def WrittenAs (rep : VRow → Row) (st : PersistentState) : Prop :=
  ∀ pk, (st.rows.get? pk).isSome = true → rep (Row.val pk.values) = pk.values

theorem get_current_eq {key : Row} (hlength : keyLength key.length = true) :
    Base.get_current st.primary st key = some (st.rows.get? ⟨key⟩) := by
  have hlookup : TableState.lookup st st.primary key =
      some (.some (st.rows.get? ⟨key⟩).toList) := if_pos rfl
  rw [Base.get_current, if_pos hlength, hlookup]
  cases st.rows.get? ⟨key⟩ <;> rfl

/-- The row of a key is under the bytes of the key. -/
theorem Complete.get? (h : st.Complete m) (hrep : st.WrittenAs rep) {k : VRow} {row : Option Row}
    (hk : Row.val (rep k) = k) (hrow : rowsOf st.primary k m = rowBag row) :
    SameValues (st.rows.get? ⟨rep k⟩) row := by
  have hmem : ∀ v, v ∈ rowBag row ↔ ∃ pk r, st.rows.get? pk = some r ∧ Row.val r = v ∧
      pk = ⟨rep k⟩ := by
    intro v
    rw [← hrow, rowsOf, Multiset.mem_filter, ← h.content, Multiset.mem_coe, List.mem_map]
    constructor
    · rintro ⟨⟨e, he, rfl⟩, hproj⟩
      have hget := st.rows.get?_of_mem he
      have hcols := cols_of_build_key (h.own e.1 e.2 hget)
      have hval : Row.val e.1.values = k := (Row.val_cols hcols).trans hproj
      have hwritten := hrep e.1 (by rw [hget]; rfl)
      rw [hval] at hwritten
      exact ⟨e.1, e.2, hget, rfl, by rw [hwritten]⟩
    · rintro ⟨pk, r, hget, rfl, rfl⟩
      obtain ⟨pk₀, hpk₀, hin⟩ := st.rows.mem_of_get? hget
      exact ⟨⟨_, hin, rfl⟩, (Row.val_cols (cols_of_build_key (h.own _ r hget))).symm.trans hk⟩
  cases hget : st.rows.get? ⟨rep k⟩ with
  | none =>
    cases row with
    | none => rfl
    | some r =>
      obtain ⟨pk, r', hget', -, rfl⟩ := (hmem (Row.val r)).mp (Multiset.mem_singleton_self _)
      rw [hget] at hget'
      cases hget'
  | some r =>
    have hin := (hmem (Row.val r)).mpr ⟨_, r, hget, rfl, rfl⟩
    cases row with
    | none => cases Multiset.notMem_zero _ hin
    | some r' => exact congrArg some (Multiset.mem_singleton.mp hin)

theorem new_complete (checked : Bool) (primary_key : List Nat) (keys : List (List Nat)) :
    (new checked primary_key keys).Complete 0 := by
  refine ⟨⟨fun pk r hr => (nomatch hr), fun index hindex key pk r => ?_⟩, rfl⟩
  obtain ⟨columns, -, rfl⟩ := mem_map.mp hindex
  simp [new]

end batch

end PersistentState

end Noria.Server

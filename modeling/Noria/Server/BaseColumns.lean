import Noria.Framework.Machine
import Noria.Server.Persistent

/-! # Columns added to a base table

  A column is added to a base table by remembering its default (`Base::add_column`); the rows in the
  table stay as they are. A row that is found too short counts as if it were extended with the
  defaults of the columns it lacks.

  `Base::process` extends the records it puts out, at the very end (`Base::fix`). So it modifies a
  row as it was stored, which has no cell for a new column, and takes back the extended row, which
  is not in the table. `short_row_stays` is a row that is deleted and still found. A table on disk
  loses the row, by its key, unless it is a debug build that looks.

  As long as a batch leaves the short rows alone, the table is what it would be with every row
  extended, in memory and on disk: `schema_extension`.
-/

namespace Noria.Server

open Bag List Option
open Noria.Sqlite (Record Records)

/-! ## The life of a base table -/

inductive TableEvent where
  | addColumn (default : DataType)
  | batch (ops : List TableOperation)

/-- The node and its state: a batch is processed against the state, which
    takes the records that come out. -/
def Base.step {σ : Type} [TableState σ] : Machine (Base × σ) TableEvent Records
  | (b, db), .addColumn default => do
    let b ← b.add_column default
    some ([], (b, db))
  | (b, db), .batch ops => do
    let records ← b.process ops db
    let db ← TableState.process_records db records
    some (records, (b, db))

/-- A stored row with the defaults of the columns it lacks. -/
def Base.extended (b : Base) (v : VRow) : VRow := v ++ (Row.val b.defaults).drop v.length

/-- The same event for a table in which every row has all columns. -/
def TableStep (key_cols : List Nat) (table : VRow → Option Row) :
    TableEvent → (VRow → Option Row) → Prop
  | .addColumn default, table' => ∀ k, table' k = (table k).map (· ++ [default])
  | .batch ops, table' => ∀ k,
    (opsOn key_cols k ops).foldlM (applyOp (table k)) (table k) = some (table' k)

/-- The table, computed on extended rows. -/
inductive TableRun (key_cols : List Nat) : List TableEvent → (VRow → Option Row) → Prop
  | start : TableRun key_cols [] fun _ => none
  | next {events : List TableEvent} {table table' : VRow → Option Row} {e : TableEvent} :
    TableRun key_cols events table → TableStep key_cols table e table' →
    TableRun key_cols (events ++ [e]) table'

/-- A state, with its rows extended, is the table. -/
def Matches (key_cols : List Nat) (b : Base) (m : Multiset VRow) (table : VRow → Option Row) :
    Prop :=
  ∀ k, (rowsOf key_cols k m).map b.extended = rowBag (table k)

/-! ## Batches that leave short rows alone -/

/-- What a list of modifications leaves alone. -/
def Keeps (update : List Modification) (c : Nat) : Prop := update[c]?.getD .none = .none

instance (update : List Modification) (c : Nat) : Decidable (Keeps update c) :=
  inferInstanceAs (Decidable (update[c]?.getD .none = .none))

/-- What the operations of a batch have to be like: rows with `w` columns,
    keys with a value for each key column, and no change of key columns. -/
structure WellFormed (key_cols : List Nat) (w : Nat) (op : TableOperation) : Prop where
  sized : op.Sized w
  key : (key_of key_cols op).isSome = true
  keeps : ∀ c ∈ key_cols, Keeps op.modifications c

instance (key_cols : List Nat) (w : Nat) : DecidablePred (WellFormed key_cols w) := fun op =>
  decidable_of_iff (op.Sized w ∧ (key_of key_cols op).isSome = true ∧
    ∀ c ∈ key_cols, Keeps op.modifications c)
    ⟨fun h => ⟨h.1, h.2.1, h.2.2⟩, fun h => ⟨h.sized, h.key, h.keeps⟩⟩

section careful

variable {σ : Type} [TableState σ]

/-- Is the row of this key from before a column was added? -/
def Base.isShort (b : Base) (key_cols : List Nat) (db : σ) (key : Row) : Bool :=
  match get_current key_cols db key with
  | some (some row) => row.length < b.defaults.length
  | _ => false

/-- The operations of a batch have all the columns there are, keep the key columns, and are sorted
    by key. Their keys are written as the state wants them. An operation on a short row can only be
    an insert, which is dropped. -/
structure LeavesShort (key_cols : List Nat) (written : Row → Prop) (b : Base) (db : σ)
    (ops : List TableOperation) : Prop where
  wellFormed : ∀ op ∈ ops, WellFormed key_cols b.defaults.length op
  written : ∀ op ∈ ops, ∀ key ∈ key_of key_cols op, written key
  sorts : SortsByKey key_cols ops
  short : ∀ op ∈ ops, ∀ key ∈ key_of key_cols op,
    b.isShort key_cols db key = true → op.isInsert = true

def Careful (key_cols : List Nat) (written : Row → Prop) (s : Base × σ) : TableEvent → Prop
  | .addColumn _ => True
  | .batch ops => LeavesShort key_cols written s.1 s.2 ops

end careful

/-! ## One row -/

theorem SameValues.symm {r s : Option Row} (h : SameValues r s) : SameValues s r := Eq.symm h

theorem SameValues.trans {r s t : Option Row} (h : SameValues r s) (h' : SameValues s t) :
    SameValues r t := Eq.trans h h'

theorem SameValues.length_eq {r s : Row} (h : SameValues (some r) (some s)) :
    r.length = s.length := by
  have hval : Row.val r = Row.val s := some.inj h
  rw [← Row.length_val, hval, Row.length_val]

theorem movedKey_keeps {key_cols : List Nat} {key : Row} {update : List Modification}
    (h : ∀ c ∈ key_cols, Keeps update c) (hlen : key.length = key_cols.length) :
    movedKey key_cols key update = some key := by
  rw [movedKey, mapM_option_map (g := Prod.snd) fun p hp => ?_, map_snd_zip hlen.le]
  have hp : update[p.1]?.getD .none = .none := h p.1 (of_mem_zip hp).1
  rw [hp]
  rfl

/-- A well formed operation leaves the row at its key. -/
theorem WellFormed.rowAt {key_cols : List Nat} {w : Nat} {k : VRow} {was current c : Option Row}
    {op : TableOperation} {key : Row} (hop : WellFormed key_cols w op)
    (hcols : ∀ c ∈ key_cols, c < w) (hcurrent : RowAt key_cols w k current)
    (hkey : key_of key_cols op = some key) (hk : Row.val key = k)
    (h : applyOp was current op = some c) : RowAt key_cols w k c := by
  obtain ⟨k', hat, rfl | ⟨-, key', hmoved, rfl⟩⟩ :=
    applyOp_rowAt hcols hcurrent hop.sized hkey hk h
  · exact hat
  · rw [movedKey_keeps hop.keeps (length_key_of hkey)] at hmoved
    cases hmoved
    exact hk ▸ hat

/-- A well formed operation leaves the key as it is written. -/
theorem WellFormed.cols {key_cols : List Nat} {w : Nat} {was current c : Option Row}
    {op : TableOperation} {key : Row} (hop : WellFormed key_cols w op)
    (hcurrent : ∀ r, current = some r → r.cols key_cols = some key)
    (hkey : key_of key_cols op = some key) (h : applyOp was current op = some c) :
    ∀ r, c = some r → r.cols key_cols = some key := by
  cases applyOp_leaves h with
  | none => exact fun _ hr => nomatch hr
  | kept => exact hcurrent
  | given hgiven _ =>
    rintro _ ⟨⟩
    exact (hgiven _).symm.trans hkey
  | @modified row r hrow hr =>
    rintro _ ⟨⟩
    rw [← hcurrent row hrow, Row.cols, Row.cols]
    refine mapM_option_congr fun c hc => ?_
    have hcell := (modifyFrom_cells hr).2.2 c
    have hkept : op.modifications[c]?.getD .none = .none := hop.keeps c hc
    rwa [hkept, Nat.zero_add] at hcell

theorem foldlM_inserts {ops : List TableOperation} {was : Option Row} (hwas : was.isSome = true)
    (hops : ∀ op ∈ ops, op.isInsert = true) (current : Option Row) :
    ops.foldlM (applyOp was) current = some current := by
  induction ops with
  | nil => rfl
  | cons op ops ih =>
    have hop := hops op mem_cons_self
    cases op with
    | insert row =>
      rw [foldlM_cons]
      simp only [applyOp, hwas, if_true]
      exact ih (forall_mem_cons.mp hops).2
    | delete key => cases hop
    | update set key => cases hop
    | insertOrUpdate row update => cases hop

section one_row

variable {key_cols : List Nat} {w : Nat} {b : Base} {k : VRow} {row t t' : Option Row}
  {ops : List TableOperation}

/-- The row stored for a key, of a table that started with `w` columns, and
    the row it stands for. -/
structure StandsFor (key_cols : List Nat) (w : Nat) (b : Base) (k : VRow)
    (row t : Option Row) : Prop where
  stored : ∀ r, row = some r → w ≤ r.length ∧ r.length ≤ b.defaults.length ∧
    VRow.proj key_cols (Row.val r) = k
  extended : SameValues (row.map b.fix) t

theorem StandsFor.rowAt (h : StandsFor key_cols w b k row t) : ∃ w', RowAt key_cols w' k row := by
  cases row with
  | none => exact ⟨0, fun r hr => nomatch hr⟩
  | some r =>
    refine ⟨r.length, ?_⟩
    rintro _ ⟨⟩
    exact ⟨rfl, (h.stored r rfl).2.2⟩

variable (hun : b.unmodified = true → b.defaults.length = w)
include hun

/-- A row lacks no other columns than those with a default. -/
theorem fix_eq {r : Row} (hr : w ≤ r.length) : b.fix r = r ++ b.defaults.drop r.length := by
  unfold Base.fix
  split
  · rename_i hunmodified
    have hle : b.defaults.length ≤ r.length := (hun hunmodified).trans_le hr
    rw [drop_eq_nil_of_le hle, append_nil]
  · rfl

theorem fix_of_full (hwidth : w ≤ b.defaults.length)
    (hrow : RowAt key_cols b.defaults.length k row) :
    row.map b.fix = row := by
  cases row with
  | none => rfl
  | some r =>
    have hlength := (hrow r rfl).1
    rw [map_some, fix_eq hun (hlength ▸ hwidth), hlength, drop_length, append_nil]

omit hun in
theorem run_full (hcols : ∀ c ∈ key_cols, c < b.defaults.length)
    (hops : ∀ op ∈ ops, WellFormed key_cols b.defaults.length op)
    (hrow : RowAt key_cols b.defaults.length k row) (hsame : SameValues row t)
    (hrun : (opsOn key_cols k ops).foldlM (applyOp t) t = some t') :
    ∃ current, (opsOn key_cols k ops).foldlM (applyOp row) row = some current ∧
      SameValues current t' ∧ RowAt key_cols b.defaults.length k current := by
  have hrel : Option.Rel SameValues ((opsOn key_cols k ops).foldlM (applyOp row) row)
      ((opsOn key_cols k ops).foldlM (applyOp t) t) :=
    foldlM_option_rel (fun _ _ op _ hcc => applyOp_sameValues hsame.isSome hcc op) hsame
  rw [hrun] at hrel
  cases hcurrent : (opsOn key_cols k ops).foldlM (applyOp row) row with
  | none =>
    rw [hcurrent] at hrel
    cases hrel
  | some current =>
    rw [hcurrent] at hrel
    refine ⟨current, rfl, ?_, foldlM_option_keeps ?_ hrow hcurrent⟩
    · cases hrel with
      | some hsame' => exact hsame'
    · intro c op c' hop hc hstep
      obtain ⟨hin, hon⟩ := mem_filter.mp hop
      obtain ⟨key, hkey⟩ := isSome_iff_exists.mp (hops op hin).key
      rw [decide_eq_true_iff, hkey] at hon
      exact (hops op hin).rowAt hcols hc hkey (some.inj hon) hstep

/-- **One key.** The operations of a batch on a key do to the stored row what
    they would do to the row it stands for, as long as only inserts come to
    a short row. The records that replace the row have all the columns. -/
theorem StandsFor.run (h : StandsFor key_cols w b k row t) (hwidth : w ≤ b.defaults.length)
    (hcols : ∀ c ∈ key_cols, c < b.defaults.length)
    (hops : ∀ op ∈ ops, WellFormed key_cols b.defaults.length op)
    (hshort : ∀ r, row = some r → r.length < b.defaults.length →
      ∀ op ∈ opsOn key_cols k ops, op.isInsert = true)
    (hrun : (opsOn key_cols k ops).foldlM (applyOp t) t = some t') :
    ∃ row', StandsFor key_cols w b k row' t' ∧ ∀ was, SameValues was row → ∃ current,
      (opsOn key_cols k ops).foldlM (applyOp was) was = some current ∧
      SameValues current row' ∧ ∀ r ∈ replaceRow was current, r.row.length = b.defaults.length := by
  by_cases hk : ∃ r, row = some r ∧ r.length < b.defaults.length
  · -- a short row: the inserts are dropped, here and in the table
    obtain ⟨r, rfl, hlt⟩ := hk
    have hinserts := hshort r rfl hlt
    have hkept : t' = t := by
      rw [foldlM_inserts h.extended.isSome.symm hinserts] at hrun
      exact (some.inj hrun).symm
    refine ⟨some r, hkept ▸ h, fun was hwas => ⟨was, ?_, hwas, ?_⟩⟩
    · exact foldlM_inserts hwas.isSome hinserts was
    · intro rec hrec
      rw [replaceRow, if_pos (sameRow_iff.mpr rfl)] at hrec
      cases hrec
  · have hat : RowAt key_cols b.defaults.length k row := by
      intro r hr
      obtain ⟨-, hle, hproj⟩ := h.stored r hr
      exact ⟨hle.antisymm (not_lt.mp fun hlt => hk ⟨r, hr, hlt⟩), hproj⟩
    have hsame : SameValues row t := by
      have hextended := h.extended
      rwa [fix_of_full hun hwidth hat] at hextended
    have hto : ∀ was, SameValues was row → ∃ current,
        (opsOn key_cols k ops).foldlM (applyOp was) was = some current ∧
        SameValues current t' ∧ RowAt key_cols b.defaults.length k current :=
      fun was hwas => run_full hcols hops (hat.of_sameValues hwas) (hwas.trans hsame) hrun
    refine ⟨t', ?_, fun was hwas => ?_⟩
    · obtain ⟨current, -, hcurrent, hcurrentAt⟩ := hto row rfl
      have htat := hcurrentAt.of_sameValues hcurrent.symm
      refine ⟨fun r hr => ?_, by rw [fix_of_full hun hwidth htat]; rfl⟩
      obtain ⟨hlength, hproj⟩ := htat r hr
      exact ⟨hlength ▸ hwidth, hlength.le, hproj⟩
    · obtain ⟨current, hfold, hcurrent, hcurrentAt⟩ := hto was hwas
      exact ⟨current, hfold, hcurrent, fun r hr => length_of_mem_replaceRow
        (fun r hr => (hat.of_sameValues hwas r hr).1) (fun r hr => (hcurrentAt r hr).1) hr⟩

/-- A new column extends what every stored row stands for. -/
theorem StandsFor.add_column (h : StandsFor key_cols w b k row t) (default : DataType) :
    StandsFor key_cols w { b with defaults := b.defaults ++ [default], unmodified := false } k
      row (t.map (· ++ [default])) := by
  have hlonger : (b.defaults ++ [default]).length = b.defaults.length + 1 := by simp
  refine ⟨fun r hr => ?_, ?_⟩
  · obtain ⟨hlow, hhigh, hproj⟩ := h.stored r hr
    refine ⟨hlow, ?_, hproj⟩
    show r.length ≤ (b.defaults ++ [default]).length
    omega
  · have hextended := h.extended
    cases row with
    | none =>
      cases t with
      | none => rfl
      | some s => cases hextended
    | some r =>
      cases t with
      | none => cases hextended
      | some s =>
        obtain ⟨hlow, hhigh, -⟩ := h.stored r rfl
        have hval : Row.val (b.fix r) = Row.val s := some.inj hextended
        -- the new default comes after those that were missing before
        have hfix : ({ b with defaults := b.defaults ++ [default], unmodified := false } :
            Base).fix r = b.fix r ++ [default] := by
          rw [fix_eq hun hlow]
          simp [Base.fix, drop_append_of_le_length hhigh]
        show some (Row.val _) = some (Row.val (s ++ [default]))
        rw [hfix, Row.val_append, Row.val_append, hval]

end one_row

/-! ## Kinds of state -/

/-- A kind of state for a table that started with `w` columns: which rows it
    holds, how keys have to be written to be found, and that it takes in what a
    batch replaces. -/
structure Store (σ : Type) [TableState σ] (key_cols : List Nat) (w : Nat) where
  Holds : σ → Multiset VRow → Prop
  Written : Row → Prop
  found : ∀ {db m}, Holds db m → ∀ {key row}, Written key → key.length = key_cols.length →
    rowsOf key_cols (Row.val key) m = rowBag row →
    ∃ was, Base.get_current key_cols db key = some was ∧ SameValues was row
  takes : ∀ {db m m' n ops rows rows' ks was current}, Holds db m → w ≤ n →
    (∀ op ∈ ops, WellFormed key_cols n op) → (∀ op ∈ ops, ∀ key ∈ key_of key_cols op, Written key) →
    Replaces key_cols n ops db rows rows' ks was current →
    Applies m (Records.changes (replacements ks was current)) m' →
    ∃ db', TableState.process_records db (replacements ks was current) = some db' ∧ Holds db' m'

section stores

variable {key_cols : List Nat} {w : Nat}

def memoryStore (hlength : keyLength key_cols.length = true) : Store MemoryState key_cols w where
  Holds db m := db.Complete m ∧ key_cols ∈ db.keys ∧ ∀ key ∈ db.keys, ∀ c ∈ key, c < w
  Written _ := True
  found h _ _ _ hkey hrow := get_current_eq h.1 h.2.1 hlength hkey hrow
  takes := by
    rintro db m m' n ops rows rows' ks was current ⟨hdb, hown, hcolumns⟩ hn - - hreplaces happ
    obtain ⟨db', hdb', hcomplete, hkeys⟩ := hdb.takes
      (fun key hkey c hc => (hcolumns key hkey c hc).trans_le hn) hreplaces.length_row happ
    rw [← hkeys] at hown hcolumns
    exact ⟨db', hdb', hcomplete, hown, hcolumns⟩

def persistentStore (rep : VRow → Row) (hlength : keyLength key_cols.length = true) :
    Store PersistentState key_cols w where
  Holds db m := db.Complete m ∧ db.primary = key_cols ∧ db.Fits w ∧ db.WrittenAs rep
  Written key := rep (Row.val key) = key
  found := by
    rintro db m ⟨hdb, rfl, -, hrep⟩ key row hwritten hkey hrow
    refine ⟨_, PersistentState.get_current_eq (hkey ▸ hlength), ?_⟩
    have hsame := hdb.get? hrep (by rw [hwritten]) hrow
    rwa [hwritten] at hsame
  takes := by
    rintro db m m' n ops rows rows' ks was current ⟨hdb, rfl, hfits, hrep⟩ hn hops hwritten
      hreplaces happ
    have hkeyed : ∀ op ∈ ops, ∀ key, key_of db.primary op = some key → rep (Row.val key) = key :=
      fun op hop key hkey => hwritten op hop key hkey
    have hks : ∀ k ∈ ks, Row.val (rep k) = k ∧ db.rows.get? ⟨rep k⟩ = was k ∧
        db.rows.get? ⟨rep k⟩ = was k ∧
        (∀ r, current k = some r → PersistentState.build_key r db.primary = some ⟨rep k⟩) ∧
        ∀ rec ∈ replaceRow (was k) (current k), w ≤ rec.row.length := by
      intro k hk
      obtain ⟨op, hop, key, hkey, rfl, hcurrent⟩ := hreplaces.found k hk
      rw [PersistentState.get_current_eq (length_key_of hkey ▸ hlength), some.injEq] at hcurrent
      rw [hkeyed op hop key hkey]
      refine ⟨rfl, hcurrent, hcurrent, fun r hr => ?_, fun rec hrec => ?_⟩
      · -- the operations on the key leave it as it is written
        refine PersistentState.build_key_eq hlength (foldlM_option_keeps
          (P := fun c => ∀ r, c = some r → r.cols db.primary = some key) ?_ ?_
          (hreplaces.run (Row.val key)) r hr)
        · intro c op' c' hop' hc hstep
          obtain ⟨hin, hon⟩ := mem_filter.mp hop'
          obtain ⟨key', hkey', hval⟩ := map_eq_some_iff.mp (of_decide_eq_true hon)
          have hsame := hkeyed op' hin key' hkey'
          rw [hval, hkeyed op hop key hkey] at hsame
          exact (hops op' hin).cols hc (hsame ▸ hkey') hstep
        · intro r' hr'
          exact PersistentState.cols_of_build_key (hdb.own ⟨key⟩ r' (hcurrent.trans hr'))
      · rw [hreplaces.width _ rec hrec]
        exact hn
    obtain ⟨db', m₁, hdb', happ₁, hcomplete, hkeys, hother⟩ :=
      hdb.replacements hfits hreplaces.nodup hks
    obtain rfl := happ.unique happ₁
    refine ⟨db', hdb', hcomplete, (cons.inj hkeys).1,
      fun columns hin => hfits columns (hkeys ▸ hin), fun pk hpk => ?_⟩
    by_cases hk : ∃ k ∈ ks, pk = ⟨rep k⟩
    · obtain ⟨k, hk, rfl⟩ := hk
      exact congrArg rep (hks k hk).1
    · rw [hother pk fun k hin heq => hk ⟨k, hin, heq⟩] at hpk
      exact hrep pk hpk

end stores

/-! ## The state along a run -/

section run

variable {σ : Type} [TableState σ] {key_cols : List Nat} {w : Nat}

/-- The state of a table that started with `w` columns. -/
structure Extends (S : Store σ key_cols w) (s : Base × σ) (table : VRow → Option Row) : Prop where
  key : s.1.primary_key = some key_cols
  columns : ∀ c ∈ key_cols, c < w
  defaults : s.1.defaults ≠ []
  width : w ≤ s.1.defaults.length
  unmodified : s.1.unmodified = true → s.1.defaults.length = w
  content : ∃ (m : Multiset VRow) (rows : VRow → Option Row), S.Holds s.2 m ∧
    (∀ k, rowsOf key_cols k m = rowBag (rows k)) ∧
    ∀ k, StandsFor key_cols w s.1 k (rows k) (table k)

/-- An event is handled as it would be with every row extended: it gets through, the rows that are
    taken out are in the state, and the state afterwards, with its rows extended, is the table. -/
def Handled (Holds : σ → Multiset VRow → Prop) (key_cols : List Nat) (s : Base × σ)
    (e : TableEvent) (table' : VRow → Option Row) : Prop :=
  ∃ records s' m m', Base.step s e = some (records, s') ∧ Holds s.2 m ∧
    Applies m (Records.changes records) m' ∧ Holds s'.2 m' ∧ Matches key_cols s'.1 m' table'

namespace Extends

variable {S : Store σ key_cols w} {b : Base} {db : σ} {table table' : VRow → Option Row}
  {ops : List TableOperation}

theorem matches_table (h : Extends S (b, db) table) {m : Multiset VRow}
    {rows : VRow → Option Row} (hm : ∀ k, rowsOf key_cols k m = rowBag (rows k))
    (hrows : ∀ k, StandsFor key_cols w b k (rows k) (table k)) : Matches key_cols b m table := by
  intro k
  rw [hm k, ← rowBag_congr (hrows k).extended]
  cases hk : rows k with
  | none => rfl
  | some r =>
    have hval : b.extended (Row.val r) = Row.val (b.fix r) := by
      rw [fix_eq h.unmodified ((hrows k).stored r hk).1, Row.val_append, Base.extended,
        Row.length_val]
      simp only [Row.val, map_drop]
    show ({Row.val r} : Multiset VRow).map b.extended = {Row.val (b.fix r)}
    rw [Multiset.map_singleton, hval]

/-- **A new column.** The state stays, and its rows stand for longer ones. -/
theorem add_column (h : Extends S (b, db) table) {default : DataType}
    (htable : TableStep key_cols table (.addColumn default) table') :
    ∃ b', b.add_column default = some b' ∧ Extends S (b', db) table' := by
  have hne : b.defaults.isEmpty = false := by simpa using h.defaults
  obtain ⟨m, rows, hdb, hm, hrows⟩ := h.content
  refine ⟨{ b with defaults := b.defaults ++ [default], unmodified := false }, ?_,
    h.key, h.columns, by simp, ?_, by rintro ⟨⟩, m, rows, hdb, hm, ?_⟩
  · simp [Base.add_column, hne]
  · have hwidth : w ≤ b.defaults.length := h.width
    have hlonger : (b.defaults ++ [default]).length = b.defaults.length + 1 := by simp
    show w ≤ (b.defaults ++ [default]).length
    omega
  · intro k
    rw [htable k]
    exact (hrows k).add_column h.unmodified default

/-- **A batch that leaves the short rows alone.** Every row it takes out is in the table, and it
    leads where it would lead with every row extended. -/
theorem batch (h : Extends S (b, db) table) (hops : LeavesShort key_cols S.Written b db ops)
    (htable : TableStep key_cols table (.batch ops) table') :
    ∃ records m m' db', b.process ops db = some records ∧
      TableState.process_records db records = some db' ∧ S.Holds db m ∧
      Applies m (Records.changes records) m' ∧ S.Holds db' m' ∧
      Matches key_cols b m' table' ∧ Extends S (b, db') table' := by
  obtain ⟨m, rows, hdb, hm, hrows⟩ := h.content
  have hwidth : w ≤ b.defaults.length := h.width
  have hcols : ∀ c ∈ key_cols, c < b.defaults.length := fun c hc =>
    lt_of_lt_of_le (h.columns c hc) hwidth
  have hfound : ∀ op ∈ ops, ∃ key was, key_of key_cols op = some key ∧
      Base.get_current key_cols db key = some was ∧ SameValues was (rows (Row.val key)) := by
    intro op hop
    obtain ⟨key, hkey⟩ := isSome_iff_exists.mp (hops.wellFormed op hop).key
    obtain ⟨was, hwas⟩ :=
      S.found hdb (hops.written op hop key hkey) (length_key_of hkey) (hm (Row.val key))
    exact ⟨key, was, hkey, hwas⟩
  -- a short row is found short, so that only inserts come to it
  have hshort : ∀ k r, rows k = some r → r.length < b.defaults.length →
      ∀ op ∈ opsOn key_cols k ops, op.isInsert = true := by
    intro k r hr hlt op hop
    obtain ⟨hin, hon⟩ := mem_filter.mp hop
    obtain ⟨key, was, hkey, hcurrent, hwas⟩ := hfound op hin
    rw [decide_eq_true_iff, hkey] at hon
    obtain rfl : Row.val key = k := some.inj hon
    rw [hr] at hwas
    refine hops.short op hin key hkey ?_
    cases was with
    | none => cases hwas
    | some row =>
      simp only [Base.isShort, hcurrent, decide_eq_true_eq]
      rw [hwas.length_eq]
      exact hlt
  choose rows' hstands hfold using fun k =>
    (hrows k).run h.unmodified hwidth hcols hops.wellFormed (hshort k) (htable k)
  obtain ⟨ks, was, current, hreplaces, hprocess⟩ :=
    process_replacements h.key (.inr le_rfl) hfound hops.sorts hfold
  obtain ⟨rest, hrest⟩ := exists_rest hm ks.toFinset
  have happ := hreplaces.applies hrest
  obtain ⟨db', hdb', hholds⟩ := S.takes hdb hwidth hops.wellFormed hops.written hreplaces happ
  have hm' := hreplaces.rowsOf_after hm hrest (fun k => (hstands k).rowAt) hfold
  have hafter : Extends S (b, db') table' := ⟨h.key, h.columns, h.defaults, h.width, h.unmodified,
    _, rows', hholds, hm', hstands⟩
  exact ⟨_, m, _, db', hprocess, hdb', hdb, happ, hholds, hafter.matches_table hm' hstands, hafter⟩

theorem step {s : Base × σ} (h : Extends S s table) {e : TableEvent}
    (he : Careful key_cols S.Written s e) (htable : TableStep key_cols table e table') :
    Handled S.Holds key_cols s e table' ∧
      ∃ records s', Base.step s e = some (records, s') ∧ Extends S s' table' := by
  obtain ⟨b, db⟩ := s
  cases e with
  | addColumn default =>
    obtain ⟨b', hb', hafter⟩ := h.add_column htable
    obtain ⟨m, rows, hdb, hm, hrows⟩ := hafter.content
    have hstep : Base.step (b, db) (.addColumn default) = some ([], (b', db)) := by
      simp [Base.step, hb']
    exact ⟨⟨[], (b', db), m, m, hstep, hdb, .nil m, hdb, hafter.matches_table hm hrows⟩,
      [], (b', db), hstep, hafter⟩
  | batch ops =>
    obtain ⟨records, m, m', db', hprocess, hdb', hdb, happ, hholds, hmatches, hafter⟩ :=
      h.batch he htable
    have hstep : Base.step (b, db) (.batch ops) = some (records, (b, db')) := by
      simp [Base.step, hprocess, hdb']
    exact ⟨⟨records, (b, db'), m, m', hstep, hdb, happ, hholds, hmatches⟩,
      records, (b, db'), hstep, hafter⟩

/-- A run of careful events gets through, and follows the table. -/
theorem run {s₀ : Base × σ} (h : Extends S s₀ fun _ => none) {events done : List TableEvent}
    (hrun : TableRun key_cols done table)
    (hcareful : Machine.Guarded Base.step s₀ (Careful key_cols S.Written) events)
    {rest : List TableEvent} (hsplit : events = done ++ rest) :
    ∃ out s, Machine.feed Base.step s₀ done = some (out, s) ∧ Extends S s table := by
  induction hrun generalizing rest with
  | start => exact ⟨[], s₀, rfl, h⟩
  | @next done table table' e _ htable ih =>
    rw [append_assoc] at hsplit
    obtain ⟨out, s, hfeed, hs⟩ := ih hsplit
    obtain ⟨-, records, s', hstep, hs'⟩ :=
      hs.step (hcareful done e rest out s hsplit hfeed) htable
    exact ⟨out ++ [records], s', Machine.feed_snoc hfeed hstep, hs'⟩

/-- From an empty state, every event of a careful run is handled. -/
theorem handled {db₀ : σ} (hholds : S.Holds db₀ 0) (hcols : ∀ c ∈ key_cols, c < w)
    (hkey : b.primary_key = some key_cols) (hdefaults : b.defaults ≠ [])
    (hwidth : b.defaults.length = w) {events before rest : List TableEvent} {e : TableEvent}
    (hcareful : Machine.Guarded Base.step (b, db₀) (Careful key_cols S.Written) events)
    (hsplit : events = before ++ e :: rest) (hrun : TableRun key_cols before table)
    (htable : TableStep key_cols table e table') :
    ∃ out s, Machine.feed Base.step (b, db₀) before = some (out, s) ∧
      Handled S.Holds key_cols s e table' := by
  have hinit : Extends S (b, db₀) fun _ => none := by
    refine ⟨hkey, hcols, hdefaults, hwidth.ge, fun _ => hwidth, 0, fun _ => none, hholds,
      fun k => rfl, fun k => ⟨by rintro r ⟨⟩, rfl⟩⟩
  obtain ⟨out, s, hfeed, hs⟩ := hinit.run hrun hcareful hsplit
  exact ⟨out, s, hfeed, (hs.step (hcareful before e rest out s hsplit hfeed) htable).1⟩

end Extends

theorem Handled.imp {Holds Holds' : σ → Multiset VRow → Prop} {s : Base × σ} {e : TableEvent}
    {table' : VRow → Option Row} (himp : ∀ db m, Holds db m → Holds' db m)
    (h : Handled Holds key_cols s e table') : Handled Holds' key_cols s e table' := by
  obtain ⟨records, s', m, m', hstep, hm, happ, hm', hmatches⟩ := h
  exact ⟨records, s', m, m', hstep, himp _ _ hm, happ, himp _ _ hm', hmatches⟩

end run

/-- A table with two columns, the first of which is the primary key. -/
def twoColumnBase : Base := ⟨some [0], [.int 0, .int 0], [], true⟩

def emptyTable : MemoryState := ⟨[⟨[0], ∅, false, 0⟩], ∅⟩

def emptyOnDisk (checked : Bool) : PersistentState := .new checked [0] [[0]]

/-- Integers are written as `Int`. -/
def asInts (k : VRow) : Row := k.map fun
  | .int n => .int (.ofInt n)
  | _ => .none

def rowThenColumn : List TableEvent := [.batch [.insert [.int 1, .int 5]], .addColumn (.int 7)]

def newRows : TableEvent :=
  .batch [.insert [.int 2, .int 3, .int 4], .insert [.int 1, .int 9, .int 9]]

theorem twoColumnBase_careful :
    Machine.Guarded Base.step (twoColumnBase, emptyTable) (Careful [0] fun _ => True)
      (rowThenColumn ++ [newRows]) :=
  .cons (⟨by decide, by decide, by decide, by decide⟩ : LeavesShort [0] _ _ _ _) rfl <|
    .cons trivial rfl <|
      .cons (⟨by decide, by decide, by decide, by decide⟩ : LeavesShort [0] _ _ _ _) rfl <| .nil _ _

theorem twoColumnBase_careful_onDisk :
    Machine.Guarded Base.step (twoColumnBase, emptyOnDisk true)
      (Careful [0] fun key => asInts (Row.val key) = key) (rowThenColumn ++ [newRows]) :=
  .cons (⟨by decide, by decide, by decide, by decide⟩ : LeavesShort [0] _ _ _ _) rfl <|
    .cons trivial rfl <|
      .cons (⟨by decide, by decide, by decide, by decide⟩ : LeavesShort [0] _ _ _ _) rfl <| .nil _ _

/-- The table with one row. -/
def oneRow (row : Row) (k : VRow) : Option Row := if k = [.int 1] then some row else none

def twoRows (k : VRow) : Option Row :=
  if k = [.int 2] then some [.int 2, .int 3, .int 4] else oneRow [.int 1, .int 5, .int 7] k

theorem rowThenColumn_run : TableRun [0] rowThenColumn (oneRow [.int 1, .int 5, .int 7]) := by
  have hrow : TableStep [0] (fun _ => none) (.batch [.insert [.int 1, .int 5]])
      (oneRow [.int 1, .int 5]) := by
    intro k
    by_cases hk : k = [.int 1]
    · subst hk
      rfl
    · have hno : opsOn [0] k [.insert [.int 1, .int 5]] = [] := by
        simp [opsOn, key_of, Row.cols, Row.val, DataType.val, Ne.symm hk]
      rw [hno, oneRow, if_neg hk]
      rfl
  have hcolumn : TableStep [0] (oneRow [.int 1, .int 5]) (.addColumn (.int 7))
      (oneRow [.int 1, .int 5, .int 7]) := by
    intro k
    unfold oneRow
    split <;> rfl
  exact (TableRun.start.next hrow).next hcolumn

theorem newRows_step : TableStep [0] (oneRow [.int 1, .int 5, .int 7]) newRows twoRows := by
  intro k
  by_cases hk : k = [.int 1]
  · subst hk
    rfl
  · by_cases hk' : k = [.int 2]
    · subst hk'
      rfl
    · have hno : opsOn [0] k [.insert [.int 2, .int 3, .int 4], .insert [.int 1, .int 9, .int 9]] =
          [] := by
        simp [opsOn, key_of, Row.cols, Row.val, DataType.val, Ne.symm hk, Ne.symm hk']
      rw [hno, twoRows, if_neg hk', oneRow, if_neg hk]
      rfl

def rowsThenColumn : List TableEvent :=
  [.batch [.insert [.int 1, .int 5], .insert [.int 2, .int 5]], .addColumn (.int 7)]

def twoIndexes : MemoryState := ⟨[⟨[0], ∅, false, 0⟩, ⟨[1], ∅, false, 0⟩], ∅⟩

end Noria.Server

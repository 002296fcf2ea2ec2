import Mathlib.Algebra.BigOperators.Group.Finset.Piecewise
import Noria.Server.Processing
import Noria.Server.State

/-! # Base tables

  `Base::process` turns a batch of table operations into the records that change the table
  (`dataflow/src/node/special/base.rs`). For a table with a primary key the batch is handled key by
  key: the row of the key is looked up once (`was`), and threaded through the operations on it
  (`current`).

  An insert looks at `was` where it should look at `current`. So a batch does what its operations do
  one by one as long as no insert can tell the difference, the sort finds the operations of each
  key, and a row that is moved to another key is left alone there: `batch_transparent`.
-/

namespace Noria.Server

open Bag Multiset Option
open Noria.Sqlite (Record Records)

/-! ## Operations on a table -/

inductive Operation where
  | add
  | sub
  deriving DecidableEq

inductive Modification where
  | set (v : DataType)
  | apply (op : Operation) (v : DataType)
  | none
  deriving DecidableEq

inductive TableOperation where
  | insert (row : Row)
  | delete (key : Row)
  | insertOrUpdate (row : Row) (update : List Modification)
  | update (set : List Modification) (key : Row)
  deriving DecidableEq

def TableOperation.isInsert : TableOperation → Bool
  | .insert _ => true
  | _ => false

/-- What is done to a row that is found. -/
def TableOperation.modifications : TableOperation → List Modification
  | .update set _ => set
  | .insertOrUpdate _ mods => mods
  | _ => []

/-- Is there a row after the operation, when there is one before it or not? -/
def TableOperation.leaves (live : Bool) : TableOperation → Bool
  | .insert _ => true
  | .delete _ => false
  | .insertOrUpdate _ _ => true
  | .update _ _ => live

def Operation.eval : Operation → Int → Int → Int
  | .add, old, delta => old + delta
  | .sub, old, delta => old - delta

/-- `Modification::Apply` on a cell; `none` where the cell does not exist, a
    value is not an integer or the result not an `i64`. -/
def Operation.combine (op : Operation) (cell : Option DataType) (v : DataType) :
    Option DataType := do
  let old ← cell.bind DataType.to_i128
  let delta ← v.to_i128
  DataType.from_i128 (op.eval old delta)

/-- The modifications of a row, from a given column on. -/
def modifyFrom (future : Row) (col : Nat) : List Modification → Option Row
  | [] => some future
  | .set v :: update =>
    if col < future.length then modifyFrom (future.set col v) (col + 1) update else none
  | .apply op v :: update => do
    let new ← op.combine future[col]? v
    modifyFrom (future.set col new) (col + 1) update
  | .none :: update => modifyFrom future (col + 1) update

/-- The key an operation is about: the `i`'th value of a key that is given,
    the key columns of a row otherwise. -/
def key_of (key_cols : List Nat) : TableOperation → Option Row
  | .insert row => row.cols key_cols
  | .delete key => key.cols (List.range key_cols.length)
  | .update _ key => key.cols (List.range key_cols.length)
  | .insertOrUpdate row _ => row.cols key_cols

/-- What an operation makes of the `current` row of its key, when the table
    has had the row `was` before the batch. -/
def applyOp (was current : Option Row) : TableOperation → Option (Option Row)
  | .insert row => if was.isSome then some current else some (some row)
  | .delete _ => some none
  | .update set _ =>
    match current with
    | none => some none
    | some row => (modifyFrom row 0 set).map some
  | .insertOrUpdate row update =>
    match current with
    | none => some (some row)
    | some current => (modifyFrom current 0 update).map some

/-- `PartialEq` on optional rows. -/
def sameRow : Option Row → Option Row → Bool
  | none, none => true
  | some r, some s => r == s
  | _, _ => false

/-- The records that replace one row of the table by another. -/
def replaceRow (was current : Option Row) : Records :=
  if sameRow current was then []
  else (was.map Record.negative).toList ++ (current.map Record.positive).toList

/-! ## The base node -/

structure Base where
  primary_key : Option (List Nat)
  defaults : Row
  dropped : List Nat
  unmodified : Bool

/-- What a base table asks of its state, which is kept in memory or on disk. -/
class TableState (σ : Type) where
  lookup : σ → List Nat → Row → Option LookupResult
  process_records : σ → Records → Option σ

instance : TableState MemoryState where
  lookup := MemoryState.lookup
  process_records db records := (db.process_records records none).map Prod.snd

namespace Base

variable {σ : Type} [TableState σ]

/-- A new column, for a table that has been given defaults for its first
    columns; the assertion fails on others. -/
def add_column (b : Base) (default : DataType) : Option Base :=
  if b.defaults.isEmpty then none
  else some { b with defaults := b.defaults ++ [default], unmodified := false }

/-- Rows from before a column was added get the default. -/
def fix (b : Base) (row : Row) : Row :=
  if b.unmodified then row else row ++ b.defaults.drop row.length

def fixRecord (b : Base) (r : Record) : Record := r.withRow (b.fix r.row)

/-- `get_current`: the row of a key, which has to be unique. -/
def get_current (key_cols : List Nat) (db : σ) (key : Row) : Option (Option Row) :=
  if keyLength key.length then
    match TableState.lookup db key_cols key with
    | some (.some []) => some none
    | some (.some [row]) => some (some row)
    | _ => none
  else none

/-- The operations on one key. -/
def process_key (key_cols : List Nat) (db : σ) (ops : List (Row × TableOperation)) :
    Option Records := do
  let (this_key, _) ← ops.head?
  let was ← get_current key_cols db this_key
  let current ← ops.foldlM (fun current op => applyOp was current op.2) was
  some (replaceRow was current)

def process (b : Base) (ops : List TableOperation) (db : σ) : Option Records :=
  match b.primary_key, ops with
  | some key_cols, _ :: _ => do
    let keyed ← keyedBy (key_of key_cols) ops
    let parts ← (groupsOf keyed).mapM (process_key key_cols db)
    some (parts.flatten.map b.fixRecord)
  | _, _ => ops.mapM fun
    | .insert row => some (.positive (b.fix row))
    | _ => none

/-- A batch is processed against the table, and the result goes into it. -/
def apply (b : Base) (db : σ) (ops : List TableOperation) : Option σ := do
  let records ← b.process ops db
  TableState.process_records db records

def applyEach (b : Base) (db : σ) (ops : List TableOperation) : Option σ :=
  ops.foldlM (fun db op => b.apply db [op]) db

/-- `merge_committed_packets`: one batch out of the data of several
    packets, in the order they came in. -/
def merge_packets (packets : List (List TableOperation)) : List TableOperation :=
  packets.foldl (fun acc data => acc ++ data) []

end Base

section Rows

variable {r s o o' was current c : Option Row} {update : List Modification} {w : Nat} {k : VRow}
  {op : TableOperation} {key : Row} {key_cols : List Nat}

/-! ## One row -/

def SameValues (r s : Option Row) : Prop := r.map Row.val = s.map Row.val

theorem SameValues.isSome (h : SameValues r s) : r.isSome = s.isSome := by
  have hsome := congrArg Option.isSome h
  rwa [Option.isSome_map, Option.isSome_map] at hsome

theorem sameRow_iff : sameRow r s = true ↔ SameValues r s := by
  cases r <;> cases s <;> simp [sameRow, SameValues, Row.beq_iff_val]

/-- The number of an integer. -/
def Value.int? : Value → Option Int
  | .int n => some n
  | _ => none

theorem to_i128_eq_int? (d : DataType) : d.to_i128 = Value.int? d.val := by
  cases d <;> rfl

theorem Row.val_set (r : Row) (col : Nat) (v : DataType) :
    Row.val (r.set col v) = (Row.val r).set col v.val := List.map_set ..

theorem modifyFrom_sameValues {r s : Row} (h : Row.val r = Row.val s) (col : Nat)
    (update : List Modification) :
    Option.Rel (fun r' s' => Row.val r' = Row.val s') (modifyFrom r col update)
      (modifyFrom s col update) := by
  have hlen : r.length = s.length := by rw [← Row.length_val, h, Row.length_val]
  induction update generalizing r s col with
  | nil => exact .some h
  | cons m update ih =>
    cases m with
    | set v =>
      unfold modifyFrom
      rw [hlen]
      split
      · exact ih (by rw [Row.val_set, Row.val_set, h]) _ (by simpa using hlen)
      · exact .none
    | apply op v =>
      have hcol : r[col]?.bind DataType.to_i128 = s[col]?.bind DataType.to_i128 := by
        have hval := congrArg (·[col]?) h
        simp only [Row.val, List.getElem?_map] at hval
        have hbind := congrArg (·.bind Value.int?) hval
        simpa only [Option.bind_map, Function.comp_def, ← to_i128_eq_int?] using hbind
      have hcombine : op.combine r[col]? v = op.combine s[col]? v := by
        simp only [Operation.combine, hcol]
      unfold modifyFrom
      rw [bind_eq_bind, hcombine]
      cases op.combine s[col]? v with
      | none => exact .none
      | some new => exact ih (by rw [Row.val_set, Row.val_set, h]) _ (by simpa using hlen)
    | none => exact ih h _ hlen

/-- A modification of one cell. -/
def modifyCell (cell : Option DataType) : Modification → Option DataType
  | .set v => cell.map fun _ => v
  | .apply op v => op.combine cell v
  | .none => cell

theorem modifyCell_val {d d' : DataType} (h : d.val = d'.val) (m : Modification) :
    (modifyCell (some d) m).map DataType.val = (modifyCell (some d') m).map DataType.val := by
  cases m with
  | set v => rfl
  | apply op v =>
    simp only [modifyCell, Operation.combine, bind_some, to_i128_eq_int?, h]
  | none => exact congrArg some h

/-- Modifications work cell by cell. -/
theorem modifyFrom_cells {r r' : Row} {col : Nat} (h : modifyFrom r col update = some r') :
    r'.length = r.length ∧ (∀ c < col, r'[c]? = r[c]?) ∧
      ∀ c, r'[col + c]? = modifyCell r[col + c]? (update[c]?.getD .none) := by
  induction update generalizing r col with
  | nil =>
    cases h
    exact ⟨rfl, fun _ _ => rfl, fun _ => rfl⟩
  | cons m update ih =>
    -- the first modification is at `col`, and the rest starts after it
    have hcell : ∀ r₁ : Row, r₁.length = r.length → (∀ c, c ≠ col → r₁[c]? = r[c]?) →
        r₁[col]? = modifyCell r[col]? m → modifyFrom r₁ (col + 1) update = some r' →
        r'.length = r.length ∧ (∀ c < col, r'[c]? = r[c]?) ∧
          ∀ c, r'[col + c]? = modifyCell r[col + c]? ((m :: update)[c]?.getD .none) := by
      intro r₁ hlen hother hfirst h₁
      obtain ⟨hlen', hlow, hhigh⟩ := ih h₁
      refine ⟨hlen'.trans hlen, fun c hc => ?_, fun c => ?_⟩
      · rw [hlow c (by omega), hother c (by omega)]
      · cases c with
        | zero =>
          rw [Nat.add_zero, hlow col (by omega), hfirst]
          rfl
        | succ c =>
          have hshift : col + (c + 1) = col + 1 + c := by omega
          rw [hshift, hhigh c, hother _ (by omega)]
          rfl
    cases m with
    | set v =>
      unfold modifyFrom at h
      split at h
      · exact hcell (r.set col v) (by simp) (fun c hc => List.getElem?_set_ne (Ne.symm hc))
          List.getElem?_set_self' h
      · cases h
    | apply op v =>
      obtain ⟨new, hnew, h⟩ := bind_eq_some_iff.mp h
      refine hcell (r.set col new) (by simp) (fun c hc => List.getElem?_set_ne (Ne.symm hc)) ?_ h
      rw [List.getElem?_set_self', modifyCell, hnew]
      cases hold : r[col]? with
      | none => simp [Operation.combine, hold] at hnew
      | some d => rfl
    | none => exact hcell r rfl (fun _ _ => rfl) rfl h

theorem applyOp_sameValues {was' current' : Option Row} (hwas : was.isSome = was'.isSome)
    (h : SameValues current current') (op : TableOperation) :
    Option.Rel SameValues (applyOp was current op) (applyOp was' current' op) := by
  have hmodify : ∀ (r s : Row) (update : List Modification), Row.val r = Row.val s →
      Option.Rel SameValues ((modifyFrom r 0 update).map some)
        ((modifyFrom s 0 update).map some) := by
    intro r s update hrs
    have hrel := modifyFrom_sameValues hrs 0 update
    generalize modifyFrom r 0 update = x at hrel
    generalize modifyFrom s 0 update = y at hrel
    cases hrel with
    | none => exact .none
    | some hval => exact .some (congrArg some hval)
  cases op with
  | insert row =>
    simp only [applyOp, hwas]
    split
    · exact .some h
    · exact .some rfl
  | delete key => exact .some rfl
  | update set key =>
    cases current <;> cases current' <;> try cases h
    · exact .some rfl
    · exact hmodify _ _ _ (some.inj h)
  | insertOrUpdate row update =>
    cases current <;> cases current' <;> try cases h
    · exact .some rfl
    · exact hmodify _ _ _ (some.inj h)

/-! ## One key -/

/-- An operation on a row that is looked up just before it. -/
def stepOp (current : Option Row) (op : TableOperation) : Option (Option Row) :=
  applyOp current current op

theorem foldlM_stepOp_sameValues {c' : Option Row} (h : SameValues c c')
    (ops : List TableOperation) :
    Option.Rel SameValues (ops.foldlM stepOp c) (ops.foldlM stepOp c') :=
  foldlM_option_rel (fun _ _ op _ hcc => applyOp_sameValues hcc.isSome hcc op) h

theorem stepOp_isSome (h : stepOp current op = some c) : c.isSome = op.leaves current.isSome := by
  have hmodify : ∀ {row : Row} {update : List Modification},
      (modifyFrom row 0 update).map some = some c → c.isSome = true := by
    intro row update hc
    obtain ⟨r, -, rfl⟩ := map_eq_some_iff.mp hc
    rfl
  cases op with
  | insert row =>
    cases current <;> cases h <;> rfl
  | delete key =>
    cases h
    rfl
  | update set key =>
    cases current with
    | none =>
      cases h
      rfl
    | some row => exact hmodify h
  | insertOrUpdate row update =>
    cases current with
    | none =>
      cases h
      rfl
    | some row => exact hmodify h

/-- Can no insert of a batch tell whether it is asked for the row now or for the row before the
    batch? `had` says whether the table has had a row, and `live` whether there is one now. -/
def safeInserts (had : Bool) : Bool → List TableOperation → Bool
  | _, [] => true
  | live, op :: ops => (!op.isInsert || live == had) && safeInserts had (op.leaves live) ops

/-- **The operations on one key** do in a batch what they do one by one. -/
theorem foldlM_applyOp {ops : List TableOperation}
    (h : safeInserts was.isSome current.isSome ops = true) :
    ops.foldlM (applyOp was) current = ops.foldlM stepOp current := by
  induction ops generalizing current with
  | nil => rfl
  | cons op ops ih =>
    rw [safeInserts, Bool.and_eq_true] at h
    have hop : applyOp was current op = stepOp current op := by
      cases op with
      | insert row =>
        have hlive : current.isSome = was.isSome := by simpa [TableOperation.isInsert] using h.1
        simp only [stepOp, applyOp, hlive]
      | _ => rfl
    rw [List.foldlM_cons, List.foldlM_cons, hop]
    cases hstep : stepOp current op with
    | none => rfl
    | some c => exact ih ((stepOp_isSome hstep).symm ▸ h.2)

/-! ### Where rows go -/

/-- A row of the table has `w` columns. -/
def TableOperation.Sized (w : Nat) : TableOperation → Prop
  | .insert row => row.length = w
  | .insertOrUpdate row _ => row.length = w
  | _ => True

instance (w : Nat) : DecidablePred (TableOperation.Sized w)
  | .insert row => inferInstanceAs (Decidable (row.length = w))
  | .insertOrUpdate row _ => inferInstanceAs (Decidable (row.length = w))
  | .delete _ => .isTrue trivial
  | .update _ _ => .isTrue trivial

/-- The key that a row with a given key has after it is modified. -/
def movedKey (key_cols : List Nat) (key : Row) (update : List Modification) : Option Row :=
  (key_cols.zip key).mapM fun p => modifyCell (some p.2) (update[p.1]?.getD .none)

/-- A row with the given key and `w` columns. -/
def RowAt (key_cols : List Nat) (w : Nat) (k : VRow) (o : Option Row) : Prop :=
  ∀ r, o = some r → r.length = w ∧ VRow.proj key_cols (Row.val r) = k

theorem movedKey_eq {r r' : Row} (h : modifyFrom r 0 update = some r')
    (hcols : ∀ c ∈ key_cols, c < r.length) (hkey : VRow.proj key_cols (Row.val r) = Row.val key) :
    ∃ key', movedKey key_cols key update = some key' ∧
      VRow.proj key_cols (Row.val r') = Row.val key' := by
  obtain ⟨hlen, -, hcells⟩ := modifyFrom_cells h
  induction key_cols generalizing key with
  | nil => exact ⟨[], rfl, rfl⟩
  | cons c cols ih =>
    cases key with
    | nil => cases hkey
    | cons d ds =>
      obtain ⟨hd, hds⟩ := List.cons.inj hkey
      obtain ⟨ds', hds', hval⟩ := ih (List.forall_mem_cons.mp hcols).2 hds
      obtain ⟨d₀, hd₀, hval₀⟩ := Row.getElem?_val r (hcols c List.mem_cons_self)
      have hlt' : c < r'.length := hlen ▸ hcols c List.mem_cons_self
      obtain ⟨e, he, hvale⟩ := Row.getElem?_val r' hlt'
      -- the cell of the row and the value of the key are modified alike
      have hcell := hcells c
      rw [Nat.zero_add, hd₀, he] at hcell
      have hsame := modifyCell_val (hval₀.trans hd) (update[c]?.getD .none)
      rw [← hcell, map_some] at hsame
      obtain ⟨d', hd', hvald⟩ := map_eq_some_iff.mp hsame.symm
      refine ⟨d' :: ds', ?_, ?_⟩
      · rw [movedKey, List.zip_cons_cons, List.mapM_cons, hd']
        rw [movedKey] at hds'
        rw [hds']
        rfl
      · exact congrArg₂ List.cons (hvale.symm.trans hvald.symm) hval

/-- The row after an operation: none, the one before it, the one that it gives, or the one before
    it as it is modified. -/
inductive Leaves (current : Option Row) (op : TableOperation) : Option Row → Prop
  | none : Leaves current op none
  | kept : Leaves current op current
  | given {row : Row} (hkey : ∀ key_cols, key_of key_cols op = row.cols key_cols)
      (hsized : ∀ {w}, op.Sized w → row.length = w) : Leaves current op (some row)
  | modified {row r : Row} (hcurrent : current = some row)
      (h : modifyFrom row 0 op.modifications = some r) : Leaves current op (some r)

theorem applyOp_leaves (h : applyOp was current op = some c) : Leaves current op c := by
  cases op with
  | insert row =>
    simp only [applyOp] at h
    split at h
    · cases h
      exact .kept
    · cases h
      exact .given (fun _ => rfl) id
  | delete key =>
    cases h
    exact .none
  | update set key =>
    cases current with
    | none =>
      cases h
      exact .none
    | some row =>
      obtain ⟨r, hr, rfl⟩ := map_eq_some_iff.mp h
      exact .modified rfl hr
  | insertOrUpdate row update =>
    cases current with
    | none =>
      cases h
      exact .given (fun _ => rfl) id
    | some row =>
      obtain ⟨r, hr, rfl⟩ := map_eq_some_iff.mp h
      exact .modified rfl hr

/-- Where an operation leaves the row of a key: there, or where its modifications move it. -/
theorem applyOp_rowAt (hcols : ∀ c ∈ key_cols, c < w) (hcurrent : RowAt key_cols w k current)
    (hop : op.Sized w) (hkey : key_of key_cols op = some key) (hk : Row.val key = k)
    (h : applyOp was current op = some c) :
    ∃ k', RowAt key_cols w k' c ∧ (k' = k ∨ current.isSome = true ∧
      ∃ key', movedKey key_cols key op.modifications = some key' ∧ Row.val key' = k') := by
  cases applyOp_leaves h with
  | none => exact ⟨k, fun _ hr => (nomatch hr), .inl rfl⟩
  | kept => exact ⟨k, hcurrent, .inl rfl⟩
  | given hgiven hsized =>
    refine ⟨k, ?_, .inl rfl⟩
    rintro _ ⟨⟩
    exact ⟨hsized hop, (Row.val_cols ((hgiven _).symm.trans hkey)).symm.trans hk⟩
  | @modified row r hrow hr =>
    obtain ⟨hlen, hproj⟩ := hcurrent row hrow
    obtain ⟨key', hkey', hval⟩ := movedKey_eq hr (hlen.symm ▸ hcols) (hproj.trans hk.symm)
    refine ⟨Row.val key', ?_, .inr ⟨hrow ▸ rfl, key', hkey', rfl⟩⟩
    rintro _ ⟨⟩
    exact ⟨(modifyFrom_cells hr).1.trans hlen, hval⟩

theorem applyOp_length (hcurrent : ∀ r, current = some r → r.length = w) (hop : op.Sized w)
    (h : applyOp was current op = some c) : ∀ r, c = some r → r.length = w := by
  cases applyOp_leaves h with
  | none => exact fun _ hr => nomatch hr
  | kept => exact hcurrent
  | given hgiven hsized =>
    rintro _ ⟨⟩
    exact hsized hop
  | modified hrow hr =>
    rintro _ ⟨⟩
    exact (modifyFrom_cells hr).1.trans (hcurrent _ hrow)

theorem RowAt.of_sameValues (h : RowAt key_cols w k o)
    (hsame : SameValues o' o) : RowAt key_cols w k o' := by
  rintro r rfl
  cases o with
  | none => cases hsame
  | some s =>
    have hval : Row.val r = Row.val s := some.inj hsame
    obtain ⟨hlen, hkey⟩ := h s rfl
    exact ⟨by rw [← Row.length_val, hval, Row.length_val, hlen], by rw [hval, hkey]⟩

/-! ## The table -/

/-- The content of a table as far as one key goes. -/
def rowBag (o : Option Row) : Multiset VRow := o.elim 0 fun r => {Row.val r}

theorem rowBag_congr (h : SameValues o o') : rowBag o = rowBag o' := by
  cases o <;> cases o' <;> try cases h
  · rfl
  · rename_i r s
    have hval : Row.val r = Row.val s := some.inj h
    show ({Row.val r} : Multiset VRow) = {Row.val s}
    rw [hval]

theorem rowsOf_rowBag (h : RowAt key_cols w k o) (j : VRow) :
    rowsOf key_cols j (rowBag o) = if j = k then rowBag o else 0 := by
  cases o with
  | none => split <;> rfl
  | some r =>
    have hkey := (h r rfl).2
    split
    · rename_i hj
      exact filter_eq_self.mpr fun v hv => by rw [mem_singleton.mp hv, hkey, hj]
    · rename_i hj
      refine filter_eq_nil.mpr fun v hv => ?_
      rw [mem_singleton.mp hv, hkey]
      exact Ne.symm hj

theorem rowAt_of_rowsOf {m : Multiset VRow}
    (h : rowsOf key_cols k m = rowBag o) {r : Row} (hr : o = some r) :
    RowAt key_cols r.length k o := by
  subst hr
  rintro _ ⟨⟩
  have hmem : Row.val r ∈ rowsOf key_cols k m := by
    rw [h]
    exact mem_singleton_self _
  exact ⟨rfl, (mem_filter.mp hmem).2⟩

theorem rowsOf_sum {rows : VRow → Option Row}
    (h : ∀ k, ∃ w, RowAt key_cols w k (rows k)) (S : Finset VRow) (j : VRow) :
    rowsOf key_cols j (∑ k ∈ S, rowBag (rows k)) = if j ∈ S then rowBag (rows j) else 0 := by
  have hsum : rowsOf key_cols j (∑ k ∈ S, rowBag (rows k)) =
      ∑ k ∈ S, rowsOf key_cols j (rowBag (rows k)) := by
    induction S using Finset.induction_on with
    | empty => rfl
    | insert k S hk ih =>
      rw [Finset.sum_insert hk, Finset.sum_insert hk, ← ih]
      exact filter_add ..
  rw [hsum, Finset.sum_congr rfl fun k _ => rowsOf_rowBag (h k).choose_spec j, Finset.sum_ite_eq]

/-- The rows of some keys, and the others. -/
theorem exists_rest {m : Multiset VRow} {rows : VRow → Option Row}
    (h : ∀ k, rowsOf key_cols k m = rowBag (rows k)) (S : Finset VRow) :
    ∃ rest, m = ∑ k ∈ S, rowBag (rows k) + rest := by
  have hsum : m.filter (fun v => VRow.proj key_cols v ∈ S) = ∑ k ∈ S, rowBag (rows k) := by
    induction S using Finset.induction_on with
    | empty => exact filter_eq_nil.mpr fun v _ hv => absurd hv (Finset.notMem_empty _)
    | insert k S hk ih =>
      have hsplit := filter_add_filter (fun v => VRow.proj key_cols v = k)
        (fun v => VRow.proj key_cols v ∈ S) m
      have hboth : m.filter (fun v => VRow.proj key_cols v = k ∧ VRow.proj key_cols v ∈ S) = 0 :=
        filter_eq_nil.mpr fun v _ hv => hk (hv.1 ▸ hv.2)
      rw [hboth, add_zero] at hsplit
      rw [Finset.sum_insert hk, ← ih, ← h k]
      simp only [Finset.mem_insert]
      exact hsplit.symm
  refine ⟨m.filter fun v => ¬VRow.proj key_cols v ∈ S, ?_⟩
  rw [← hsum]
  exact (filter_add_not _ m).symm

/-- The records that replace a row do so. -/
theorem replaceRow_applies (was current : Option Row) :
    Applies (rowBag was) (Records.changes (replaceRow was current)) (rowBag current) := by
  unfold replaceRow
  split
  · rename_i hsame
    rw [rowBag_congr (sameRow_iff.mp hsame)]
    exact .nil _
  · have hold : Applies (rowBag was) (Records.changes (was.map Record.negative).toList) 0 := by
      cases was with
      | none => exact .nil _
      | some r =>
        exact .del (.nil 0)
    have hnew : Applies 0 (Records.changes (current.map Record.positive).toList)
        (rowBag current) := by
      cases current with
      | none => exact .nil _
      | some r => exact .ins (.nil _)
    have happend : Records.changes ((was.map Record.negative).toList ++
        (current.map Record.positive).toList) = _ := Records.changes_append _ _
    rw [happend]
    exact hold.append hnew

/-- The state of a base node with `w` columns has an index on the primary key. -/
structure Indexed (b : Base) (key_cols : List Nat) (w : Nat) (db : MemoryState) : Prop where
  own : key_cols ∈ db.keys
  length : keyLength key_cols.length = true
  columns : ∀ key ∈ db.keys, ∀ c ∈ key, c < w
  full : b.unmodified = true ∨ b.defaults.length ≤ w

theorem get_current_eq {db : MemoryState} {m : Multiset VRow}
    (hdb : db.Complete m) (hown : key_cols ∈ db.keys) (hlength : keyLength key_cols.length = true)
    (hkey : key.length = key_cols.length) (ho : rowsOf key_cols (Row.val key) m = rowBag o) :
    ∃ was, Base.get_current key_cols db key = some was ∧ SameValues was o := by
  obtain ⟨rs, hlookup, hrs⟩ := hdb.lookup hown hkey
  rw [ho] at hrs
  have hfound : TableState.lookup db key_cols key = some (.some rs) := hlookup
  unfold Base.get_current
  rw [hkey, if_pos hlength, hfound]
  cases o with
  | none =>
    have hnil : rs = [] := by simpa [rowBag] using hrs
    subst hnil
    exact ⟨none, rfl, rfl⟩
  | some r =>
    have hcard := congrArg Multiset.card hrs
    rw [coe_card, List.length_map] at hcard
    obtain ⟨row, rfl⟩ := List.length_eq_one_iff.mp hcard
    have hval : Row.val row = Row.val r := by simpa [rowBag] using hrs
    exact ⟨some row, rfl, congrArg some hval⟩

theorem process_key_eq {σ : Type} [TableState σ] {db : σ}
    {rest : List (Row × TableOperation)} (hwas : Base.get_current key_cols db key = some was) :
    Base.process_key key_cols db ((key, op) :: rest) =
      ((((key, op) :: rest).map Prod.snd).foldlM (applyOp was) was).map (replaceRow was) := by
  unfold Base.process_key
  rw [List.foldlM_map]
  simp only [List.head?_cons, bind_eq_bind, bind_some, hwas]
  cases ((key, op) :: rest).foldlM (fun current op => applyOp was current op.2) was <;> rfl

/-! ## Batches -/

def opsOn (key_cols : List Nat) (k : VRow) (ops : List TableOperation) : List TableOperation :=
  ops.filter fun op => (key_of key_cols op).map Row.val = some k

/-- What an operation does to a table, seen as its rows by key. -/
def stepTable (key_cols : List Nat) (rows : VRow → Option Row) (op : TableOperation) :
    Option (VRow → Option Row) := do
  let key ← key_of key_cols op
  let row ← stepOp (rows (Row.val key)) op
  some (Function.update rows (Row.val key) row)

/-- Operations on different keys do not meet: the table they lead to is, at
    each key, what the operations on that key lead to. -/
theorem foldlM_stepTable {ops : List TableOperation}
    (hkeys : ∀ op ∈ ops, ∃ key, key_of key_cols op = some key) (rows : VRow → Option Row) :
    (∃ rows', ops.foldlM (stepTable key_cols) rows = some rows' ∧
      ∀ k, (opsOn key_cols k ops).foldlM stepOp (rows k) = some (rows' k)) ∨
    (ops.foldlM (stepTable key_cols) rows = none ∧
      ∃ k, (opsOn key_cols k ops).foldlM stepOp (rows k) = none) := by
  induction ops generalizing rows with
  | nil => exact .inl ⟨rows, rfl, fun k => rfl⟩
  | cons op ops ih =>
    obtain ⟨key, hkey⟩ := hkeys op List.mem_cons_self
    have hself : opsOn key_cols (Row.val key) (op :: ops) =
        op :: opsOn key_cols (Row.val key) ops := by
      simp [opsOn, hkey]
    have hother : ∀ k, k ≠ Row.val key → opsOn key_cols k (op :: ops) = opsOn key_cols k ops := by
      intro k hk
      simp [opsOn, hkey, Ne.symm hk]
    cases hstep : stepOp (rows (Row.val key)) op with
    | none =>
      refine .inr ⟨?_, Row.val key, ?_⟩
      · simp [List.foldlM_cons, stepTable, hkey, hstep]
      · rw [hself, List.foldlM_cons, hstep]
        rfl
    | some row =>
      have hfirst : stepTable key_cols rows op = some (Function.update rows (Row.val key) row) := by
        simp [stepTable, hkey, hstep]
      -- after the first operation, each key has the rest of its operations to go
      have hrest : ∀ k, (opsOn key_cols k (op :: ops)).foldlM stepOp (rows k) =
          (opsOn key_cols k ops).foldlM stepOp (Function.update rows (Row.val key) row k) := by
        intro k
        by_cases hk : k = Row.val key
        · subst hk
          rw [hself, List.foldlM_cons, hstep, Function.update_self]
          rfl
        · rw [hother k hk, Function.update_of_ne hk]
      simp only [List.foldlM_cons, hfirst, hrest]
      exact ih (List.forall_mem_cons.mp hkeys).2 _

/-- Does the sort bring the operations of each key together? The order of values is a total one on
    values of one kind only; where no key occurs twice, any order will do. -/
def SortsByKey (key_cols : List Nat) (ops : List TableOperation) : Prop :=
  (∀ op ∈ ops, ∀ op' ∈ ops,
    (key_of key_cols op).map Row.kinds = (key_of key_cols op').map Row.kinds) ∨
  (ops.map fun op => (key_of key_cols op).map Row.val).Nodup

instance (key_cols : List Nat) (ops : List TableOperation) : Decidable (SortsByKey key_cols ops) :=
  inferInstanceAs (Decidable (_ ∨ _))

/-- Where an operation moves the row of its key to another key, do the operations after it leave
    both keys alone? `live` says which keys have a row now. -/
def movesApart (key_cols : List Nat) (live : VRow → Bool) : List TableOperation → Bool
  | [] => true
  | op :: ops =>
    match key_of key_cols op with
    | none => true
    | some key =>
      let k := Row.val key
      (match movedKey key_cols key op.modifications with
        | none => true
        | some key' => !live k || Row.val key' == k ||
          (opsOn key_cols k ops == [] && opsOn key_cols (Row.val key') ops == [])) &&
      movesApart key_cols (Function.update live k (op.leaves (live k))) ops

/-- What a batch has to be like for its keys to be told apart, and for its
    operations to find what they would find one by one. -/
structure Separable (key_cols : List Nat) (w : Nat) (had : VRow → Bool)
    (ops : List TableOperation) : Prop where
  sized : ∀ op ∈ ops, op.Sized w
  sorts : SortsByKey key_cols ops
  inserts : ∀ op ∈ ops, ∀ key ∈ key_of key_cols op,
    safeInserts (had (Row.val key)) (had (Row.val key)) (opsOn key_cols (Row.val key) ops) = true
  moves : movesApart key_cols had ops = true

theorem length_key_of (h : key_of key_cols op = some key) :
    key.length = key_cols.length := by
  cases op with
  | insert row => exact Row.length_cols h
  | delete key => exact (Row.length_cols h).trans List.length_range
  | update set key => exact (Row.length_cols h).trans List.length_range
  | insertOrUpdate row update => exact Row.length_cols h

theorem map_fixRecord {b : Base} (hfull : b.unmodified = true ∨ b.defaults.length ≤ w)
    {rs : Records} (hrs : ∀ r ∈ rs, r.row.length = w) : rs.map b.fixRecord = rs := by
  refine (List.map_congr_left fun r hr => ?_).trans (List.map_id _)
  have hfix : b.fix r.row = r.row := by
    unfold Base.fix
    split
    · rfl
    · rename_i hmod
      rcases hfull with hun | hle
      · exact absurd hun hmod
      · rw [hrs r hr, List.drop_eq_nil_of_le hle, List.append_nil]
  unfold Base.fixRecord
  rw [hfix]
  cases r <;> rfl

theorem length_of_mem_replaceRow (hwas : ∀ r, was = some r → r.length = w)
    (hcurrent : ∀ r, current = some r → r.length = w) {r : Record}
    (hr : r ∈ replaceRow was current) : r.row.length = w := by
  unfold replaceRow at hr
  split at hr
  · cases hr
  · rcases List.mem_append.mp hr with hr | hr
    · cases was with
      | none => cases hr
      | some row =>
        rw [List.mem_singleton.mp hr]
        exact hwas row rfl
    · cases current with
      | none => cases hr
      | some row =>
        rw [List.mem_singleton.mp hr]
        exact hcurrent row rfl

end Rows

section parts

variable {σ : Type} [TableState σ] {b : Base} {key_cols : List Nat} {w : Nat} {db : σ}
  {m : Multiset VRow} {rows rows' was current : VRow → Option Row} {ops : List TableOperation}
  {ks : List VRow}

/-- What a batch does: the row of each key in `ks`, as it is found, is
    replaced by what the operations on the key make of it. -/
structure Replaces (key_cols : List Nat) (w : Nat) (ops : List TableOperation) (db : σ)
    (rows rows' : VRow → Option Row) (ks : List VRow) (was current : VRow → Option Row) :
    Prop where
  nodup : ks.Nodup
  others : ∀ k, k ∉ ks → opsOn key_cols k ops = []
  found : ∀ k ∈ ks, ∃ op ∈ ops, ∃ key, key_of key_cols op = some key ∧ Row.val key = k ∧
    Base.get_current key_cols db key = some (was k)
  before : ∀ k, SameValues (was k) (rows k)
  run : ∀ k, (opsOn key_cols k ops).foldlM (applyOp (was k)) (was k) = some (current k)
  after : ∀ k, SameValues (current k) (rows' k)
  width : ∀ k, ∀ r ∈ replaceRow (was k) (current k), r.row.length = w

/-- On every key the operations lead from a row of the one table to one of the other. -/
def GetsThrough (key_cols : List Nat) (w : Nat) (ops : List TableOperation)
    (rows rows' : VRow → Option Row) : Prop :=
  ∀ k was, SameValues was (rows k) → ∃ current,
    (opsOn key_cols k ops).foldlM (applyOp was) was = some current ∧
    SameValues current (rows' k) ∧ ∀ r ∈ replaceRow was current, r.row.length = w

/-- The records of a batch. -/
def replacements (ks : List VRow) (was current : VRow → Option Row) : Records :=
  ks.flatMap fun k => replaceRow (was k) (current k)

theorem Replaces.length_row (h : Replaces key_cols w ops db rows rows' ks was current) :
    ∀ r ∈ replacements ks was current, r.row.length = w := by
  intro r hr
  obtain ⟨k, -, hr⟩ := List.mem_flatMap.mp hr
  exact h.width k r hr

/-- A batch is handled key by key. -/
theorem process_eq (hkey : b.primary_key = some key_cols)
    (hfound : ∀ op ∈ ops, ∃ key was, key_of key_cols op = some key ∧
      Base.get_current key_cols db key = some was ∧ SameValues was (rows (Row.val key)))
    (hsorts : SortsByKey key_cols ops) :
    ∃ (ks : List VRow) (was : VRow → Option Row), ks.Nodup ∧
      (∀ k, k ∉ ks → opsOn key_cols k ops = []) ∧ (∀ k, SameValues (was k) (rows k)) ∧
      (∀ k ∈ ks, ∃ op ∈ ops, ∃ key, key_of key_cols op = some key ∧ Row.val key = k ∧
        Base.get_current key_cols db key = some (was k)) ∧
      b.process ops db = (ks.mapM fun k => ((opsOn key_cols k ops).foldlM (applyOp (was k))
        (was k)).map (replaceRow (was k))).map fun parts => parts.flatten.map b.fixRecord := by
  cases ops with
  | nil =>
    refine ⟨[], rows, List.nodup_nil, fun k _ => rfl, fun k => rfl, fun k hk => (nomatch hk), ?_⟩
    unfold Base.process
    rw [hkey]
    rfl
  | cons op₀ ops₀ =>
    generalize hlist : op₀ :: ops₀ = ops at hfound hsorts
    obtain ⟨keyed, hkeyed, hsnd, hkeyof⟩ := keyedBy_eq fun op hop =>
      let ⟨key, _, hkey, _⟩ := hfound op hop
      ⟨key, hkey⟩
    have hmem : ∀ e ∈ keyed, e.2 ∈ ops := fun e he => hsnd ▸ List.mem_map_of_mem he
    obtain ⟨ks, hnodup, hks, hgroups⟩ : ∃ ks : List VRow, ks.Nodup ∧
        (∀ k, k ∈ ks ↔ ∃ e ∈ keyed, Row.val e.1 = k) ∧
        groupsOf keyed = ks.map fun k => keyed.filter fun e => Row.val e.1 = k := by
      rcases hsorts with hkinds | hdistinct
      · refine groupsOf_eq fun a ha c hc => ?_
        have hsame := hkinds a.2 (hmem a ha) c.2 (hmem c hc)
        rw [hkeyof a ha, hkeyof c hc] at hsame
        exact some.inj hsame
      · refine groupsOf_of_nodup ?_
        rw [← hsnd, List.map_map, List.map_congr_left fun e he => by
          rw [Function.comp_apply, hkeyof e he, map_some]] at hdistinct
        exact .of_map some (by rwa [List.map_map])
    -- the operations of a group are those on its key
    have hgroup : ∀ k, (keyed.filter fun e => Row.val e.1 = k).map Prod.snd =
        opsOn key_cols k ops := by
      intro k
      rw [opsOn, ← hsnd, List.filter_map]
      congr 1
      refine List.filter_congr fun e he => ?_
      simp [hkeyof e he]
    have hpart : ∀ k, ∃ was, SameValues was (rows k) ∧ (k ∈ ks →
        (∃ op ∈ ops, ∃ key, key_of key_cols op = some key ∧ Row.val key = k ∧
          Base.get_current key_cols db key = some was) ∧
        Base.process_key key_cols db (keyed.filter fun e => Row.val e.1 = k) =
          ((opsOn key_cols k ops).foldlM (applyOp was) was).map (replaceRow was)) := by
      intro k
      by_cases hk : k ∈ ks
      · -- the key of the first operation of the group is looked up
        obtain ⟨e, he, hek⟩ := (hks k).mp hk
        have hne : (keyed.filter fun e => Row.val e.1 = k) ≠ [] :=
          List.ne_nil_of_mem (List.mem_filter.mpr ⟨he, decide_eq_true hek⟩)
        rw [← hgroup]
        obtain ⟨⟨key, op⟩, rest, hfirst⟩ := List.exists_cons_of_ne_nil hne
        obtain ⟨hin, hval⟩ := List.mem_filter.mp (hfirst ▸ List.mem_cons_self : (key, op) ∈ _)
        obtain rfl : Row.val key = k := of_decide_eq_true hval
        have hopkey : key_of key_cols op = some key := hkeyof _ hin
        obtain ⟨key', was, hkey', hwas, hsame⟩ := hfound op (hmem _ hin)
        obtain rfl : key = key' := some.inj (hopkey.symm.trans hkey')
        exact ⟨was, hsame, fun _ => ⟨⟨op, hmem _ hin, key, hopkey, rfl, hwas⟩,
          hfirst ▸ process_key_eq hwas⟩⟩
      · exact ⟨rows k, rfl, fun h => absurd h hk⟩
    choose was hsame hprocess using hpart
    refine ⟨ks, was, hnodup, fun k hk => ?_, hsame, fun k hk => (hprocess k hk).1, ?_⟩
    · rw [← hgroup, List.map_eq_nil_iff, List.filter_eq_nil_iff]
      intro e he hek
      exact hk ((hks k).mpr ⟨e, he, of_decide_eq_true hek⟩)
    · rw [← mapM_option_congr fun k hk => (hprocess k hk).2]
      subst hlist
      unfold Base.process
      rw [hkey]
      simp only [hkeyed, hgroups, bind_eq_bind, bind_some, List.mapM_map]
      rw [map_eq_bind]
      rfl

/-- Where the operations get through on every key, so does the batch. -/
theorem process_replacements (hkey : b.primary_key = some key_cols)
    (hfull : b.unmodified = true ∨ b.defaults.length ≤ w)
    (hfound : ∀ op ∈ ops, ∃ key was, key_of key_cols op = some key ∧
      Base.get_current key_cols db key = some was ∧ SameValues was (rows (Row.val key)))
    (hsorts : SortsByKey key_cols ops)
    (hfold : GetsThrough key_cols w ops rows rows') :
    ∃ ks was current, Replaces key_cols w ops db rows rows' ks was current ∧
      b.process ops db = some (replacements ks was current) := by
  obtain ⟨ks, was, hnodup, hno, hsame, hlooked, hprocess⟩ := process_eq hkey hfound hsorts
  choose current hrun hcurrent hwidth using fun k => hfold k (was k) (hsame k)
  have hreplaces : Replaces key_cols w ops db rows rows' ks was current :=
    ⟨hnodup, hno, hlooked, hsame, hrun, hcurrent, hwidth⟩
  refine ⟨ks, was, current, hreplaces, ?_⟩
  rw [hprocess, mapM_option_map (g := fun k => replaceRow (was k) (current k))
    fun k _ => by rw [hrun]; rfl, map_some, ← List.flatMap_def]
  exact congrArg some (map_fixRecord hfull hreplaces.length_row)

/-- The records replace the rows of the keys, and leave the rest of the table as it is. -/
theorem Replaces.applies (h : Replaces key_cols w ops db rows rows' ks was current)
    {rest : Multiset VRow} (hm : m = ∑ k ∈ ks.toFinset, rowBag (rows k) + rest) :
    Applies m (Records.changes (replacements ks was current))
      (∑ k ∈ ks.toFinset, rowBag (rows' k) + rest) := by
  have hpart : ∀ k ∈ ks, Applies (rowBag (rows k))
      (Records.changes (replaceRow (was k) (current k))) (rowBag (rows' k)) := by
    intro k _
    rw [← rowBag_congr (h.before k), ← rowBag_congr (h.after k)]
    exact replaceRow_applies _ _
  have hparts := Applies.sum_groups ks.toFinset h.nodup (fun k hk => List.mem_toFinset.mpr hk)
    hpart fun k hk hnot => absurd (List.mem_toFinset.mp hk) hnot
  have hchanges : Records.changes (replacements ks was current) =
      (ks.map fun k => Records.changes (replaceRow (was k) (current k))).flatten := by
    simp only [replacements, Records.changes, List.flatMap_def, List.map_flatten, List.map_map]
    rfl
  rw [hchanges, hm]
  exact hparts.add_right rest

/-- Where rows stay at their keys, the table has the new row of each key afterwards. -/
theorem Replaces.rowsOf_after (h : Replaces key_cols w ops db rows rows' ks was current)
    (hm : ∀ k, rowsOf key_cols k m = rowBag (rows k)) {rest : Multiset VRow}
    (hrest : m = ∑ k ∈ ks.toFinset, rowBag (rows k) + rest)
    (hat : ∀ k, ∃ w, RowAt key_cols w k (rows' k))
    (hfold : GetsThrough key_cols w ops rows rows') (k : VRow) :
    rowsOf key_cols k (∑ k ∈ ks.toFinset, rowBag (rows' k) + rest) = rowBag (rows' k) := by
  have hrows : ∀ k, ∃ w, RowAt key_cols w k (rows k) := by
    intro k
    cases hr : rows k with
    | none => exact ⟨0, fun r hr => nomatch hr⟩
    | some r => exact ⟨r.length, hr ▸ rowAt_of_rowsOf (hm k) hr⟩
  have hbefore := hm k
  rw [hrest, rowsOf, filter_add] at hbefore
  rw [rowsOf, filter_add]
  have hold := rowsOf_sum hrows ks.toFinset k
  have hnew := rowsOf_sum hat ks.toFinset k
  rw [rowsOf] at hold hnew
  rw [hold] at hbefore
  rw [hnew]
  split at hbefore
  · rename_i hk
    rw [if_pos hk, add_eq_left.mp hbefore, add_zero]
  · -- no operation on this key, which keeps its row
    rename_i hk
    obtain ⟨c, hc, hsame, -⟩ := hfold k (rows k) rfl
    rw [h.others k fun hin => hk (List.mem_toFinset.mpr hin)] at hc
    obtain rfl : rows k = c := some.inj hc
    rw [if_neg hk, hbefore, rowBag_congr hsame]

end parts

section keyed_batch

variable {b : Base} {key_cols : List Nat} {w : Nat} {db : MemoryState} {m : Multiset VRow}
  {rows rows' : VRow → Option Row} {op : TableOperation} {ops : List TableOperation} {key : Row}

/-- A state in memory takes records of the full width in. -/
theorem MemoryState.Complete.takes (hdb : db.Complete m)
    (hcolumns : ∀ key ∈ db.keys, ∀ c ∈ key, c < w) {rs : Records}
    (hwidth : ∀ r ∈ rs, r.row.length = w) {m' : Multiset VRow}
    (happ : Applies m (Records.changes rs) m') :
    ∃ db', TableState.process_records db rs = some db' ∧ db'.Complete m' ∧ db'.keys = db.keys := by
  obtain ⟨db', hdb', hafter⟩ := hdb.process_records (fun r hr s hs c hc => by
    rw [hwidth r hr]
    exact hcolumns s.key (List.mem_map_of_mem hs) c hc) happ
  exact ⟨db', congrArg (Option.map Prod.snd) hdb', hafter⟩

/-- What is found of the keys of a batch. -/
theorem get_currents_eq (hdb : db.Complete m) (hown : key_cols ∈ db.keys)
    (hlength : keyLength key_cols.length = true) (hm : ∀ k, rowsOf key_cols k m = rowBag (rows k))
    (hkeys : ∀ op ∈ ops, ∃ key, key_of key_cols op = some key) :
    ∀ op ∈ ops, ∃ key was, key_of key_cols op = some key ∧
      Base.get_current key_cols db key = some was ∧ SameValues was (rows (Row.val key)) := by
  intro op hop
  obtain ⟨key, hkey⟩ := hkeys op hop
  obtain ⟨was, hwas⟩ := get_current_eq hdb hown hlength (length_key_of hkey) (hm (Row.val key))
  exact ⟨key, was, hkey, hwas⟩

/-- Where the operations get through on every key, the batch replaces the rows of its keys, and
    leaves the rest of the table as it is. -/
theorem process_applies (hkey : b.primary_key = some key_cols) (hdb : db.Complete m)
    (hindexed : Indexed b key_cols w db) (hm : ∀ k, rowsOf key_cols k m = rowBag (rows k))
    (hkeys : ∀ op ∈ ops, ∃ key, key_of key_cols op = some key) (hsorts : SortsByKey key_cols ops)
    (hfold : GetsThrough key_cols w ops rows rows') :
    ∃ S rest db', (∀ k, k ∉ S → opsOn key_cols k ops = []) ∧
      m = ∑ k ∈ S, rowBag (rows k) + rest ∧ b.apply db ops = some db' ∧
      db'.Complete (∑ k ∈ S, rowBag (rows' k) + rest) := by
  obtain ⟨ks, was, current, hreplaces, hprocess⟩ := process_replacements hkey hindexed.full
    (get_currents_eq hdb hindexed.own hindexed.length hm hkeys) hsorts hfold
  obtain ⟨rest, hrest⟩ := exists_rest hm ks.toFinset
  obtain ⟨db', hdb', hcomplete, -⟩ :=
    hdb.takes hindexed.columns hreplaces.length_row (hreplaces.applies hrest)
  refine ⟨ks.toFinset, rest, db', fun k hk => ?_, hrest, ?_, hcomplete⟩
  · exact hreplaces.others k fun hin => hk (List.mem_toFinset.mpr hin)
  · rw [Base.apply, hprocess]
    exact hdb'

/-! ### One by one -/

theorem process_single (hkey : b.primary_key = some key_cols) (hdb : db.Complete m)
    (hindexed : Indexed b key_cols w db) {o : Option Row} (hopkey : key_of key_cols op = some key)
    (ho : rowsOf key_cols (Row.val key) m = rowBag o) :
    ∃ was, SameValues was o ∧ b.process [op] db =
      ((stepOp was op).map (replaceRow was)).map (List.map b.fixRecord) := by
  obtain ⟨was, hwas, hsame⟩ :=
    get_current_eq hdb hindexed.own hindexed.length (length_key_of hopkey) ho
  refine ⟨was, hsame, ?_⟩
  have hkeyed : keyedBy (key_of key_cols) [op] = some [(key, op)] := by
    simp [keyedBy, hopkey]
  have hgroups : groupsOf [(key, op)] = [[(key, op)]] := rfl
  have hfold : [op].foldlM (applyOp was) was = stepOp was op := by
    rw [List.foldlM_cons, stepOp]
    cases applyOp was was op <;> rfl
  unfold Base.process
  rw [hkey]
  simp only [hkeyed, hgroups, bind_eq_bind, bind_some, List.mapM_cons, process_key_eq hwas,
    List.map_cons, List.map_nil, hfold]
  cases stepOp was op <;> simp

/-- One operation replaces the row that is found for its key. -/
theorem apply_single (hkey : b.primary_key = some key_cols) {frame : Multiset VRow}
    {o : Option Row} (hdb : db.Complete (rowBag o + frame)) (hindexed : Indexed b key_cols w db)
    (hopkey : key_of key_cols op = some key)
    (ho : rowsOf key_cols (Row.val key) (rowBag o + frame) = rowBag o)
    (hlen : ∀ r, o = some r → r.length = w) (hop : op.Sized w) :
    Option.Rel (fun db' row => db'.Complete (rowBag row + frame) ∧ db'.keys = db.keys)
      (b.apply db [op]) (stepOp o op) := by
  obtain ⟨was, hsame, hprocess⟩ := process_single hkey hdb hindexed hopkey ho
  have hrel := applyOp_sameValues hsame.isSome hsame op
  unfold Base.apply
  rw [hprocess]
  unfold stepOp
  generalize hrow : applyOp o o op = result at hrel
  generalize hcurrent : applyOp was was op = current at hrel
  cases hrel with
  | none => exact .none
  | @some current row hrow' =>
    have hwas : ∀ r, was = some r → r.length = w := by
      rintro r rfl
      cases o with
      | none => cases hsame
      | some s =>
        have hval : Row.val r = Row.val s := some.inj hsame
        rw [← Row.length_val, hval, Row.length_val, hlen s rfl]
    have hwidth : ∀ r ∈ replaceRow was current, r.row.length = w := fun r hr =>
      length_of_mem_replaceRow hwas (applyOp_length hwas hop hcurrent) hr
    have happ := (replaceRow_applies was current).add_right frame
    rw [rowBag_congr hsame] at happ
    obtain ⟨db', hdb', hcomplete, hkeys⟩ := hdb.takes hindexed.columns hwidth happ
    simp only [map_some, map_fixRecord hindexed.full hwidth, bind_eq_bind, bind_some, hdb']
    exact .some ⟨rowBag_congr hrow' ▸ hcomplete, hkeys⟩

/-- The table while operations are handled one by one: the rows of the keys in `S` and the rest, and
    the operations to come will find the rows of their keys. -/
structure Follows (b : Base) (key_cols : List Nat) (w : Nat) (S : Finset VRow)
    (rest : Multiset VRow) (ops : List TableOperation) (db : MemoryState)
    (rows : VRow → Option Row) : Prop where
  content : db.Complete (∑ k ∈ S, rowBag (rows k) + rest)
  indexed : Indexed b key_cols w db
  found : ∀ k, opsOn key_cols k ops ≠ [] → k ∈ S ∧ RowAt key_cols w k (rows k) ∧
    rowsOf key_cols k (∑ k ∈ S, rowBag (rows k) + rest) = rowBag (rows k)

/-- The rows of the other keys, when the row of one key is replaced. -/
theorem exists_frame {S : Finset VRow} {k : VRow} (hk : k ∈ S) (rest : Multiset VRow)
    (rows : VRow → Option Row) : ∃ frame, ∀ row,
      ∑ j ∈ S, rowBag (Function.update rows k row j) + rest = rowBag row + frame := by
  refine ⟨∑ j ∈ S.erase k, rowBag (rows j) + rest, fun row => ?_⟩
  rw [← Finset.add_sum_erase S _ hk, Function.update_self, add_assoc]
  congr 2
  exact Finset.sum_congr rfl fun j hj => by rw [Function.update_of_ne (Finset.ne_of_mem_erase hj)]

theorem opsOn_cons_self {k : VRow} (hopkey : (key_of key_cols op).map Row.val = some k) :
    opsOn key_cols k (op :: ops) = op :: opsOn key_cols k ops := by
  rw [opsOn, List.filter_cons, if_pos (decide_eq_true hopkey), opsOn]

theorem opsOn_ne_nil {k : VRow} (h : opsOn key_cols k ops ≠ []) :
    opsOn key_cols k (op :: ops) ≠ [] := by
  unfold opsOn at h ⊢
  rw [List.filter_cons]
  split
  · exact List.cons_ne_nil _ _
  · exact h

/-- **One operation.** The rows that the operations after it ask for are not moved by it. -/
theorem Follows.step (hkey : b.primary_key = some key_cols) {S : Finset VRow}
    {rest : Multiset VRow} (h : Follows b key_cols w S rest (op :: ops) db rows) (hop : op.Sized w)
    (hopkey : key_of key_cols op = some key)
    (hmoves : ∀ key' ∈ movedKey key_cols key op.modifications,
      (rows (Row.val key)).isSome = true → Row.val key' ≠ Row.val key →
      opsOn key_cols (Row.val key) ops = [] ∧ opsOn key_cols (Row.val key') ops = []) :
    Option.Rel (Follows b key_cols w S rest ops) (b.apply db [op])
      (stepTable key_cols rows op) := by
  have hself : opsOn key_cols (Row.val key) (op :: ops) ≠ [] := by
    rw [opsOn_cons_self (by rw [hopkey]; rfl)]
    exact List.cons_ne_nil _ _
  obtain ⟨hk, hat, hfound⟩ := h.found _ hself
  obtain ⟨frame, hframe⟩ := exists_frame hk rest rows
  have hnow : ∑ j ∈ S, rowBag (rows j) + rest = rowBag (rows (Row.val key)) + frame := by
    rw [← hframe, Function.update_eq_self]
  have hcontent := h.content
  rw [hnow] at hcontent hfound
  have hcols : ∀ c ∈ key_cols, c < w := h.indexed.columns _ h.indexed.own
  have hone := apply_single hkey hcontent h.indexed hopkey hfound (fun r hr => (hat r hr).1) hop
  unfold stepTable
  rw [hopkey, bind_eq_bind, bind_some]
  generalize hrow : stepOp (rows (Row.val key)) op = result at hone
  generalize b.apply db [op] = after at hone
  cases hone with
  | none => exact .none
  | @some db' row hdb' =>
    obtain ⟨hcomplete, hkeys⟩ := hdb'
    rw [← hframe] at hcomplete
    refine .some ⟨hcomplete, ⟨hkeys ▸ h.indexed.own, h.indexed.length, hkeys ▸ h.indexed.columns,
      h.indexed.full⟩, fun j hj => ?_⟩
    obtain ⟨hjS, hjat, hjfound⟩ := h.found j (opsOn_ne_nil hj)
    -- the row is where it was, or where no operation to come asks for it
    obtain ⟨k', hat', hmoved⟩ := applyOp_rowAt hcols hat hop hopkey rfl hrow
    have hstays : j = k' ∨ j = Row.val key → k' = Row.val key := by
      intro hor
      rcases hmoved with rfl | ⟨hsome, key', hkey', rfl⟩
      · rfl
      · by_contra hne
        obtain ⟨hold, hnew⟩ := hmoves key' hkey' hsome hne
        rcases hor with rfl | rfl
        · exact hj hnew
        · exact hj hold
    have hothers : rowsOf key_cols j frame = if j = Row.val key then 0 else rowBag (rows j) := by
      rw [hnow, rowsOf, filter_add] at hjfound
      have hold := rowsOf_rowBag hat j
      rw [rowsOf] at hold
      rw [hold] at hjfound
      split at hjfound
      · rename_i heq
        rw [heq] at hjfound ⊢
        rw [if_pos rfl]
        exact add_eq_left.mp hjfound
      · rename_i hne
        rw [if_neg hne]
        rwa [zero_add] at hjfound
    have hrows : rowsOf key_cols j (rowBag row + frame) = rowsOf key_cols j (rowBag row) +
        rowsOf key_cols j frame := filter_add ..
    refine ⟨hjS, ?_, ?_⟩
    · by_cases heq : j = Row.val key
      · rw [heq, Function.update_self, ← hstays (.inr heq)]
        exact hat'
      · rw [Function.update_of_ne heq]
        exact hjat
    · rw [hframe, hrows, rowsOf_rowBag hat', hothers]
      by_cases heq : j = Row.val key
      · rw [if_pos (heq.trans (hstays (.inr heq)).symm), if_pos heq, heq, Function.update_self,
          add_zero]
      · have hne : j ≠ k' := fun hjk => heq (hjk.trans (hstays (.inl hjk)))
        rw [if_neg hne, if_neg heq, Function.update_of_ne heq, zero_add]

theorem Follows.each (hkey : b.primary_key = some key_cols) {S : Finset VRow}
    {rest : Multiset VRow} {live : VRow → Bool} (h : Follows b key_cols w S rest ops db rows)
    (hlive : ∀ k, live k = (rows k).isSome) (hsized : ∀ op ∈ ops, op.Sized w)
    (hkeys : ∀ op ∈ ops, ∃ key, key_of key_cols op = some key)
    (hmoves : movesApart key_cols live ops = true) :
    Option.Rel (Follows b key_cols w S rest []) (b.applyEach db ops)
      (ops.foldlM (stepTable key_cols) rows) := by
  induction ops generalizing db rows live with
  | nil => exact .some h
  | cons op ops ih =>
    obtain ⟨key, hopkey⟩ := hkeys op List.mem_cons_self
    rw [movesApart, hopkey] at hmoves
    rw [Bool.and_eq_true] at hmoves
    have hstep := h.step hkey (hsized op List.mem_cons_self) hopkey (by
      intro key' hkey' hsome hne
      have hapart := hmoves.1
      rw [mem_def.mp hkey', hlive, hsome] at hapart
      simpa [hne] using hapart)
    unfold Base.applyEach
    rw [List.foldlM_cons, List.foldlM_cons]
    refine option_rel_bind hstep fun db' rows' _ hrows' h' => ?_
    refine ih h' ?_ (List.forall_mem_cons.mp hsized).2 (List.forall_mem_cons.mp hkeys).2 hmoves.2
    -- there is a row afterwards as foreseen
    intro k
    rw [stepTable, hopkey, bind_eq_bind, bind_some, bind_eq_bind, bind_eq_some_iff] at hrows'
    obtain ⟨row, hrow, hrows'⟩ := hrows'
    cases hrows'
    by_cases hk : k = Row.val key
    · rw [hk, Function.update_self, Function.update_self, hlive, stepOp_isSome hrow]
    · rw [Function.update_of_ne hk, Function.update_of_ne hk, hlive]

end keyed_batch

/-! ## Transparency -/

/-- A keyed base table with the given rows, of `w` columns each. -/
structure Base.Stores (b : Base) (key_cols : List Nat) (w : Nat) (db : MemoryState)
    (rows : List Row) : Prop where
  key : b.primary_key = some key_cols
  complete : db.Complete (rows.map Row.val : List VRow)
  unique : (rows.map fun r => VRow.proj key_cols (Row.val r)).Nodup
  width : ∀ r ∈ rows, r.length = w
  own : key_cols ∈ db.keys
  length : keyLength key_cols.length = true
  columns : ∀ key ∈ db.keys, ∀ c ∈ key, c < w
  full : b.unmodified = true ∨ b.defaults.length ≤ w

def hasKey (key_cols : List Nat) (rows : List Row) (k : VRow) : Bool :=
  rows.any fun r => VRow.proj key_cols (Row.val r) = k

/-- Two states with the same content. -/
def SameTable (db db' : MemoryState) : Prop := ∃ m, db.Complete m ∧ db'.Complete m

theorem Base.Stores.by_key {b : Base} {key_cols : List Nat} {w : Nat} {db : MemoryState}
    {rows : List Row} (h : b.Stores key_cols w db rows) :
    (∀ k, rowsOf key_cols k (rows.map Row.val : List VRow) =
      rowBag (rows.find? fun r => VRow.proj key_cols (Row.val r) = k)) ∧
    ∀ k, RowAt key_cols w k (rows.find? fun r => VRow.proj key_cols (Row.val r) = k) := by
  refine ⟨fun k => ?_, fun k r hr => ?_⟩
  · have hunique := h.unique
    clear h
    induction rows with
    | nil => rfl
    | cons r rows ih =>
      rw [List.map_cons, List.nodup_cons] at hunique
      rw [List.map_cons, ← cons_coe, rowsOf, filter_cons, List.find?_cons]
      by_cases hk : VRow.proj key_cols (Row.val r) = k
      · -- no other row has this key
        have hnone : rowsOf key_cols k (rows.map Row.val : List VRow) = 0 := by
          rw [rowsOf, filter_eq_nil]
          rintro v hv rfl
          obtain ⟨r', hr', rfl⟩ := List.mem_map.mp (mem_coe.mp hv)
          exact hunique.1 (List.mem_map.mpr ⟨r', hr', hk.symm⟩)
        rw [rowsOf] at hnone
        simp [hk, hnone, rowBag]
      · simp only [hk, decide_false, if_false, zero_add]
        exact ih hunique.2
  · have hfound := List.find?_some hr
    exact ⟨h.width r (List.mem_of_find?_eq_some hr), by simpa using hfound⟩

section transparent

variable {b : Base} {key_cols : List Nat} {w : Nat} {db : MemoryState} {rows : List Row}
  {ops : List TableOperation}

/-- An operation without a key panics, in a batch and on its own. -/
theorem apply_without_key (hkey : b.primary_key = some key_cols)
    (h : ∃ op ∈ ops, key_of key_cols op = none) (db : MemoryState) : b.apply db ops = none := by
  cases ops with
  | nil => obtain ⟨op, hop, -⟩ := h; cases hop
  | cons op₀ ops₀ =>
    have hkeyed : keyedBy (key_of key_cols) (op₀ :: ops₀) = none := by
      obtain ⟨op, hop, hnone⟩ := h
      exact mapM_option_none ⟨op, hop, by rw [hnone]; rfl⟩
    unfold Base.apply Base.process
    rw [hkey]
    simp [hkeyed]

end transparent

def keyedBase : Base := ⟨some [0], [], [], true⟩

def keyedState : MemoryState :=
  ⟨[⟨[0], AssocMap.insert ∅ [.int 1] [[.int 1, .int 5]], false, 1⟩], ∅⟩

theorem keyedBase_stores : keyedBase.Stores [0] 2 keyedState [[.int 1, .int 5]] := by
  have hempty : MemoryState.withKeys [[0]] = some ⟨[⟨[0], ∅, false, 0⟩], ∅⟩ := rfl
  obtain ⟨hcomplete, -, -⟩ := MemoryState.withKeys_complete hempty
  have happ : Applies 0 (Records.changes [.positive [.int 1, .int 5]])
      {[.int 1, .int 5]} := .ins (.nil _)
  obtain ⟨db, hdb, hfilled, -⟩ := hcomplete.process_records (by decide) happ
  have hstate : (⟨[⟨[0], ∅, false, 0⟩], ∅⟩ : MemoryState).process_records
      [.positive [.int 1, .int 5]] none = some ([.positive [.int 1, .int 5]], keyedState) := rfl
  cases hdb
  exact ⟨rfl, hfilled, by decide, by decide, by decide, rfl, by decide, .inl rfl⟩

/-- A row is updated, another one comes and goes and comes again, and the first one is moved. -/
def mixedOps : List TableOperation :=
  [.update [.none, .apply .add (.int 2)] [.int 1], .insert [.int 2, .int 7], .delete [.int 2],
    .insertOrUpdate [.int 1, .int 0] [.none, .set (.int 9)], .insert [.int 2, .int 8],
    .insert [.int 1, .int 3], .update [.apply .add (.int 3)] [.int 1]]

def replaceOps : List TableOperation := [.delete [.int 1], .insert [.int 1, .int 6]]

end Noria.Server

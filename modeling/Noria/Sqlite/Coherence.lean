import Noria.Sqlite.Engine
import Noria.Sqlite.Keyed

/-! # Coherence of a view with its table

  A table in SQLite, an engine beside it that is told of every change of the table, and a view
  `SELECT <columns> FROM t WHERE c = ?` in the engine, perhaps with further conditions on the rows.
  The state of the view has no mark for a key that has been filled: a key is found when the state
  has a row for it, whether the row came from an upquery or from a change. `Site.Coherent` is the
  invariant that makes lookups right all the same, namely that the state has for every key no row or
  all rows of the table that pass, and `Site.Careful` says which calls keep it.
-/

namespace Noria.Sqlite

open Bag List

/-! ## Stored rows as values -/

section Values

variable {F : Type} (venv : ValueEnv F)

/-- What a stored value denotes in the engine. -/
def SqliteValue.value (v : SqliteValue F) : Value :=
  ((v.to_datatype venv).map DataType.val).getD .null

def SqliteRow.values (s : SqliteRow F) : VRow := s.map (SqliteValue.value venv)

def SqliteRow.select (sel : List Nat) (s : SqliteRow F) : SqliteRow F :=
  sel.map fun c => s.getD c .null

/-- Every value of the row can be converted. The one that cannot is a text
    of more than `TINYTEXT_WIDTH` bytes with a NUL byte in it. -/
def SqliteRow.Convertible (s : SqliteRow F) : Prop := ∀ v ∈ s, (v.to_datatype venv).isSome = true

variable {venv}

theorem SqliteRow.getD_values (s : SqliteRow F) (c : Nat) :
    (SqliteRow.values venv s).getD c .null = (s.getD c .null).value venv := by
  unfold SqliteRow.values
  rw [getD_eq_getElem?_getD, getD_eq_getElem?_getD, getElem?_map]
  cases s[c]? <;> rfl

theorem SqliteRow.values_select (sel : List Nat) (s : SqliteRow F) :
    SqliteRow.values venv (SqliteRow.select sel s) = VRow.proj sel (SqliteRow.values venv s) := by
  unfold SqliteRow.select VRow.proj
  rw [SqliteRow.values, map_map]
  exact map_congr_left fun c _ => (SqliteRow.getD_values s c).symm

theorem SqliteRow.Convertible.mapM {s : SqliteRow F} (h : SqliteRow.Convertible venv s) :
    ∃ row : Row, s.mapM (·.to_datatype venv) = some row ∧
      Row.val row = SqliteRow.values venv s := by
  refine Row.mapM_val fun v hv => ?_
  obtain ⟨d, hd⟩ := Option.isSome_iff_exists.mp (h v hv)
  exact ⟨d, hd, by rw [SqliteValue.value, hd]; rfl⟩

theorem SqliteRow.Convertible.select {s : SqliteRow F} (h : SqliteRow.Convertible venv s)
    (sel : List Nat) : SqliteRow.Convertible venv (SqliteRow.select sel s) := by
  intro v hv
  obtain ⟨c, -, rfl⟩ := mem_map.mp hv
  rw [getD_eq_getElem?_getD]
  cases hc : s[c]? with
  | none => rfl
  | some v => exact h v (mem_of_getElem? hc)

end Values

/-! ## A table, an engine and a view -/

/-- A table and a view, and what does not change about them. -/
structure Setting (F : Type) where
  venv : ValueEnv F
  /-- SQLite's `c = ?`: a stored value against a bound one. -/
  equal : SqliteValue F → SqliteValue F → Bool
  table : String
  names : List String
  view : NoriaView

/-- The content of the table in SQLite, and the engine. -/
structure Deployment (F : Type) where
  rows : Multiset (SqliteRow F)
  engine : NoriaEngine

/-- A change of the table, with the rows the engine is passed, or a
    lookup, with the connection an upquery would run on. -/
inductive Call (F : Type) where
  | insert (stored : SqliteRow F) (row : Row)
  | delete (stored : SqliteRow F) (row : Row)
  | update (old : SqliteRow F) (old_row : Row) (new : SqliteRow F) (new_row : Row)
  | lookup (conn : Connection F) (key : DataType)

namespace Setting

variable {F : Type} (site : Setting F)

/-- One call: what SQLite and the engine do, and what a lookup returns. -/
def perform [DecidableEq F] (w : Deployment F) : Call F →
    Outcome String (Deployment F × Option (List Row))
  | .insert stored row => do
    let engine ← Outcome.ofOption (w.engine.apply_insert_row site.table row)
    .ok (⟨stored ::ₘ w.rows, engine⟩, none)
  | .delete stored row => do
    let engine ← Outcome.ofOption (w.engine.apply_delete site.table row)
    .ok (⟨w.rows.erase stored, engine⟩, none)
  | .update old old_row new new_row => do
    let engine ← Outcome.ofOption (w.engine.apply_update_rows site.table old_row new_row)
    .ok (⟨new ::ₘ w.rows.erase old, engine⟩, none)
  | .lookup conn key => do
    let (rows, engine) ← w.engine.lookup_or_upquery site.venv conn site.view [key]
    .ok (⟨w.rows, engine⟩, some rows)

/-- A row the table can hold. -/
structure Stored (s : SqliteRow F) : Prop where
  width : s.length = site.names.length
  convertible : SqliteRow.Convertible site.venv s

/-- The engine is passed the stored row, completely and exactly. -/
structure Exact (s : SqliteRow F) (row : Row) : Prop where
  stored : site.Stored s
  val_eq : Row.val row = SqliteRow.values site.venv s

/-- Everything that is reached by calls that are allowed where they are made. -/
inductive Run [DecidableEq F] (allowed : Deployment F → Call F → Prop) (w₀ : Deployment F) :
    Deployment F → Prop where
  | start : Run allowed w₀ w₀
  | step {w w' : Deployment F} {call : Call F} {out : Option (List Row)}
      (hrun : Run allowed w₀ w) (hallowed : allowed w call)
      (hstep : site.perform w call = .ok (w', out)) : Run allowed w₀ w'

/-- What holds at the start and is kept by every allowed call holds after a run. -/
theorem Run.invariant [DecidableEq F] {site : Setting F}
    {allowed : Deployment F → Call F → Prop} {I : Deployment F → Prop} {w₀ w : Deployment F}
    (hrun : site.Run allowed w₀ w) (hstart : I w₀)
    (hkeep : ∀ w call, I w → allowed w call →
      ∃ w' out, site.perform w call = .ok (w', out) ∧ I w') :
    I w := by
  induction hrun with
  | start => exact hstart
  | step _ hallowed hstep ih =>
    obtain ⟨w', out, hperf, hI⟩ := hkeep _ _ ih hallowed
    rw [hstep] at hperf
    cases hperf
    exact hI

theorem Exact.length_eq {site : Setting F} {s : SqliteRow F} {row : Row} (h : site.Exact s row) :
    row.length = site.names.length := by
  rw [← Row.length_val, h.val_eq, SqliteRow.values, length_map, h.stored.width]

end Setting

/-! ## A lookup by one column -/

/-- A view `SELECT <columns> FROM t WHERE c = ? AND ..`. -/
structure Site (F : Type) extends Setting F where
  sel : List Nat
  c : Nat
  /-- What SQLite makes of the conditions beside `c = ?`, with the parameter bound. -/
  rest : SqliteRow F → SqliteValue F → Bool
  /-- What the filter of the view makes of them. -/
  cond : FilterCondition

namespace Site

variable {F : Type} (site : Site F)

/-- SQLite's answer to the query of the view, with the parameter bound to `p`. -/
def answer (rows : Multiset (SqliteRow F)) (p : SqliteValue F) : Multiset (SqliteRow F) :=
  (rows.filter fun s => site.equal (s.getD site.c .null) p = true ∧ site.rest s p = true).map
    (SqliteRow.select site.sel)

/-- The filter of the view lets the row pass. -/
def Passes (s : SqliteRow F) : Prop := site.cond.holds (SqliteRow.values site.venv s) = true

instance (s : SqliteRow F) : Decidable (site.Passes s) := inferInstanceAs (Decidable (_ = true))

/-- SQLite evaluates the query of the view correctly. -/
def Evaluates (w : Deployment F) (conn : Connection F) (key : DataType) : Prop :=
  ∃ stmt p rows, conn.prepare site.view.sql = .ok stmt ∧ stmt.column_count = site.sel.length ∧
    0 < stmt.parameter_count ∧ bind_value site.venv key = some p ∧ stmt.run [p] = .ok rows ∧
    (rows : Multiset (SqliteRow F)) = site.answer w.rows p

/-- The calls that can be made: what is deleted or updated is there, the
    engine is passed what changed, and SQLite works. -/
def Valid (w : Deployment F) : Call F → Prop
  | .insert stored row => site.Exact stored row
  | .delete stored row => stored ∈ w.rows ∧ site.Exact stored row
  | .update old old_row new new_row =>
    old ∈ w.rows ∧ site.Exact old old_row ∧ site.Exact new new_row
  | .lookup conn key => site.Evaluates w conn key

/-- The view has rows for the key of a row. -/
def Hit (w : Deployment F) (row : Row) : Prop :=
  ∃ d rows, row[site.c]? = some d ∧ w.engine.lookup site.view [d] = some (some rows)

/-- No row of the table that passes has the key of a row. -/
def Fresh (rows : Multiset (SqliteRow F)) (row : Row) : Prop :=
  ∀ s ∈ rows, site.Passes s →
    (s.getD site.c .null).value site.venv ≠ (Row.val row).getD site.c .null

/-- SQLite and the engine agree on the rows that match a key. -/
def Agree (rows : Multiset (SqliteRow F)) (key : DataType) : Prop :=
  ∀ p, bind_value site.venv key = some p → ∀ s ∈ rows,
    (site.equal (s.getD site.c .null) p = true ∧ site.rest s p = true ↔
      (s.getD site.c .null).value site.venv = key.val ∧ site.Passes s)

/-- The calls that keep lookups right. A row that passes may enter under a key that the view has
    rows for or the table has no other row for, and a key is looked up for which SQLite and the
    engine agree. -/
def Careful [DecidableEq F] (w : Deployment F) : Call F → Prop
  | .insert s row => site.Passes s → site.Hit w row ∨ site.Fresh w.rows row
  | .delete _ _ => True
  | .update old _ new new_row =>
    site.Passes new → site.Hit w new_row ∨ site.Fresh (w.rows.erase old) new_row
  | .lookup _ key => site.Agree w.rows key

/-- What a lookup has to return, on the columns of the query. -/
def Right (w : Deployment F) (key : DataType) (rows : List Row) : Prop :=
  ∃ p, bind_value site.venv key = some p ∧
    ((rows.map fun row => (Row.val row).take site.sel.length : List VRow) : Multiset VRow)
      = (site.answer w.rows p).map (SqliteRow.values site.venv)

/-! ## The invariant -/

/-- The row the view has for a stored row. -/
def image (s : SqliteRow F) : VRow :=
  VRow.proj (layout site.sel site.c) (SqliteRow.values site.venv s)

/-- What the view would hold of a table if every key were filled. -/
def images (rows : Multiset (SqliteRow F)) : Multiset VRow :=
  (rows.filter site.Passes).map site.image

def pos : Nat := keyPos site.sel site.c

/-- The view is the one that the query was turned into. -/
structure Fits (env : SqlEnv) (body : SelectBody) : Prop where
  keyed : KeyedSelect env body site.table site.names site.sel site.c site.cond
  view_keys : site.view.handle.key_columns = [site.pos]

/-- The engine serves the view with state `st`. -/
structure Served (w : Deployment F) (st : MemoryState) : Prop where
  stored : ∀ s ∈ w.rows, site.Stored s
  serves : w.engine.Serves site.table site.view (keyedOps site.names site.sel site.c site.cond) st
  ok : st.Ok
  keys : st.key_columns = [site.pos]

/-- **The state has for every key no row or all rows of the table that pass.** -/
structure Coherent (w : Deployment F) (st : MemoryState) : Prop extends site.Served w st where
  filled : Filled (keyAt site.pos) (site.images w.rows) st.bag

/-- The image of a row is sent to the state in a record, if the row passes. -/
def Moves (record : Row → Record) (s : SqliteRow F) (st st' : MemoryState) : Prop :=
  (site.Passes s ∧ ∃ o, Row.val o = site.image s ∧ st.process_record (record o) = some st') ∨
    (¬site.Passes s ∧ st' = st)

def Enters : SqliteRow F → MemoryState → MemoryState → Prop := site.Moves .positive

def Leaves : SqliteRow F → MemoryState → MemoryState → Prop := site.Moves .negative

variable {site}

theorem images_cons_of_passes {s : SqliteRow F} (h : site.Passes s)
    (rows : Multiset (SqliteRow F)) :
    site.images (s ::ₘ rows) = site.image s ::ₘ site.images rows := by
  rw [images, Multiset.filter_cons_of_pos _ h, Multiset.map_cons, images]

theorem images_cons_of_not {s : SqliteRow F} (h : ¬site.Passes s) (rows : Multiset (SqliteRow F)) :
    site.images (s ::ₘ rows) = site.images rows := by
  rw [images, Multiset.filter_cons_of_neg _ h, images]

theorem keyAt_image (s : SqliteRow F) :
    keyAt site.pos (site.image s) = (s.getD site.c .null).value site.venv := by
  rw [keyAt, image, pos, getD_proj_layout, SqliteRow.getD_values]

section Steps

variable {env : SqlEnv} {body : SelectBody} {w : Deployment F} {st : MemoryState}

theorem Served.rowsAt_of_hit (h : site.Served w st) {row : Row} (hhit : site.Hit w row) :
    rowsAt (keyAt site.pos) st.bag ((Row.val row).getD site.c .null) ≠ 0 := by
  obtain ⟨d, rows, hd, hlook⟩ := hhit
  rw [Row.val_getD row site.c hd]
  rcases st.lookup_single h.ok h.keys d with ⟨-, hmiss⟩ | ⟨hne, -⟩
  · rw [h.serves.lookup, hmiss] at hlook
    cases hlook
  · exact hne

theorem rowsAt_of_fresh {rows : Multiset (SqliteRow F)} {row : Row}
    (h : site.Fresh rows row) :
    rowsAt (keyAt site.pos) (site.images rows) ((Row.val row).getD site.c .null) = 0 := by
  rw [rowsAt, Multiset.filter_eq_nil]
  intro v hv hkey
  obtain ⟨s, hs, rfl⟩ := Multiset.mem_map.mp hv
  obtain ⟨hs, hpass⟩ := Multiset.mem_filter.mp hs
  rw [keyAt_image] at hkey
  exact h s hs hpass hkey

theorem pos_lt_image {o : Row} {s : SqliteRow F} (h : Row.val o = site.image s) :
    site.pos < o.length := by
  rw [← Row.length_val, h, image, VRow.length_proj]
  exact keyPos_lt_layout _ _

/-- The first record of a batch: the image of its row is sent on if the row passes. -/
theorem moves_of_imaged {s : SqliteRow F} {r : Record} {rs out : Records} (hok : st.Ok)
    (hkeys : st.key_columns = [site.pos])
    (himg : Imaged site.sel site.c site.cond (r :: rs) out) (hexact : site.Exact s r.row) :
    ∃ st₁ out₁, site.Moves r.withRow s st st₁ ∧ st₁.Ok ∧ st₁.key_columns = [site.pos] ∧
      Imaged site.sel site.c site.cond rs out₁ ∧
      st.process_records out = st₁.process_records out₁ := by
  by_cases hpass : site.Passes s
  · obtain ⟨o, out₁, rfl, ho, himg₁⟩ := himg.head (hexact.val_eq ▸ hpass)
    rw [hexact.val_eq] at ho
    have hpos : site.pos < (r.withRow o).row.length := (r.row_withRow o).symm ▸ pos_lt_image ho
    obtain ⟨st₁, hst₁, hok₁, hkeys₁⟩ := st.process_record_total hok hkeys hpos
    exact ⟨st₁, out₁, .inl ⟨hpass, o, ho, hst₁⟩, hok₁, hkeys₁, himg₁, st.process_records_cons hst₁⟩
  · exact ⟨st, out, .inr ⟨hpass, rfl⟩, hok, hkeys, himg.skip (hexact.val_eq ▸ hpass), rfl⟩

/-! ## Rows that enter and leave -/

section Moves

variable {s : SqliteRow F} {st' : MemoryState} {rows : Multiset (SqliteRow F)}

theorem Enters.filled (h : site.Enters s st st') (hok : st.Ok)
    (hfill : Filled (keyAt site.pos) (site.images rows) st.bag)
    (hkey : site.Passes s → rowsAt (keyAt site.pos) st.bag (keyAt site.pos (site.image s)) ≠ 0 ∨
      rowsAt (keyAt site.pos) (site.images rows) (keyAt site.pos (site.image s)) = 0) :
    Filled (keyAt site.pos) (site.images (s ::ₘ rows)) st'.bag := by
  rcases h with ⟨hpass, o, ho, hst'⟩ | ⟨hpass, rfl⟩
  · rw [images_cons_of_passes hpass, ← ho]
    exact st.filled_ins hok hst' hfill (ho.symm ▸ hkey hpass)
  · rw [images_cons_of_not hpass]
    exact hfill

theorem Leaves.filled (h : site.Leaves s st st') (hok : st.Ok) (hkeys : st.key_columns = [site.pos])
    (hfill : Filled (keyAt site.pos) (site.images (s ::ₘ rows)) st.bag) :
    Filled (keyAt site.pos) (site.images rows) st'.bag ∧
      ∀ k, rowsAt (keyAt site.pos) st.bag k ≠ 0 → rowsAt (keyAt site.pos) st'.bag k ≠ 0 ∨
        rowsAt (keyAt site.pos) (site.images rows) k = 0 := by
  rcases h with ⟨hpass, o, ho, hst'⟩ | ⟨hpass, rfl⟩
  · rw [images_cons_of_passes hpass, ← ho] at hfill
    exact st.filled_del hok hkeys (pos_lt_image ho) hst' hfill
  · rw [images_cons_of_not hpass] at hfill
    exact ⟨hfill, fun k hk => .inl hk⟩

end Moves

/-! ## Lookups that miss -/

/-- What is put into the cache for an answer: the selected columns of the
    row that was matched, and the key if its column is not selected. -/
def cacheRow (key : DataType) (s : SqliteRow F) : VRow :=
  SqliteRow.values site.venv (SqliteRow.select site.sel s) ++
    if site.c ∈ site.sel then [] else [key.val]

theorem length_cacheRow (key : DataType) (s : SqliteRow F) :
    (site.cacheRow key s).length = (layout site.sel site.c).length := by
  rw [cacheRow, layout, length_append, SqliteRow.values_select, VRow.length_proj]
  split
  · rfl
  · rw [length_append]
    rfl

/-- With the key of the row, that is the image of the row. -/
theorem cacheRow_eq_image {key : DataType} {s : SqliteRow F}
    (hkey : (s.getD site.c .null).value site.venv = key.val) :
    site.cacheRow key s = site.image s := by
  rw [cacheRow, image, layout, SqliteRow.values_select]
  split
  · rw [append_nil]
  · rw [← hkey, ← SqliteRow.getD_values, VRow.proj, VRow.proj, map_append]
    rfl

theorem val_row_for_cache (hfit : site.Fits env body) {n : Nat} (hn : n = site.sel.length)
    (key : DataType) {s : SqliteRow F} {row : Row}
    (hrow : Row.val row = SqliteRow.values site.venv (SqliteRow.select site.sel s)) :
    Row.val (NoriaEngine.row_for_cache (site.view.handle.key_columns.any (n ≤ ·)) [key] row)
      = site.cacheRow key s := by
  have hany : site.view.handle.key_columns.any (n ≤ ·) = decide (site.c ∉ site.sel) := by
    rw [hfit.view_keys, hn, any_cons, any_nil, Bool.or_false]
    refine decide_eq_decide.mpr ?_
    rw [← keyPos_lt_iff, pos]
    exact Nat.not_lt.symm
  rw [hany, cacheRow, ← hrow, NoriaEngine.row_for_cache]
  by_cases hc : site.c ∈ site.sel
  · rw [if_neg (by simpa using hc), if_pos hc, append_nil]
  · rw [if_pos (decide_eq_true hc), if_neg hc, Row.val_append]
    rfl

def matching (rows : Multiset (SqliteRow F)) (p : SqliteValue F) : Multiset (SqliteRow F) :=
  rows.filter fun s => site.equal (s.getD site.c .null) p = true ∧ site.rest s p = true

/-! ## What a call does -/

/-- What a valid call does to the state of the view. -/
inductive Effect [DecidableEq F] (site : Site F) (w : Deployment F) (st : MemoryState) :
    Call F → Deployment F → Option (List Row) → MemoryState → Prop where
  | insert {s : SqliteRow F} {row : Row} {eng' : NoriaEngine} {st' : MemoryState}
      (hexact : site.Exact s row) (henters : site.Enters s st st') :
      Effect site w st (.insert s row) ⟨s ::ₘ w.rows, eng'⟩ none st'
  | delete {s : SqliteRow F} {row : Row} {eng' : NoriaEngine} {st' : MemoryState}
      (hmem : s ∈ w.rows) (hleaves : site.Leaves s st st') :
      Effect site w st (.delete s row) ⟨w.rows.erase s, eng'⟩ none st'
  | update {old new : SqliteRow F} {old_row new_row : Row} {eng' : NoriaEngine}
      {st₁ st' : MemoryState} (hmem : old ∈ w.rows) (hnew : site.Exact new new_row)
      (hleaves : site.Leaves old st st₁) (hok₁ : st₁.Ok) (henters : site.Enters new st₁ st') :
      Effect site w st (.update old old_row new new_row) ⟨new ::ₘ w.rows.erase old, eng'⟩ none st'
  | hit {conn : Connection F} {key : DataType} {p : SqliteValue F} {rows : List Row}
      (hne : rowsAt (keyAt site.pos) st.bag key.val ≠ 0)
      (hp : bind_value site.venv key = some p)
      (hrows : ((rows.map Row.val : List VRow) : Multiset VRow)
        = rowsAt (keyAt site.pos) st.bag key.val) :
      Effect site w st (.lookup conn key) w (some rows) st
  | miss {conn : Connection F} {key : DataType} {p : SqliteValue F} {rows : List Row}
      {eng' : NoriaEngine} {st' : MemoryState}
      (hzero : rowsAt (keyAt site.pos) st.bag key.val = 0)
      (hp : bind_value site.venv key = some p)
      (hrows : ((rows.map Row.val : List VRow) : Multiset VRow)
        = (site.answer w.rows p).map (SqliteRow.values site.venv))
      (hbag : st'.bag = st.bag + (site.matching w.rows p).map (site.cacheRow key)) :
      Effect site w st (.lookup conn key) ⟨w.rows, eng'⟩ (some rows) st'

namespace Served

variable (hfit : site.Fits env body) (h : site.Served w st)
include hfit h

/-- What a change does: the images of its records reach the state. -/
theorem change (action : Action) (new_row old_row : Option Row) {records : Records}
    (hrec : SqliteAdapter.changeRecords action new_row old_row = some records)
    (hlen : ∀ r ∈ records, r.row.length = site.names.length) :
    ∃ out, Imaged site.sel site.c site.cond records out ∧
      ∀ st', st.process_records out = some st' →
        ∃ eng', w.engine.handle_change action site.table new_row old_row = some eng' ∧
          eng'.Serves site.table site.view (keyedOps site.names site.sel site.c site.cond) st' := by
  obtain ⟨out, himg, hflow⟩ := flow_keyed hfit.keyed st hlen
  refine ⟨out, himg, fun st' hst' => ?_⟩
  rw [hst'] at hflow
  exact h.serves.handle_change hrec hflow

theorem insert {s : SqliteRow F} {row : Row} (hexact : site.Exact s row) :
    ∃ eng' st', site.Enters s st st' ∧ w.engine.apply_insert_row site.table row = some eng' ∧
      site.Served ⟨s ::ₘ w.rows, eng'⟩ st' := by
  obtain ⟨out, himg, hserve⟩ := h.change hfit .insert (some row) none rfl
    (by simpa using hexact.length_eq)
  obtain ⟨st', out', henters, hok', hkeys', himg', hproc⟩ :=
    moves_of_imaged h.ok h.keys himg hexact
  obtain rfl := himg'.nil_iff
  obtain ⟨eng', heng, hserves⟩ := hserve st' hproc
  exact ⟨eng', st', henters, heng,
    Multiset.forall_mem_cons.mpr ⟨hexact.stored, h.stored⟩, hserves, hok', hkeys'⟩

theorem delete [DecidableEq F] {s : SqliteRow F} {row : Row} (hexact : site.Exact s row) :
    ∃ eng' st', site.Leaves s st st' ∧ w.engine.apply_delete site.table row = some eng' ∧
      site.Served ⟨w.rows.erase s, eng'⟩ st' := by
  obtain ⟨out, himg, hserve⟩ := h.change hfit .delete none (some row) rfl
    (by simpa using hexact.length_eq)
  obtain ⟨st', out', hleaves, hok', hkeys', himg', hproc⟩ :=
    moves_of_imaged h.ok h.keys himg hexact
  obtain rfl := himg'.nil_iff
  obtain ⟨eng', heng, hserves⟩ := hserve st' hproc
  exact ⟨eng', st', hleaves, heng,
    fun s' hs' => h.stored s' (Multiset.mem_of_mem_erase hs'), hserves, hok', hkeys'⟩

theorem update [DecidableEq F] {old new : SqliteRow F} {old_row new_row : Row}
    (hold : site.Exact old old_row) (hnew : site.Exact new new_row) :
    ∃ eng' st₁ st', site.Leaves old st st₁ ∧ st₁.Ok ∧ site.Enters new st₁ st' ∧
      w.engine.apply_update_rows site.table old_row new_row = some eng' ∧
      site.Served ⟨new ::ₘ w.rows.erase old, eng'⟩ st' := by
  obtain ⟨out, himg, hserve⟩ := h.change hfit .update (some new_row) (some old_row) rfl (by
    simpa using ⟨hold.length_eq, hnew.length_eq⟩)
  obtain ⟨st₁, out₁, hleaves, hok₁, hkeys₁, himg₁, hproc₁⟩ :=
    moves_of_imaged h.ok h.keys himg hold
  obtain ⟨st', out', henters, hok', hkeys', himg', hproc'⟩ :=
    moves_of_imaged hok₁ hkeys₁ himg₁ hnew
  obtain rfl := himg'.nil_iff
  obtain ⟨eng', heng, hserves⟩ := hserve st' (hproc₁.trans hproc')
  have hstored : ∀ s ∈ new ::ₘ w.rows.erase old, site.Stored s := Multiset.forall_mem_cons.mpr
    ⟨hnew.stored, fun s' hs' => h.stored s' (Multiset.mem_of_mem_erase hs')⟩
  exact ⟨eng', st₁, st', hleaves, hok₁, henters, heng, hstored, hserves, hok', hkeys'⟩

/-- A miss returns what SQLite answers and puts it into the state. -/
theorem miss {conn : Connection F} {key : DataType} (heval : site.Evaluates w conn key)
    (hmiss : st.lookup [key] = .missing) :
    ∃ p rows eng' st', bind_value site.venv key = some p ∧
      w.engine.lookup_or_upquery site.venv conn site.view [key] = .ok (rows, eng') ∧
      ((rows.map Row.val : List VRow) : Multiset VRow)
        = (site.answer w.rows p).map (SqliteRow.values site.venv) ∧
      st'.bag = st.bag + (site.matching w.rows p).map (site.cacheRow key) ∧
      site.Served ⟨w.rows, eng'⟩ st' := by
  obtain ⟨stmt, p, ans, hprep, hcols, hparams, hp, hrun, hans⟩ := heval
  -- The rows of the table behind the answer.
  obtain ⟨matched, hmatched, rfl⟩ := exists_map_of_coe_eq hans
  have hmem : ∀ s ∈ matched, s ∈ w.rows := by
    intro s hs
    have : s ∈ (matched : Multiset (SqliteRow F)) := hs
    rw [hmatched, Multiset.mem_filter] at this
    exact this.1
  -- They are converted, and completed for the cache.
  let cache : Row → Row :=
    NoriaEngine.row_for_cache (site.view.handle.key_columns.any (stmt.column_count ≤ ·)) [key]
  have hconv : ∀ s ∈ matched, ∃ row : Row,
      (SqliteRow.select site.sel s).mapM (·.to_datatype site.venv) = some row ∧
        (Row.val row = SqliteRow.values site.venv (SqliteRow.select site.sel s) ∧
          Row.val (cache row) = site.cacheRow key s) := by
    intro s hs
    obtain ⟨row, hrow, hval⟩ := ((h.stored s (hmem s hs)).convertible.select site.sel).mapM
    exact ⟨row, hrow, hval, val_row_for_cache hfit hcols key hval⟩
  obtain ⟨result, hresult, hrel⟩ := mapM_option_forall₂ hconv
  have hvals : result.map Row.val
      = matched.map fun s => SqliteRow.values site.venv (SqliteRow.select site.sel s) :=
    map_eq_of_forall₂ (hrel.imp fun _ _ hr => hr.1)
  have hcache : (result.map cache).map Row.val = matched.map (site.cacheRow key) := by
    rw [map_map]
    exact map_eq_of_forall₂ (hrel.imp fun _ _ hr => hr.2)
  have hpos : ∀ row ∈ result.map cache, site.pos < row.length := by
    intro row hrow
    have : Row.val row ∈ matched.map (site.cacheRow key) := hcache ▸ mem_map_of_mem hrow
    obtain ⟨s, -, hs⟩ := mem_map.mp this
    rw [← Row.length_val, ← hs, length_cacheRow]
    exact keyPos_lt_layout _ _
  obtain ⟨st', hst', hok', hkeys', hbag'⟩ := st.process_records_ins h.ok h.keys hpos
  have hbind : NoriaEngine.bind_key site.venv stmt 0 [key] = .ok [p] := by
    simp only [NoriaEngine.bind_key, hp, Outcome.ofOption, Outcome.ok_bind, hparams, if_true]
  obtain ⟨eng', heng, hserves⟩ := h.serves.miss hmiss hprep hbind hrun
    (by rw [mapM_map]; exact hresult) (by rw [map_map] at hst'; exact hst')
  refine ⟨p, result, eng', st', hp, heng, ?_, ?_, h.stored, hserves, hok', hkeys'⟩
  · rw [hvals, ← hans, Multiset.map_coe, map_map]
    rfl
  · rw [hbag', hcache, ← Multiset.map_coe, hmatched]
    rfl

/-- **A valid call succeeds**, and this is what it does. -/
theorem step [DecidableEq F] {call : Call F} (hvalid : site.Valid w call) :
    ∃ w' out st', site.perform w call = .ok (w', out) ∧ site.Served w' st' ∧
      site.Effect w st call w' out st' := by
  cases call with
  | insert s row =>
    obtain ⟨eng', st', henters, heng, h'⟩ := h.insert hfit hvalid
    refine ⟨_, none, st', ?_, h', .insert hvalid henters⟩
    simp only [Setting.perform, heng, Outcome.ofOption, Outcome.ok_bind]
  | delete s row =>
    obtain ⟨eng', st', hleaves, heng, h'⟩ := h.delete hfit hvalid.2
    refine ⟨_, none, st', ?_, h', .delete hvalid.1 hleaves⟩
    simp only [Setting.perform, heng, Outcome.ofOption, Outcome.ok_bind]
  | update old old_row new new_row =>
    obtain ⟨hmem, hold, hnew⟩ := hvalid
    obtain ⟨eng', st₁, st', hleaves, hok₁, henters, heng, h'⟩ := h.update hfit hold hnew
    refine ⟨_, none, st', ?_, h', .update hmem hnew hleaves hok₁ henters⟩
    simp only [Setting.perform, heng, Outcome.ofOption, Outcome.ok_bind]
  | lookup conn key =>
    rcases st.lookup_single h.ok h.keys key with ⟨hzero, hmiss⟩ | ⟨hne, rows, hlook, hrows⟩
    · obtain ⟨p, rows, eng', st', hp, heng, hrows, hbag, h'⟩ := h.miss hfit hvalid hmiss
      refine ⟨_, some rows, st', ?_, h', .miss hzero hp hrows hbag⟩
      simp only [Setting.perform, heng, Outcome.ok_bind]
    · obtain ⟨stmt, p, ans, -, -, -, hp, -, -⟩ := hvalid
      refine ⟨w, some rows, st, ?_, h, .hit hne hp hrows⟩
      simp only [Setting.perform, h.serves.hit hlook, Outcome.ok_bind]

theorem run [DecidableEq F] {w' : Deployment F} (hrun : site.Run site.Valid w w') :
    ∃ st', site.Served w' st' := by
  refine hrun.invariant (I := fun w => ∃ st, site.Served w st) ⟨st, h⟩ ?_
  rintro w call ⟨st, h⟩ hvalid
  obtain ⟨w', out, st', hperf, h', -⟩ := h.step hfit hvalid
  exact ⟨w', out, hperf, st', h'⟩

end Served

/-! ## Lookups and the rows that match -/

theorem rowsAt_images {rows : Multiset (SqliteRow F)} {key : DataType} {p : SqliteValue F}
    (hagree : site.Agree rows key) (hp : bind_value site.venv key = some p) :
    rowsAt (keyAt site.pos) (site.images rows) key.val = (site.matching rows p).map site.image := by
  rw [rowsAt, images, Multiset.filter_map, Multiset.filter_filter, matching]
  congr 1
  refine Multiset.filter_congr fun s hs => ?_
  rw [Function.comp_apply, keyAt_image, hagree p hp s hs]

/-- What is put into the cache for such a key. -/
theorem cacheRow_matching {rows : Multiset (SqliteRow F)} {key : DataType} {p : SqliteValue F}
    (hagree : site.Agree rows key) (hp : bind_value site.venv key = some p) :
    (site.matching rows p).map (site.cacheRow key)
      = rowsAt (keyAt site.pos) (site.images rows) key.val := by
  rw [rowsAt_images hagree hp]
  refine Multiset.map_congr rfl fun s hs => ?_
  obtain ⟨hin, heq⟩ := Multiset.mem_filter.mp hs
  exact cacheRow_eq_image ((hagree p hp s hin).mp heq).1

/-- The rows found under a complete key are the right ones. -/
theorem right_of_images {key : DataType} {p : SqliteValue F} {rows : List Row}
    (hagree : site.Agree w.rows key) (hp : bind_value site.venv key = some p)
    (hrows : ((rows.map Row.val : List VRow) : Multiset VRow)
      = rowsAt (keyAt site.pos) (site.images w.rows) key.val) : site.Right w key rows := by
  rw [rowsAt_images hagree hp] at hrows
  refine ⟨p, hp, ?_⟩
  have htake : ((rows.map fun row => (Row.val row).take site.sel.length : List VRow) :
      Multiset VRow) = ((rows.map Row.val : List VRow) : Multiset VRow).map
        (List.take site.sel.length) := by
    rw [Multiset.map_coe, map_map]
    rfl
  rw [htake, hrows, answer, Multiset.map_map, Multiset.map_map]
  refine Multiset.map_congr rfl fun s _ => ?_
  rw [Function.comp_apply, Function.comp_apply, image, take_proj_layout, SqliteRow.values_select]

theorem right_of_answer {key : DataType} {p : SqliteValue F} {rows : List Row}
    (hp : bind_value site.venv key = some p)
    (hrows : ((rows.map Row.val : List VRow) : Multiset VRow)
      = (site.answer w.rows p).map (SqliteRow.values site.venv)) : site.Right w key rows := by
  refine ⟨p, hp, ?_⟩
  rw [← hrows, Multiset.coe_eq_coe]
  refine .of_eq (map_congr_left fun row hrow => ?_)
  have hmem : Row.val row ∈ ((rows.map Row.val : List VRow) : Multiset VRow) :=
    mem_map_of_mem hrow
  rw [hrows, answer, Multiset.map_map] at hmem
  obtain ⟨s, -, hs⟩ := Multiset.mem_map.mp hmem
  refine take_of_length_le (Nat.le_of_eq ?_)
  rw [← hs, Function.comp_apply, SqliteRow.values_select, VRow.length_proj]

/-! ## Careful runs -/

theorem keyAt_exact {s : SqliteRow F} {row : Row} (h : site.Exact s row) :
    keyAt site.pos (site.image s) = (Row.val row).getD site.c .null := by
  rw [keyAt_image, h.val_eq, SqliteRow.getD_values]

/-- **A careful call succeeds, keeps the invariant, and a lookup returns the right rows.** -/
theorem Coherent.step [DecidableEq F] (hfit : site.Fits env body) (h : site.Coherent w st)
    {call : Call F} (hvalid : site.Valid w call) (hcareful : site.Careful w call) :
    ∃ w' out st', site.perform w call = .ok (w', out) ∧ site.Coherent w' st' ∧
      ∀ conn key, call = .lookup conn key → ∃ rows, out = some rows ∧ site.Right w key rows := by
  obtain ⟨w', out, st', hperf, hserved, heffect⟩ := h.toServed.step hfit hvalid
  refine ⟨w', out, st', hperf, ?_⟩
  cases heffect with
  | insert hexact henters =>
    refine ⟨⟨hserved, ?_⟩, nofun⟩
    refine henters.filled h.ok h.filled fun hpass => ?_
    rw [keyAt_exact hexact]
    exact (hcareful hpass).imp h.rowsAt_of_hit rowsAt_of_fresh
  | delete hmem hleaves =>
    refine ⟨⟨hserved, ?_⟩, nofun⟩
    have hfill := h.filled
    rw [← Multiset.cons_erase hmem] at hfill
    exact (hleaves.filled h.ok h.keys hfill).1
  | update hmem hnew hleaves hok₁ henters =>
    refine ⟨⟨hserved, ?_⟩, nofun⟩
    have hfill := h.filled
    rw [← Multiset.cons_erase hmem] at hfill
    obtain ⟨hfill₁, hkeep⟩ := hleaves.filled h.ok h.keys hfill
    refine henters.filled hok₁ hfill₁ fun hpass => ?_
    rw [keyAt_exact hnew]
    -- The old row is gone: a key that was found is still found, or is fresh.
    rcases hcareful hpass with hhit | hfresh
    · exact hkeep _ (h.rowsAt_of_hit hhit)
    · exact .inr (rowsAt_of_fresh hfresh)
  | hit hne hp hrows =>
    refine ⟨h, ?_⟩
    rintro conn' key' ⟨⟩
    rw [(h.filled _).resolve_left hne] at hrows
    exact ⟨_, rfl, right_of_images hcareful hp hrows⟩
  | miss hzero hp hrows hbag =>
    refine ⟨⟨hserved, ?_⟩, ?_⟩
    · rw [hbag, cacheRow_matching hcareful hp]
      exact h.filled.fill hzero
    · rintro conn' key' ⟨⟩
      exact ⟨_, rfl, right_of_answer hp hrows⟩

theorem Coherent.run [DecidableEq F] (hfit : site.Fits env body) (h : site.Coherent w st)
    {w' : Deployment F}
    (hrun : site.Run (fun w call => site.Valid w call ∧ site.Careful w call) w w') :
    ∃ st', site.Coherent w' st' := by
  refine hrun.invariant (I := fun w => ∃ st, site.Coherent w st) ⟨st, h⟩ ?_
  rintro w call ⟨st, h⟩ ⟨hvalid, hcareful⟩
  obtain ⟨w', out, st', hperf, h', -⟩ := h.step hfit hvalid hcareful
  exact ⟨w', out, hperf, st', h'⟩

end Steps

/-- A view that was just created is the one of the query, and coherent with any table. -/
theorem coherent_of_create {env : SqlEnv} {body : SelectBody} {sql : String}
    {eng₀ eng : NoriaEngine} {rows : Multiset (SqliteRow F)}
    (hreg : eng₀.Registered site.table site.names)
    (hparse : env.parse sql = .ok (some (.select (.select body))))
    (hkeyed : KeyedSelect env body site.table site.names site.sel site.c site.cond)
    (hview : NoriaEngine.create_view env sql eng₀ = (.ok site.view, eng))
    (hrows : ∀ s ∈ rows, site.Stored s) :
    site.Fits env body ∧ site.Coherent ⟨rows, eng⟩ (.new [site.pos]) := by
  obtain ⟨p, hplan, hkeys, -, hserves⟩ :=
    NoriaEngine.create_view_serves hreg hparse hkeyed.one_table hview
  rw [hkeyed.plan_eq] at hplan
  cases hplan
  exact ⟨⟨hkeyed, hkeys⟩, ⟨hrows, hserves, MemoryState.ok_new _, rfl⟩, Filled.zero⟩

/-- **Lookups are right in careful runs.** Whatever the table holds when the view is created, after
    any run of careful calls every further careful call succeeds, and a lookup returns on the
    columns of the query the rows that SQLite would. -/
theorem lookups_right_in_careful_runs [DecidableEq F] {env : SqlEnv} {body : SelectBody}
    {sql : String} {eng₀ eng : NoriaEngine} {rows : Multiset (SqliteRow F)}
    (hreg : eng₀.Registered site.table site.names)
    (hparse : env.parse sql = .ok (some (.select (.select body))))
    (hkeyed : KeyedSelect env body site.table site.names site.sel site.c site.cond)
    (hview : NoriaEngine.create_view env sql eng₀ = (.ok site.view, eng))
    (hrows : ∀ s ∈ rows, site.Stored s) {w : Deployment F}
    (hrun : site.Run (fun w call => site.Valid w call ∧ site.Careful w call) ⟨rows, eng⟩ w)
    {call : Call F} (hvalid : site.Valid w call) (hcareful : site.Careful w call) :
    ∃ w' out, site.perform w call = .ok (w', out) ∧
      ∀ conn key, call = .lookup conn key → ∃ found, out = some found ∧ site.Right w key found := by
  obtain ⟨hfit, hstart⟩ := coherent_of_create hreg hparse hkeyed hview hrows
  obtain ⟨st, h⟩ := hstart.run hfit hrun
  obtain ⟨w', out, -, hperf, -, hright⟩ := h.step hfit hvalid hcareful
  exact ⟨w', out, hperf, hright⟩

/-! ## A row that was there before the view -/

/-- Integers only: no double is ever converted. -/
def integerEnv : ValueEnv Unit := ⟨fun _ => 0, fun _ => 0, fun _ _ => (), fun _ => []⟩

/-- `SELECT * FROM t WHERE g = ?`. -/
def byGroup : SelectBody :=
  ⟨[.star], some ⟨some (.table "t" none), none⟩,
    some (.binary (.id "g") .equals (.variable "?")), none⟩

/-- A table `t(id, g)` and the view by `g`. -/
def groupSite : Site Unit where
  venv := integerEnv
  equal := fun a b => a ≠ .null ∧ a = b
  table := "t"
  names := ["id", "g"]
  sel := [0, 1]
  c := 1
  rest := fun _ _ => true
  cond := .alwaysTrue
  view := ⟨⟨1, [1]⟩, "SELECT * FROM t WHERE g = ?"⟩

def groupEngine : NoriaEngine :=
  (NoriaEngine.create_view (LocalExecutor.queryEnv byGroup) "SELECT * FROM t WHERE g = ?"
    (NoriaEngine.new.register_table_schema "t" ["id", "g"])).2

def storedPair (id g : Int64) : SqliteRow Unit := [.integer id, .integer g]

def passedPair (id g : Int64) : Row := [.bigInt id, .bigInt g]

/-- The table has a row of group 5 before the view is there. -/
def groupStart : Deployment Unit := ⟨{storedPair 1 5}, groupEngine⟩

def answering (rows : List (SqliteRow Unit)) : Connection Unit :=
  ⟨fun _ => .ok ⟨2, 1, fun _ => .ok rows⟩⟩

theorem groupSite_keyed : KeyedSelect (LocalExecutor.queryEnv byGroup) byGroup "t" ["id", "g"]
    [0, 1] 1 .alwaysTrue :=
  ⟨⟨none, none, rfl, rfl⟩, ⟨_, rfl, .equality "?" rfl, rfl⟩, .inl ⟨.inl rfl, rfl⟩⟩

theorem groupSite_exact (id g : Int64) : groupSite.Exact (storedPair id g) (passedPair id g) := by
  refine ⟨⟨rfl, ?_⟩, rfl⟩
  intro v hv
  simp only [storedPair, mem_cons, not_mem_nil, or_false] at hv
  rcases hv with rfl | rfl <;> rfl

def groupEngine₁ : NoriaEngine :=
  (groupEngine.apply_insert_row "t" (passedPair 2 5)).getD .new

/-- **The row from before the view is not found.** The insert puts its own row under a key that was
    never filled, and the lookup takes that for the whole answer. -/
theorem earlier_row_not_found :
    let w : Deployment Unit := ⟨storedPair 2 5 ::ₘ groupStart.rows, groupEngine₁⟩
    let conn := answering [storedPair 1 5, storedPair 2 5]
    groupSite.Valid groupStart (.insert (storedPair 2 5) (passedPair 2 5)) ∧
      groupSite.perform groupStart (.insert (storedPair 2 5) (passedPair 2 5)) = .ok (w, none) ∧
      groupSite.Valid w (.lookup conn (.bigInt 5)) ∧
      groupSite.perform w (.lookup conn (.bigInt 5)) = .ok (w, some [passedPair 2 5]) ∧
      ¬groupSite.Right w (.bigInt 5) [passedPair 2 5] := by
  intro w conn
  refine ⟨groupSite_exact 2 5, rfl, ?_, rfl, ?_⟩
  · exact ⟨⟨2, 1, fun _ => .ok [storedPair 1 5, storedPair 2 5]⟩, .integer 5,
      [storedPair 1 5, storedPair 2 5], rfl, rfl, Nat.one_pos, rfl, rfl, by decide⟩
  · rintro ⟨p, hp, heq⟩
    cases hp
    have := congrArg Multiset.card heq
    revert this
    decide

/-- The engine after group 5 has been looked up, and after the second row is inserted then. -/
def groupEngine₂ : NoriaEngine :=
  match groupEngine.lookup_or_upquery integerEnv (answering [storedPair 1 5]) groupSite.view
      [.bigInt 5] with
  | .ok p => p.2
  | _ => .new

def groupEngine₃ : NoriaEngine :=
  (groupEngine₂.apply_insert_row "t" (passedPair 2 5)).getD .new

theorem answering_evaluates {w : Deployment Unit} {rows : List (SqliteRow Unit)} {g : Int64}
    (h : (rows : Multiset (SqliteRow Unit)) = groupSite.answer w.rows (.integer g)) :
    groupSite.Evaluates w (answering rows) (.bigInt g) :=
  ⟨⟨2, 1, fun _ => .ok rows⟩, .integer g, rows, rfl, rfl, Nat.one_pos, rfl, rfl, h⟩

theorem groupSite_careful {w : Deployment Unit} (hw : ∀ s ∈ w.rows, ∃ id g, s = storedPair id g)
    (conn : Connection Unit) (g : Int64) : groupSite.Careful w (.lookup conn (.bigInt g)) := by
  rintro p ⟨⟩ s hs
  obtain ⟨id, g', rfl⟩ := hw s hs
  show decide ((SqliteValue.integer g' : SqliteValue Unit) ≠ .null ∧
    (SqliteValue.integer g' : SqliteValue Unit) = .integer g) = true ∧ true = true ↔
    Value.int g'.toInt = Value.int g.toInt ∧ true = true
  simp [Int64.toInt_inj]

/-- The calls that are allowed here. -/
def carefully (w : Deployment Unit) (call : Call Unit) : Prop :=
  groupSite.Valid w call ∧ groupSite.Careful w call

/-- Once the group has been looked up, the second row is added to it, and both are found. -/
theorem looked_up_group_found :
    let w : Deployment Unit := ⟨storedPair 2 5 ::ₘ groupStart.rows, groupEngine₃⟩
    ∃ w' found, groupSite.Run carefully groupStart w ∧
      groupSite.perform w (.lookup (answering [storedPair 1 5, storedPair 2 5]) (.bigInt 5))
        = .ok (w', some found) ∧ groupSite.Right w (.bigInt 5) found := by
  intro w
  have hpairs : ∀ s ∈ groupStart.rows, ∃ id g, s = storedPair id g := fun s hs =>
    ⟨1, 5, Multiset.mem_singleton.mp hs⟩
  have hpairs' : ∀ s ∈ w.rows, ∃ id g, s = storedPair id g := by
    intro s hs
    have hs : s ∈ storedPair 2 5 ::ₘ groupStart.rows := hs
    rcases Multiset.mem_cons.mp hs with rfl | hs
    · exact ⟨2, 5, rfl⟩
    · exact hpairs s hs
  -- The group is looked up, and then the row is inserted.
  have hlookup : groupSite.Valid groupStart (.lookup (answering [storedPair 1 5]) (.bigInt 5)) :=
    answering_evaluates (by decide)
  have hfilled : groupSite.Run carefully groupStart ⟨groupStart.rows, groupEngine₂⟩ :=
    .step .start ⟨hlookup, groupSite_careful hpairs _ 5⟩
      (show _ = Outcome.ok (_, some [passedPair 1 5]) from rfl)
  have hinsert : groupSite.Valid ⟨groupStart.rows, groupEngine₂⟩
      (.insert (storedPair 2 5) (passedPair 2 5)) := groupSite_exact 2 5
  have hrun : groupSite.Run carefully groupStart w :=
    .step hfilled ⟨hinsert, fun _ => .inl ⟨.bigInt 5, [passedPair 1 5], rfl, rfl⟩⟩
      (show _ = Outcome.ok (_, none) from rfl)
  have hview : NoriaEngine.create_view (LocalExecutor.queryEnv byGroup)
      "SELECT * FROM t WHERE g = ?" (NoriaEngine.new.register_table_schema "t" ["id", "g"])
      = (.ok groupSite.view, groupEngine) := rfl
  have hstored : ∀ s ∈ groupStart.rows, groupSite.Stored s := by
    intro s hs
    obtain ⟨id, g, rfl⟩ := hpairs s hs
    exact (groupSite_exact id g).stored
  have hvalid : groupSite.Valid w
      (.lookup (answering [storedPair 1 5, storedPair 2 5]) (.bigInt 5)) :=
    answering_evaluates (by decide)
  obtain ⟨w', out, hperf, hright⟩ := lookups_right_in_careful_runs
    (NoriaEngine.registered_new "t" ["id", "g"]) rfl groupSite_keyed hview hstored hrun hvalid
    (groupSite_careful hpairs' _ 5)
  obtain ⟨found, rfl, hfound⟩ := hright _ _ rfl
  exact ⟨w', found, hrun, hperf, hfound⟩

end Site

end Noria.Sqlite

import Noria.Sqlite.Line

/-! # The engine

  `NoriaEngine` (`dataflow/engine.rs`) and the adapter below it (`dataflow/adapter.rs`): views are
  looked up in the executor, and a missing key is read from SQLite and put into the state of the
  view (an upquery).

  SQLite itself is a parameter, the `Connection` an upquery runs on. So are the conversions between
  a double and the two parts of a `DataType::Real`, and the text of a timestamp (`ValueEnv`).

  The map from normalized texts to views and the hit counters are read by no function below and are
  left out. `create_view` looks up the schemas of unknown tables in SQLite first; it is modelled for
  queries whose tables are registered, where that does nothing.
-/

namespace Noria.Sqlite

variable {body : SelectBody}

/-! ## Values -/

/-- A value as SQLite takes and returns it; `F` are the doubles. -/
inductive SqliteValue (F : Type) where
  | null
  | integer (v : Int64)
  | real (f : F)
  | text (bytes : List UInt8)
  | blob (bytes : List UInt8)
  deriving DecidableEq

/-- A row as SQLite stores it. -/
abbrev SqliteRow (F : Type) := List (SqliteValue F)

/-- Conversions the engine takes from elsewhere. -/
structure ValueEnv (F : Type) where
  /-- `f.trunc() as i64`. -/
  int_part : F → Int64
  /-- `(f.fract().abs() * 1_000_000_000.0) as i32`. -/
  frac_part : F → Int32
  /-- `int_part as f64 + frac_part as f64 / 1_000_000_000.0`. -/
  of_parts : Int64 → Int32 → F
  /-- `NaiveDateTime::to_string`. -/
  timestamp_text : NaiveDateTime → List UInt8

/-- `std::str::from_utf8`, as the bytes of the text. -/
def from_utf8 (bytes : List UInt8) : Option String := String.fromUTF8? ⟨bytes.toArray⟩

section Values

variable {F : Type} (venv : ValueEnv F)

/-- The value of a result column; `none` is a panic. -/
def SqliteValue.to_datatype : SqliteValue F → Option DataType
  | .null => some .none
  | .integer v => some (.bigInt v)
  | .real f => some (.real (venv.int_part f) (venv.frac_part f))
  | .text s => DataType.from_str ((from_utf8 s).getD "")
  | .blob _ => some .none

/-- `From<&DataType> for &str`: bytes that are no text panic. -/
def to_str (bytes : List UInt8) : Option (List UInt8) :=
  if (from_utf8 bytes).isSome then some bytes else none

/-- The parameter a key value is bound as; `none` is a panic. -/
def bind_value : DataType → Option (SqliteValue F)
  | .none => some .null
  | .int v => some (.integer v.toInt64)
  | .bigInt v => some (.integer v)
  | .unsignedInt v => some (.integer v.toUInt64.toInt64)
  | .unsignedBigInt v => some (.integer v.toInt64)
  | .real i f => some (.real (venv.of_parts i f))
  | .text s => (to_str s.bytes).map .text
  | .tinyText s => (to_str s.to_str).map .text
  | .timestamp t => some (.text (venv.timestamp_text t))

end Values

/-! ## SQLite -/

/-- A prepared statement. Parameters that are not bound are NULL. -/
structure Statement (F : Type) where
  column_count : Nat
  parameter_count : Nat
  run : List (SqliteValue F) → Except String (List (SqliteRow F))

/-- A connection; an error is given by its text. -/
structure Connection (F : Type) where
  prepare : String → Except String (Statement F)

/-- The error of binding a parameter the statement does not have. -/
def invalidParameter : String := "column index out of range"

/-! ## The adapter and the engine -/

/-- The adapter between SQLite's changes and the executor. -/
structure SqliteAdapter where
  /-- Known table schemas: the column names. -/
  schemas : AssocMap String (List String)
  executor : LocalExecutor

inductive Action where
  | insert
  | delete
  | update
  | other
  deriving DecidableEq

namespace SqliteAdapter

def new : SqliteAdapter := ⟨∅, .new⟩

/-- Register a table schema; the base table is always a new one. -/
def register_table (adapter : SqliteAdapter) (name : String) (columns : List String) :
    SqliteAdapter :=
  ⟨adapter.schemas.insert name columns, (adapter.executor.add_base_table name columns).2⟩

/-- The records of a change, if it has any. -/
def changeRecords (action : Action) (new_row old_row : Option Row) : Option Records :=
  match action with
  | .insert => new_row.map fun row => [.positive row]
  | .delete => old_row.map fun row => [.negative row]
  | .update =>
    let recs := (old_row.map Record.negative).toList ++ (new_row.map Record.positive).toList
    if recs.isEmpty then none else some recs
  | .other => none

/-- Handle a change of a table; `none` is a panic in the executor. -/
def handle_change (adapter : SqliteAdapter) (action : Action) (table : String)
    (new_row old_row : Option Row) : Option SqliteAdapter :=
  -- skip if we don't know this table
  if (adapter.schemas.get? table).isNone then some adapter
  else
    match changeRecords action new_row old_row with
    | none => some adapter
    | some records => do
      let executor ← adapter.executor.apply_write table records
      some { adapter with executor }

end SqliteAdapter

structure NoriaView where
  handle : ViewHandle
  sql : String
  deriving DecidableEq

structure NoriaEngine where
  adapter : SqliteAdapter
  sql_converter : SqlConverter

namespace NoriaEngine

def new : NoriaEngine := ⟨.new, .new⟩

def withExecutor (eng : NoriaEngine) (executor : LocalExecutor) : NoriaEngine :=
  { eng with adapter := { eng.adapter with executor } }

def register_table_schema (eng : NoriaEngine) (table_name : String) (columns : List String) :
    NoriaEngine :=
  ⟨eng.adapter.register_table table_name columns,
    eng.sql_converter.register_table table_name columns⟩

def create_view (env : SqlEnv) (sql : String) : Keeping NoriaEngine SqlError NoriaView :=
  fun eng =>
    match eng.sql_converter.convert_select env sql eng.adapter.executor with
    | (.ok handle, ex) => (.ok ⟨handle, sql⟩, eng.withExecutor ex)
    | (.error e, ex) => (.error e, eng.withExecutor ex)
    | (.panic, ex) => (.panic, eng.withExecutor ex)

def lookup (eng : NoriaEngine) (view : NoriaView) (key : List DataType) :
    Option (Option (List Row)) :=
  eng.adapter.executor.lookup view.handle key

section Upquery

variable {F : Type} (venv : ValueEnv F)

def bind_key (stmt : Statement F) : Nat → List DataType → Outcome String (List (SqliteValue F))
  | _, [] => .ok []
  | i, val :: key => do
    let v ← Outcome.ofOption (bind_value venv val)
    if i < stmt.parameter_count then
      let vs ← bind_key stmt (i + 1) key
      .ok (v :: vs)
    else .error invalidParameter

def row_for_cache (needs_key_append : Bool) (key : List DataType) (row : Row) : Row :=
  if needs_key_append then row ++ key else row

/-- Perform an upquery: query SQLite and populate the cache. An error leaves the engine as it is. -/
def upquery (conn : Connection F) (eng : NoriaEngine) (view : NoriaView) (key : List DataType) :
    Outcome String (List Row × NoriaEngine) :=
  match conn.prepare view.sql with
  | .error e => .error e
  | .ok stmt => do
    let params ← bind_key venv stmt 0 key
    match stmt.run params with
    | .error e => .error e
    | .ok rows => do
      let result ← Outcome.ofOption (rows.mapM fun row => row.mapM (·.to_datatype venv))
      let needs_key_append := view.handle.key_columns.any (stmt.column_count ≤ ·)
      let records := result.map fun row => Record.positive (row_for_cache needs_key_append key row)
      if records.isEmpty then .ok (result, eng)
      else do
        let ex ← Outcome.ofOption (eng.adapter.executor.inject_into_view view.handle records)
        .ok (result, eng.withExecutor ex)

def lookup_or_upquery (conn : Connection F) (eng : NoriaEngine) (view : NoriaView)
    (key : List DataType) : Outcome String (List Row × NoriaEngine) :=
  match eng.lookup view key with
  | none => .panic
  | some (some rows) => .ok (rows, eng)
  | some none => eng.upquery venv conn view key

end Upquery

def handle_change (eng : NoriaEngine) (action : Action) (table : String)
    (new_row old_row : Option Row) : Option NoriaEngine := do
  let adapter ← eng.adapter.handle_change action table new_row old_row
  some { eng with adapter }

def apply_insert_row (eng : NoriaEngine) (table : String) (new_row : Row) : Option NoriaEngine :=
  eng.handle_change .insert table (some new_row) none

def apply_delete (eng : NoriaEngine) (table : String) (old_row : Row) : Option NoriaEngine :=
  eng.handle_change .delete table none (some old_row)

def apply_update_rows (eng : NoriaEngine) (table : String) (old_row new_row : Row) :
    Option NoriaEngine :=
  eng.handle_change .update table (some new_row) (some old_row)

end NoriaEngine

/-! ## Engines that serve a view -/

namespace NoriaEngine

/-- A table is registered and no view reads it yet. -/
structure Registered (eng : NoriaEngine) (table : String) (names : List String) : Prop where
  known : (eng.adapter.schemas.get? table).isSome = true
  schema : ∃ schema, eng.sql_converter.get_schema table = some schema ∧ schema.columns = names
  base : ∃ b, eng.adapter.executor.base_tables.get? table = some b ∧
    eng.adapter.executor.Line b [] b none

/-- The engine serves a view over one table: a line of operators `ops`
    leads from the table to the view, whose state is `st`. -/
structure Serves (eng : NoriaEngine) (table : String) (view : NoriaView)
    (ops : List OperatorType) (st : MemoryState) : Prop where
  known : (eng.adapter.schemas.get? table).isSome = true
  unary : ∀ op ∈ ops, op.unary = true
  line : ∃ b, eng.adapter.executor.base_tables.get? table = some b ∧
    eng.adapter.executor.Line b ops view.handle.node (some st)

theorem eq_ignore_ascii_case_refl (s : String) : eq_ignore_ascii_case s s = true :=
  beq_self_eq_true _

theorem registered_new (table : String) (names : List String) :
    (NoriaEngine.new.register_table_schema table names).Registered table names where
  known := by
    show ((AssocMap.insert ∅ table names).get? table).isSome = true
    simp
  schema := by
    refine ⟨⟨table, names⟩, ?_, rfl⟩
    show List.find? _ [(⟨table, names⟩ : TableSchema)] = _
    simp [eq_ignore_ascii_case_refl]
  base := by
    refine ⟨0, ?_, .last rfl rfl rfl⟩
    show (AssocMap.insert ∅ table 0).get? table = _
    simp

end NoriaEngine

theorem SqlConverter.plan_unary {env : SqlEnv} {idx : Nat} {names : List String} {p : Plan}
    (h : plan env idx names body = .ok p) : ∀ op ∈ p.ops, op.unary = true := by
  simp only [plan, Outcome.bind_ok_iff] at h
  obtain ⟨filter, hfilter, h⟩ := h
  cases h
  have hf : ∀ op ∈ filter, op.unary = true := by
    cases hw : body.where_clause with
    | none =>
      rw [hw] at hfilter
      cases hfilter
      simp
    | some e =>
      rw [hw] at hfilter
      simp only [filter_ops, Outcome.bind_ok_iff] at hfilter
      obtain ⟨cond, -, hfilter⟩ := hfilter
      cases hfilter
      simp [OperatorType.unary]
  have hagg : ∀ op ∈ (aggregate_ops env (idx + filter.length) body names).1, op.unary = true := by
    unfold aggregate_ops
    split <;> simp [OperatorType.unary]
  have hproj : ∀ has cols, ∀ op ∈ (projection_ops body has cols).1, op.unary = true := by
    intro has cols
    unfold projection_ops
    split <;> simp [OperatorType.unary]
  intro op hop
  rcases List.mem_append.mp hop with hop | hop
  · rcases List.mem_append.mp hop with hop | hop
    · exact hf op hop
    · exact hagg op hop
  · exact hproj _ _ op hop

namespace NoriaEngine

open SqlConverter

variable {env : SqlEnv} {eng eng' : NoriaEngine} {table : String} {names : List String}
  {view : NoriaView} {ops ops' : List OperatorType} {st st' : MemoryState}

/-- A view that was accepted over one table is served by its plan. -/
theorem create_view_serves {sql : String} (hreg : eng.Registered table names)
    (hparse : env.parse sql = .ok (some (.select (.select body)))) (hone : OneTable body table)
    (h : create_view env sql eng = (.ok view, eng')) :
    ∃ p, plan env eng.adapter.executor.nodes.length names body = .ok p ∧
      view.handle.key_columns = p.key_columns ∧ view.sql = sql ∧
      eng'.Serves table view p.ops (.new p.key_columns) := by
  obtain ⟨schema, hschema, rfl⟩ := hreg.schema
  obtain ⟨b, hbase, hline⟩ := hreg.base
  unfold create_view at h
  split at h
  · rename_i handle ex hconv
    cases h
    simp only [convert_select, hparse] at hconv
    obtain ⟨p, hp, hkeys, hlaid, htabs⟩ := build_select_accepted hone hschema hbase hline hconv
    exact ⟨p, hp, hkeys, rfl, hreg.known, plan_unary hp, b, by rw [← hbase, ← htabs]; rfl, hlaid⟩
  · cases h
  · cases h

theorem Serves.handle_change (h : eng.Serves table view ops st) {action : Action}
    {new_row old_row : Option Row} {records : Records}
    (hrec : SqliteAdapter.changeRecords action new_row old_row = some records)
    (hflow : flow ops st records = some (ops', st')) :
    ∃ eng', eng.handle_change action table new_row old_row = some eng' ∧
      eng'.Serves table view ops' st' := by
  obtain ⟨b, hbase, hline⟩ := h.line
  obtain ⟨ex', happly, hline', htabs⟩ := hline.apply_write_line h.unary hbase hflow
  refine ⟨eng.withExecutor ex', ?_, h.known, flow_unary hflow h.unary, b, ?_, hline'⟩
  · have hknown : ¬(eng.adapter.schemas.get? table).isNone = true := by
      have := h.known
      cases hg : eng.adapter.schemas.get? table <;> simp_all
    simp only [NoriaEngine.handle_change, SqliteAdapter.handle_change, if_neg hknown, hrec,
      happly, Option.bind_eq_bind, Option.bind_some]
    rfl
  · show ex'.base_tables.get? table = some b
    rw [htabs, hbase]

theorem Serves.stateOf (h : eng.Serves table view ops st) :
    eng.adapter.executor.stateOf view.handle.node = some st := by
  obtain ⟨b, -, hline⟩ := h.line
  obtain ⟨n, hn, hstate⟩ := hline.node
  rw [LocalExecutor.stateOf, hn]
  exact hstate

theorem Serves.lookup (h : eng.Serves table view ops st) (key : List DataType) :
    eng.lookup view key = some (match st.lookup key with
        | .some rows => some rows
        | .empty => some []
        | .missing => none) := by
  obtain ⟨b, -, hline⟩ := h.line
  exact hline.lookup_line view.handle.key_columns key

section Upquery

variable {F : Type} {venv : ValueEnv F} {conn : Connection F} {key : List DataType}

theorem Serves.hit (h : eng.Serves table view ops st) {rows : List Row}
    (hkey : st.lookup key = .some rows) :
    eng.lookup_or_upquery venv conn view key = .ok (rows, eng) := by
  unfold lookup_or_upquery
  rw [h.lookup, hkey]

theorem Serves.miss (h : eng.Serves table view ops st) (hkey : st.lookup key = .missing)
    {stmt : Statement F} {params : List (SqliteValue F)} {rows : List (SqliteRow F)}
    {result : List Row} (hprep : conn.prepare view.sql = .ok stmt)
    (hbind : bind_key venv stmt 0 key = .ok params) (hrun : stmt.run params = .ok rows)
    (hresult : (rows.mapM fun row => row.mapM (·.to_datatype venv)) = some result)
    (hproc : st.process_records (result.map fun row => Record.positive
      (row_for_cache (view.handle.key_columns.any (stmt.column_count ≤ ·)) key row)) = some st') :
    ∃ eng', eng.lookup_or_upquery venv conn view key = .ok (result, eng') ∧
      eng'.Serves table view ops st' := by
  unfold lookup_or_upquery
  simp only [h.lookup, hkey, upquery, hprep, hbind, hrun, hresult, Outcome.ofOption,
    Outcome.ok_bind]
  obtain ⟨b, hbase, hline⟩ := h.line
  obtain ⟨ex', hinj, hline', htabs⟩ := hline.inject_line view.handle.key_columns hproc
  split
  · rename_i hempty
    rw [List.isEmpty_iff] at hempty
    rw [hempty] at hproc
    cases hproc
    exact ⟨eng, rfl, h⟩
  · refine ⟨eng.withExecutor ex', ?_, h.known, h.unary, b, ?_, hline'⟩
    · have : eng.adapter.executor.inject_into_view view.handle _ = some ex' := hinj
      rw [this]
      rfl
    · show ex'.base_tables.get? table = some b
      rw [htabs, hbase]

end Upquery

end NoriaEngine

end Noria.Sqlite

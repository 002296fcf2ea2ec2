import Noria.Ffi.Handle
import Noria.Ffi.Values
import Noria.Sqlite.Extension
import Noria.Sqlite.Keyed

/-! # Lookups across the foreign function interface

  `noria_lookup` answers a miss with the rows that C++ reads from SQLite, and puts these rows into
  the state of the view as they are. The engine of `dataflow/engine.rs` appends the key where the
  query does not select it; here nothing is appended, so the row of such a query is shorter than the
  index expects (`upquery_fill_iff`).
-/

namespace Noria.Ffi

open Noria.Sqlite List Option SqlConverter LocalExecutor

/-! ## Model -/

/-- Lookup result from cache; the rows are the container behind the pointer. -/
structure NoriaLookupResult (F : Type) where
  found : Bool
  row_count : Int32
  rows : Option (List (List (Value F)))

def not_found {F : Type} : NoriaLookupResult F := ⟨false, 0, none⟩

/-- The callback to C++: the rows that SQLite returns for a text and its
    parameters, or none if it fails. -/
abbrev UpqueryCallback (F : Type) :=
  String → List (NoriaValue F) → Option (List (List (NoriaValue F)))

/-- `CString::new(..).unwrap_or_default()`. -/
def c_string (s : String) : String := if s.toList.contains (Char.ofNat 0) then "" else s

section Functions

-- doubles, and `String::from_utf8_lossy`
variable {F : Type} (D : Doubles F) (from_utf8_lossy : List UInt8 → String)

def convert_values (values : List (NoriaValue F)) : Option (List DataType) :=
  values.mapM (noria_value_to_datatype D from_utf8_lossy)

/-- Add a row to the container; a row without values is refused. -/
def noria_rows_add_row (rows : List (List (Value F))) (values : List (NoriaValue F)) :
    List (List (Value F)) :=
  if values = [] then rows else rows ++ [values.map (Value.of from_utf8_lossy)]

/-- The container that `ExecuteUpquery` fills, and its count of rows. -/
def execute_upquery (answer : List (List (NoriaValue F))) : List (List (Value F)) × Int32 :=
  (answer.foldl (noria_rows_add_row from_utf8_lossy) [], Int32.ofNat answer.length)

/-- Lookup in cache, with upquery fallback; `none` is a panic. -/
def noria_lookup (upquery_callback : Option (UpqueryCallback F)) (h : NoriaHandle) (view_id : Int32)
    (key_values : List (NoriaValue F)) : Option (NoriaLookupResult F × NoriaHandle) :=
  if view_id < 0 then some (not_found, h)
  else
    match h.views.get? view_id with
    | none => some (not_found, h)
    | some view_entry => do
      let key ← convert_values D from_utf8_lossy key_values
      match ← h.executor.lookup view_entry.handle key with
      | some rows =>
        let row_count := Int32.ofNat rows.length
        if row_count = 0 then some (⟨true, 0, none⟩, h)
        else do
          let value_rows ← rows.mapM fun row => row.mapM (Value.from_datatype D)
          some (⟨true, row_count, some value_rows⟩, h)
      | none =>
        match upquery_callback.bind fun cb => cb (c_string view_entry.sql) key_values with
        | none => some (not_found, h)
        | some answer =>
          let (out_rows, out_row_count) := execute_upquery from_utf8_lossy answer
          if 0 < out_row_count then do
            let rows ← out_rows.mapM fun row => row.mapM (Value.to_datatype D)
            let records := rows.map Record.positive
            if records.isEmpty then some (⟨true, out_row_count, some out_rows⟩, h)
            else do
              let executor ← h.executor.inject_into_view view_entry.handle records
              some (⟨true, out_row_count, some out_rows⟩, { h with executor := executor })
          else some (not_found, h)

end Functions

/-! ## The key columns of the view -/

section Keys

variable {env : SqlEnv} {body : SelectBody} {table : String} {names : List String}
  {sel : List Nat} {c : Nat} {cond : FilterCondition}

theorem projectionPlan_keys (h : KeyedSelect env body table names sel c cond) :
    (projectionPlan body false names).2 = [keyPos sel c] := by
  have hkeys := congrArg Prod.snd h.projection_ops_eq
  rcases hplan : projectionPlan body false names with ⟨_ | ⟨emit, new_names⟩, keys⟩ <;>
    (rw [projection_ops, hplan] at hkeys; exact hkeys)

/-- However many views there are already, the index of a lookup by one column
    is the position of that column. -/
theorem convert_select_key_columns {conv : SqlConverter} {sql : String} {schema : TableSchema}
    {ex ex' : LocalExecutor} {view : ViewHandle}
    (hparse : env.parse sql = .ok (some (.select (.select body))))
    (hschema : conv.get_schema table = some schema)
    (hkeyed : KeyedSelect env body table schema.columns sel c cond)
    (h : SqlConverter.convert_select env conv sql ex = (.ok view, ex')) :
    view.key_columns = [keyPos sel c] := by
  obtain ⟨as_name, joins, hfrom, hjoins⟩ := hkeyed.one_table.select
  simp only [convert_select, hparse, build_select, hfrom] at h
  -- the FROM clause gives the columns of the table, whichever node it is
  obtain ⟨⟨node, columns⟩, ex₁, hfrom₁, h⟩ := Keeping.bind_ok_iff.mp h
  have hcolumns : columns = schema.columns := by
    simp only [build_from_clause, build_select_table, hschema,
      hjoins] at hfrom₁
    obtain ⟨⟨node', columns'⟩, ex₂, htable, hrest⟩ := Keeping.bind_ok_iff.mp hfrom₁
    cases hrest
    obtain ⟨idx, ex₃, -, hpure⟩ := Keeping.bind_ok_iff.mp htable
    cases hpure
    rfl
  subst hcolumns
  obtain ⟨node₂, ex₂, -, h⟩ := Keeping.bind_ok_iff.mp h
  obtain ⟨⟨node₃, columns₃, has⟩, ex₃, hagg, h⟩ := Keeping.bind_ok_iff.mp h
  simp only [build_aggregate, hkeyed.extract_aggregate_eq] at hagg
  cases hagg
  obtain ⟨⟨node₄, keys⟩, ex₄, hproj, h⟩ := Keeping.bind_ok_iff.mp h
  have hview : view.key_columns = keys := by
    obtain ⟨-, hview, -⟩ := materialize_parts (Keeping.modifyGet_ok_iff.mp h)
    rw [hview]
  have hkeys : keys = (projectionPlan body false schema.columns).2 := by
    rw [build_projection_eq] at hproj
    split at hproj
    · next heq =>
      cases hproj
      rw [heq]
    · next heq =>
      obtain ⟨node₅, ex₅, -, hpure⟩ := Keeping.bind_ok_iff.mp hproj
      cases hpure
      rw [heq]
  rw [hview, hkeys, projectionPlan_keys hkeyed]

end Keys

/-! ## A miss and the hit after it -/

section Rows

variable {F : Type} (D : Doubles F) {rows : List (List (Value F))}

/-- The values that are given back as they were. -/
def Returned : Value F → Prop
  | .null => True
  | .int _ => True
  | .float f => D.Decimal f
  | .text s => Kept (as_bytes s)
  | .blob _ => False

def stored_rows (rows : List (List (Value F))) : Option (List Row) :=
  rows.mapM fun row => row.mapM (Value.to_datatype D)

variable {D}

theorem returned_iff (hD : D.Lawful) (v : Value F) :
    (∃ d, v.to_datatype D = some d ∧ Value.from_datatype D d = some v) ↔ Returned D v := by
  cases v with
  | null => simp [Returned, Value.to_datatype, Value.from_datatype]
  | int i => simp [Returned, Value.to_datatype, Value.from_datatype]
  | float f => exact float_returned_iff hD f
  | text s => exact text_round_trip D
  | blob b => simp [Returned, Value.to_datatype, Value.from_datatype]

theorem rows_returned_iff (hD : D.Lawful) {stored : List Row}
    (h : stored_rows D rows = some stored) :
    (stored.mapM fun row => row.mapM (Value.from_datatype D)) = some rows ↔
      ∀ row ∈ rows, ∀ v ∈ row, Returned D v := by
  rw [mapM_option_back_iff h]
  refine forall₂_congr fun row hrow => ?_
  constructor
  · rintro ⟨r, hr, hback⟩ v hv
    exact (returned_iff hD v).mp ((mapM_option_back_iff hr).mp hback v hv)
  · intro hall
    have hback := fun v hv => (returned_iff hD v).mpr (hall v hv)
    obtain ⟨r, hr, -⟩ := mapM_option_forall₂ hback
    exact ⟨r, hr, (mapM_option_back_iff hr).mpr hback⟩

theorem exists_stored (hD : D.Lawful) (h : ∀ row ∈ rows, ∀ v ∈ row, Returned D v) :
    ∃ stored, stored_rows D rows = some stored := by
  have hrows := fun row hrow =>
    mapM_option_forall₂ fun v hv => (returned_iff hD v).mpr (h row hrow v hv)
  obtain ⟨stored, hstored, -⟩ := mapM_option_forall₂ hrows
  exact ⟨stored, hstored⟩

end Rows

/-- The handle has a view, and its state is indexed by the columns of the view. -/
structure Serving (h : NoriaHandle) (view_id : Int32) (entry : NoriaViewEntry)
    (st : MemoryState) : Prop where
  id : ¬view_id < 0
  registered : h.views.get? view_id = some entry
  state : h.executor.stateOf entry.handle.node = some st
  keys : st.key_columns = entry.handle.key_columns

section Lookup

variable {F : Type} {D : Doubles F} {lossy : List UInt8 → String}
  {cb : UpqueryCallback F} {h h' : NoriaHandle} {ex : LocalExecutor} {records : Records}
  {view_id : Int32} {entry : NoriaViewEntry} {st st' : MemoryState} {kv : NoriaValue F}
  {key : DataType} {answer : List (List (NoriaValue F))}

theorem execute_upquery_eq (hwidth : ∀ row ∈ answer, row ≠ []) :
    execute_upquery lossy answer =
      (answer.map (List.map (Value.of lossy)), Int32.ofNat answer.length) := by
  have hfold : ∀ rows, answer.foldl (noria_rows_add_row lossy) rows =
      rows ++ answer.map (List.map (Value.of lossy)) := by
    induction answer with
    | nil => exact fun rows => (append_nil rows).symm
    | cons row answer ih =>
      intro rows
      rw [foldl_cons, ih (forall_mem_cons.mp hwidth).2,
        noria_rows_add_row, if_neg (hwidth row mem_cons_self), append_assoc]
      rfl
  rw [execute_upquery, hfold]
  rfl

theorem int32_ofNat_pos {n : Nat} (hpos : 0 < n) (hlt : n < 2 ^ 31) : 0 < Int32.ofNat n := by
  rw [Int32.lt_iff_toInt_lt, Int32.toInt_ofNat_of_lt hlt]
  show (0 : Int) < n
  omega

theorem convert_values_single (hkey : noria_value_to_datatype D lossy kv = some key) :
    convert_values D lossy [kv] = some [key] := by
  simp [convert_values, hkey]

namespace Serving

variable (hs : Serving h view_id entry st)
include hs

theorem inject (hst' : st.process_records records = some st') :
    ∃ ex, h.executor.inject_into_view entry.handle records = some ex ∧
      Serving { h with executor := ex } view_id entry st' := by
  obtain ⟨node, hnode, hstate⟩ := bind_eq_some_iff.mp hs.state
  refine ⟨h.executor.setState entry.handle.node st', ?_, hs.id, hs.registered, ?_, ?_⟩
  · rw [inject_into_view, updateState]
    simp only [hnode, hstate, hst', bind_eq_bind, bind_some]
  · rw [stateOf, nodes_setState, if_pos rfl, hnode]
    rfl
  · exact (key_columns_process_records hst').trans hs.keys

theorem injected (hinject : h.executor.inject_into_view entry.handle records = some ex) :
    ∃ st', st.process_records records = some st' ∧
      Serving { h with executor := ex } view_id entry st' := by
  obtain ⟨node, hnode, hstate⟩ := bind_eq_some_iff.mp hs.state
  have hproc := hinject
  rw [inject_into_view, updateState] at hproc
  simp only [hnode, hstate, bind_eq_bind, bind_some, bind_eq_some_iff] at hproc
  obtain ⟨st', hst', -⟩ := hproc
  obtain ⟨ex', hinject', hs'⟩ := hs.inject hst'
  rw [hinject] at hinject'
  cases hinject'
  exact ⟨st', hst', hs'⟩

theorem lookup (key : List DataType) :
    h.executor.lookup entry.handle key = some (match st.lookup key with
        | .some rows => some rows
        | .empty => some []
        | .missing => none) := by
  obtain ⟨node, hnode, hstate⟩ := bind_eq_some_iff.mp hs.state
  unfold LocalExecutor.lookup
  simp only [hnode, hstate, bind_eq_bind, bind_some]
  cases st.lookup key <;> rfl

variable (hkey : noria_value_to_datatype D lossy kv = some key)
include hkey

theorem hit (cb : UpqueryCallback F) {rows : List Row} (hrows : st.lookup [key] = .some rows)
    (hpos : 0 < rows.length) (hlt : rows.length < 2 ^ 31) :
    noria_lookup D lossy (some cb) h view_id [kv] =
      (rows.mapM fun row : Row => row.mapM (Value.from_datatype D)).map fun value_rows =>
        (⟨true, Int32.ofNat rows.length, some value_rows⟩, h) := by
  have hcount : Int32.ofNat rows.length ≠ 0 := by
    intro hzero
    have hlt := int32_ofNat_pos hpos hlt
    rw [hzero] at hlt
    exact absurd hlt (by decide)
  unfold noria_lookup
  simp only [if_neg hs.id, hs.registered, convert_values_single hkey, hs.lookup, hrows,
    bind_eq_bind, bind_some, if_neg hcount]
  cases rows.mapM fun row : Row => row.mapM (Value.from_datatype D) <;> rfl

variable (hmiss : st.lookup [key] = .missing)
include hmiss

theorem miss (hanswer : cb (c_string entry.sql) [kv] = some answer) (hne : answer ≠ [])
    (hcount : answer.length < 2 ^ 31) (hwidth : ∀ row ∈ answer, row ≠ []) :
    noria_lookup D lossy (some cb) h view_id [kv] =
      (stored_rows D (answer.map (List.map (Value.of lossy)))).bind fun stored =>
        (h.executor.inject_into_view entry.handle (stored.map .positive)).map fun executor =>
          (⟨true, Int32.ofNat answer.length,
            some (answer.map (List.map (Value.of lossy)))⟩,
            { h with executor := executor }) := by
  have hpos := int32_ofNat_pos (length_pos_iff.mpr hne) hcount
  unfold noria_lookup
  simp only [if_neg hs.id, hs.registered, convert_values_single hkey, hs.lookup, hmiss,
    bind_eq_bind, bind_some, hanswer, execute_upquery_eq hwidth, if_pos hpos]
  show (stored_rows D _).bind _ = _
  cases hstored : stored_rows D (answer.map (List.map (Value.of lossy))) with
  | none => rfl
  | some stored =>
    have hempty : ¬(stored.map Record.positive).isEmpty = true := by
      intro hempty
      have hlen := (forall₂_of_mapM_option hstored).length_eq
      rw [List.isEmpty_iff, List.map_eq_nil_iff] at hempty
      rw [hempty, length_map, length_nil, length_eq_zero_iff] at hlen
      exact hne hlen
    simp only [bind_some, if_neg hempty]
    cases h.executor.inject_into_view entry.handle (stored.map Record.positive) <;> rfl

theorem nothing (hanswer : cb (c_string entry.sql) [kv] = some []) :
    noria_lookup D lossy (some cb) h view_id [kv] = some (not_found, h) := by
  unfold noria_lookup
  simp only [if_neg hs.id, hs.registered, convert_values_single hkey, hs.lookup, hmiss,
    bind_eq_bind, bind_some, hanswer]
  rfl

end Serving

/-- The miss does not panic, puts every row under the key, and the next lookup
    gives back the same rows. -/
def Fills (D : Doubles F) (lossy : List UInt8 → String) (cb : UpqueryCallback F)
    (h : NoriaHandle) (view_id : Int32) (entry : NoriaViewEntry) (kv : NoriaValue F)
    (key : DataType) (answer : List (List (NoriaValue F))) : Prop :=
  ∃ result h' st' stored,
    noria_lookup D lossy (some cb) h view_id [kv] = some (result, h') ∧
    result.rows.getD [] = answer.map (List.map (Value.of lossy)) ∧
    h'.executor.stateOf entry.handle.node = some st' ∧
    stored_rows D (answer.map (List.map (Value.of lossy))) = some stored ∧
    st'.bucket (.single key) = stored ∧
    noria_lookup D lossy (some cb) h' view_id [kv] = some (result, h')

/-- The row has, as column `pos`, a value that is the key for the engine. -/
def HasKey (D : Doubles F) (lossy : List UInt8 → String) (pos : Nat) (key : DataType)
    (row : List (NoriaValue F)) : Prop :=
  ∃ nv d, row[pos]? = some nv ∧ (Value.of lossy nv).to_datatype D = some d ∧
    d.val = key.val

theorem hasKey_iff {pos : Nat} {row : List (NoriaValue F)} {r : Row}
    (hr : (row.map (Value.of lossy)).mapM (Value.to_datatype D) = some r)
    (hpos : pos < row.length) :
    keyAt pos (Row.val r) = key.val ↔ HasKey D lossy pos key row := by
  have hrel := forall₂_of_mapM_option hr
  have hlen : r.length = row.length := by rw [← hrel.length_eq, length_map]
  obtain ⟨d, hd, hval⟩ := Row.getElem?_val r (hlen.symm ▸ hpos)
  have hconv : (Value.of lossy row[pos]).to_datatype D = some d := by
    have hget := forall₂_iff_get.mp hrel
    have hstep := hget.2 pos (by simpa using hpos) (hlen.symm ▸ hpos)
    simp only [get_eq_getElem, getElem_map] at hstep
    rw [getElem?_eq_getElem (hlen.symm ▸ hpos)] at hd
    cases hd
    exact hstep
  rw [keyAt, ← hval]
  constructor
  · intro heq
    exact ⟨row[pos], d, getElem?_eq_getElem hpos, hconv, heq⟩
  · rintro ⟨nv, d', hnv, hd', heq⟩
    rw [getElem?_eq_getElem hpos] at hnv
    cases hnv
    rw [hconv] at hd'
    cases hd'
    exact heq

section Stored

variable {sel : List Nat} {c : Nat} {stored : List Row}

/-- Stored rows have the indexed column exactly if it is selected. -/
theorem stored_pos_iff
    (hstored : stored_rows D (answer.map (List.map (Value.of lossy))) = some stored)
    (hwidth : ∀ row ∈ answer, row.length = sel.length) :
    (∀ row ∈ answer, c ∈ sel) ↔ ∀ r ∈ stored, keyPos sel c < r.length := by
  have hrel := forall₂_map_left_iff.mp (forall₂_of_mapM_option hstored)
  refine forall₂_forall_iff hrel fun row hrow r hr => ?_
  have hlen : r.length = sel.length := by
    rw [← (forall₂_of_mapM_option hr).length_eq, length_map, hwidth row hrow]
  rw [hlen, keyPos_lt_iff]

theorem stored_keys_iff
    (hstored : stored_rows D (answer.map (List.map (Value.of lossy))) = some stored)
    (hwidth : ∀ row ∈ answer, row.length = sel.length) (hc : c ∈ sel) :
    (∀ row ∈ answer, HasKey D lossy (keyPos sel c) key row) ↔
      ∀ r ∈ stored, keyAt (keyPos sel c) (Row.val r) = key.val := by
  have hrel := forall₂_map_left_iff.mp (forall₂_of_mapM_option hstored)
  refine forall₂_forall_iff hrel fun row hrow r hr => (hasKey_iff hr ?_).symm
  rw [hwidth row hrow]
  exact keyPos_lt_iff.mpr hc

end Stored

end Lookup

/-! ### A table with two columns -/

/-- `SELECT <column> FROM t WHERE id = ?`. -/
def selectOne (column : String) : SelectBody :=
  ⟨[.expr (.id column) none], some ⟨some (.table "t" none), none⟩,
    some (.binary (.id "id") .equals (.variable "?")), none⟩

def pairHandle : NoriaHandle :=
  noria_register_table_schema sample_unicode noria_create "t" ["id", "name"]

/-- The handle after such a query has been registered; its index is `pos`. -/
def oneHandle (column : String) (pos : Nat) : NoriaHandle :=
  store_view sample_unicode pairHandle column [['t']] ⟨2, [pos]⟩
    (SqlConverter.convert_select (queryEnv (selectOne column)) pairHandle.converter
      column pairHandle.executor).2

def answersOne (value : NoriaValue ℚ) : UpqueryCallback ℚ := fun _ _ => some [[value]]

theorem selectOne_keyed {column : String} {i : Nat}
    (h : get_column_index_from_expr (.id column) ["id", "name"] = some i) :
    KeyedSelect (queryEnv (selectOne column)) (selectOne column) "t" ["id", "name"]
      [i] 0 .alwaysTrue where
  one_table := ⟨none, none, rfl, rfl⟩
  key := ⟨_, rfl, .equality "?" rfl, rfl⟩
  columns := by
    refine .inr ⟨cons_ne_nil _ _, [(i, ["id", "name"].getD i "")], ?_, rfl⟩
    simp [selectOne, projectionLoop, h]

end Noria.Ffi

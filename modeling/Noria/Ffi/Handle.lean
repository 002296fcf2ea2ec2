import Noria.Ffi.ExtractTables
import Noria.Sqlite.Sql

/-! # The engine behind the foreign function interface

  The handle of `noria-ffi/src/lib.rs`: an executor, a converter, and the maps from texts and tables
  to views. C++ asks `noria_table_has_views` before it passes on a change
  (`src/util/noria.cpp`), so a table that a view reads and `extract_tables` has not found is never
  updated. A text that differs from a registered one only in white space and letter case gets the
  view of that one, so what matters are all texts that have been registered: `tables_found_iff` is
  about whole runs.
-/

namespace Noria.Ffi

open Noria.Sqlite List

/-! ## Model -/

def Unicode.split_whitespace (u : Unicode) (text : List Char) : List (List Char) :=
  (text.splitOnP u.is_whitespace).filter (· ≠ [])

/-- Normalize SQL for comparison. -/
def normalize_sql (u : Unicode) (sql : List Char) : List Char :=
  u.uppercase ([' '].intercalate (u.split_whitespace sql))

/-- `str::to_lowercase` of a name. -/
def Unicode.lowercase (u : Unicode) (name : String) : List Char := u.to_lowercase name.toList

structure NoriaViewEntry where
  handle : ViewHandle
  sql : String
  tables : List (List Char)

/-- The engine. Statistics, table ids and the upquery callback are kept elsewhere. -/
structure NoriaHandle where
  executor : LocalExecutor
  converter : SqlConverter
  views : AssocMap Int32 NoriaViewEntry
  sql_to_view_id : AssocMap (List Char) Int32
  table_to_views : AssocMap (List Char) (List Int32)
  next_view_id : Int32

def noria_create : NoriaHandle := ⟨.new, .new, ∅, ∅, ∅, 0⟩

section Functions

variable (u : Unicode) (env : SqlEnv)

def noria_register_table_schema (h : NoriaHandle) (table : String) (columns : List String) :
    NoriaHandle :=
  let table_str := String.ofList (u.lowercase table)
  { h with
    converter := h.converter.register_table table_str columns
    executor := (h.executor.add_base_table table_str columns).2 }

def add_table_view (view_id : Int32) (table_to_views : AssocMap (List Char) (List Int32))
    (table : List Char) : AssocMap (List Char) (List Int32) :=
  table_to_views.insert table ((table_to_views.get? table).getD [] ++ [view_id])

def store_view (h : NoriaHandle) (sql : String) (tables : List (List Char))
    (view_handle : ViewHandle) (executor : LocalExecutor) : NoriaHandle :=
  let view_id := h.next_view_id
  { h with
    executor := executor
    next_view_id := view_id + 1
    views := h.views.insert view_id ⟨view_handle, sql, tables⟩
    sql_to_view_id := h.sql_to_view_id.insert (normalize_sql u sql.toList) view_id
    table_to_views := tables.foldl (add_table_view view_id) h.table_to_views }

/-- Register a SELECT query as a view: its id, or -1 for a query that is not supported. -/
def noria_register_view (h : NoriaHandle) (sql : String) : Outcome Unit (Int32 × NoriaHandle) :=
  match h.sql_to_view_id.get? (normalize_sql u sql.toList) with
  | some id => .ok (id, h)
  | none => do
    let tables ← extract_tables u sql.toList
    match SqlConverter.convert_select env h.converter sql h.executor with
    | (.ok view_handle, executor) =>
      .ok (h.next_view_id, store_view u h sql tables view_handle executor)
    | (.error _, executor) => .ok (-1, { h with executor := executor })
    | (.panic, _) => .panic

def noria_table_has_views (h : NoriaHandle) (table : String) : Bool :=
  h.table_to_views.contains (u.lowercase table)

end Functions

/-! ## The other side of the interface -/

/-- The engine as C++ has it. -/
structure Connection where
  handle_ : NoriaHandle
  /-- Cached to avoid calls. -/
  has_any_views_ : Bool

/-- A change of a changeset; `none` is a table name that SQLite does not give. -/
structure Change (α : Type) where
  table_name : Option String
  n_cols : Int
  values : α

/-- What is called over the interface. -/
inductive Call where
  | register_table_schema (table : String) (columns : List String)
  | register_view (sql : String)
  /-- Lookups and changes do nothing to the views and their tables. -/
  | use (executor : LocalExecutor)

namespace Connection

variable (u : Unicode) (env : SqlEnv)

def step (c : Connection) : Call → Outcome Unit Connection
  | .register_table_schema table columns =>
    .ok { c with handle_ := noria_register_table_schema u c.handle_ table columns }
  | .register_view sql => do
    let (result, handle_) ← noria_register_view u env c.handle_ sql
    .ok ⟨handle_, c.has_any_views_ || decide (0 ≤ result)⟩
  | .use executor => .ok { c with handle_ := { c.handle_ with executor := executor } }

def run (calls : List Call) : Outcome Unit Connection :=
  calls.foldlM (step u env) ⟨noria_create, false⟩

/-- The changes of a changeset that are applied, outside of a transaction. -/
def processSessionChangeset {α : Type} (c : Connection) (changes : List (Change α)) :
    List (Change α) :=
  if !c.has_any_views_ then []
  else changes.filter fun change =>
    match change.table_name with
    | none => false
    | some table_name =>
      -- "Check if this table has views (skip if not)"
      decide (0 < change.n_cols) && noria_table_has_views u c.handle_ table_name

end Connection

/-! ## The tables of a query -/

/-- The table that an item of a FROM clause names. -/
def tableName : SelectTable → Option String
  | .table name _ => some name
  | _ => none

/-- The tables whose base nodes the graph of a query reads. -/
def tablesRead (body : SelectBody) : List String :=
  match body.from_clause with
  | none => []
  | some from_clause =>
    (from_clause.select.toList ++ (from_clause.joins.getD []).map JoinedSelectTable.table).filterMap
      tableName

/-! ## The tables that have views -/

theorem contains_foldl_add_table_view (view_id : Int32) (tables : List (List Char))
    (m : AssocMap (List Char) (List Int32)) (table : List Char) :
    (tables.foldl (add_table_view view_id) m).contains table = true ↔
      table ∈ tables ∨ m.contains table = true := by
  induction tables generalizing m with
  | nil => simp
  | cons t tables ih =>
    rw [foldl_cons, ih, add_table_view, AssocMap.contains_insert, Bool.or_eq_true,
      beq_iff_eq, mem_cons]
    constructor
    · rintro (h | rfl | h)
      · exact .inl (.inr h)
      · exact .inl (.inl rfl)
      · exact .inr h
    · rintro ((rfl | h) | h)
      · exact .inr (.inl rfl)
      · exact .inl h
      · exact .inr (.inr h)

section Register

variable {u : Unicode} {env : SqlEnv}

/-- The text is a query. -/
def Parses (env : SqlEnv) (sql : String) (body : SelectBody) : Prop :=
  env.parse sql = .ok (some (.select (.select body)))

/-- **A text that is read right**: it can be cut, and lists the tables of the query. -/
structure Legible (u : Unicode) (sql : String) (body : SelectBody) : Prop where
  fits : Fits u sql.toList
  listed : ∀ t ∈ tablesRead body, Listed u sql.toList (u.lowercase t)

/-- Every view's tables have views, and there are views for every text that is said to have one. -/
structure Covered (u : Unicode) (env : SqlEnv) (c : Connection) : Prop where
  tables : ∀ id entry, c.handle_.views.get? id = some entry → ∀ body, Parses env entry.sql body →
    ∀ t ∈ tablesRead body, noria_table_has_views u c.handle_ t = true
  texts : ∀ text id, c.handle_.sql_to_view_id.get? text = some id →
    ∃ entry, c.handle_.views.get? id = some entry
  /-- The first view has the id 0, so that C++ notices it. -/
  noticed : c.has_any_views_ = true ∨
    c.handle_.next_view_id = 0 ∧ ∀ id, c.handle_.views.get? id = none

theorem tables_extracted_of_legible {sql : String} {body : SelectBody} :
    (∃ tables, extract_tables u sql.toList = .ok tables ∧
      ∀ t ∈ tablesRead body, u.lowercase t ∈ tables) ↔ Legible u sql body := by
  have hreturns := extract_tables_returns u sql.toList
  constructor
  · rintro ⟨tables, htables, hall⟩
    have hfits : Fits u sql.toList := by
      by_contra hfits
      rw [hreturns.panic hfits] at htables
      cases htables
    obtain ⟨tables', hok, hlisted⟩ := hreturns.ok hfits
    rw [htables] at hok
    cases hok
    exact ⟨hfits, fun t ht => (hlisted _).mp (hall t ht)⟩
  · rintro ⟨hfits, hall⟩
    obtain ⟨tables, htables, hlisted⟩ := hreturns.ok hfits
    exact ⟨tables, htables, fun t ht => (hlisted _).mpr (hall t ht)⟩

/-- What registering a text does: nothing to the views, or it adds one with
    the tables that are extracted. -/
theorem register_cases {h h' : NoriaHandle} {sql : String} {result : Int32}
    (hreg : noria_register_view u env h sql = .ok (result, h')) :
    (h'.views = h.views ∧ h'.sql_to_view_id = h.sql_to_view_id ∧
      h'.table_to_views = h.table_to_views ∧ h'.next_view_id = h.next_view_id) ∨
    ∃ tables view_handle executor, extract_tables u sql.toList = .ok tables ∧
      result = h.next_view_id ∧ h' = store_view u h sql tables view_handle executor := by
  unfold noria_register_view at hreg
  cases hid : h.sql_to_view_id.get? (normalize_sql u sql.toList) with
  | some id =>
    rw [hid] at hreg
    cases hreg
    exact .inl ⟨rfl, rfl, rfl, rfl⟩
  | none =>
    rw [hid] at hreg
    obtain ⟨tables, htables, hreg⟩ := Outcome.bind_ok_iff.mp hreg
    cases hconv : SqlConverter.convert_select env h.converter sql h.executor with
    | mk answer executor =>
      rw [hconv] at hreg
      cases answer with
      | ok view_handle =>
        cases hreg
        exact .inr ⟨tables, view_handle, executor, htables, rfl, rfl⟩
      | error e =>
        cases hreg
        exact .inl ⟨rfl, rfl, rfl, rfl⟩
      | panic => cases hreg

theorem Covered.step {c c' : Connection} {call : Call} (hc : Covered u env c)
    (hlegible : ∀ sql, call = .register_view sql → ∀ body, Parses env sql body → Legible u sql body)
    (hstep : c.step u env call = .ok c') : Covered u env c' := by
  cases call with
  | register_table_schema table columns =>
    cases hstep
    exact ⟨hc.tables, hc.texts, hc.noticed⟩
  | use executor =>
    cases hstep
    exact ⟨hc.tables, hc.texts, hc.noticed⟩
  | register_view sql =>
    obtain ⟨⟨result, h'⟩, hreg, hrest⟩ := Outcome.bind_ok_iff.mp hstep
    cases hrest
    rcases register_cases hreg with ⟨hviews, htexts, htables, hnext⟩ |
      ⟨tables, view_handle, executor, hextract, rfl, rfl⟩
    · refine ⟨fun id entry hget => ?_, fun text id hget => ?_, ?_⟩
      · rw [show h'.views = _ from hviews] at hget
        intro body hbody t ht
        rw [noria_table_has_views, htables]
        exact hc.tables id entry hget body hbody t ht
      · rw [show h'.sql_to_view_id = _ from htexts] at hget
        simp only [hviews]
        exact hc.texts text id hget
      · rcases hc.noticed with hflag | hnone
        · exact .inl (by rw [hflag, Bool.true_or])
        · exact .inr ⟨hnext.trans hnone.1, fun id => by simp only [hviews]; exact hnone.2 id⟩
    · refine ⟨fun id entry hget body hbody t ht => ?_, fun text id hget => ?_, .inl ?_⟩
      · refine (contains_foldl_add_table_view _ _ _ _).mpr ?_
        replace hget : (c.handle_.views.insert c.handle_.next_view_id
          ⟨view_handle, sql, tables⟩).get? id = some entry := hget
        rw [AssocMap.get?_insert] at hget
        split at hget
        · -- the new view: its tables are in the list
          cases hget
          obtain ⟨tables', hextract', hall⟩ :=
            tables_extracted_of_legible.mpr (hlegible sql rfl body hbody)
          rw [hextract] at hextract'
          cases hextract'
          exact .inl (hall t ht)
        · exact .inr (hc.tables id entry hget body hbody t ht)
      · show ∃ entry, (c.handle_.views.insert c.handle_.next_view_id
          ⟨view_handle, sql, tables⟩).get? id = some entry
        replace hget : (c.handle_.sql_to_view_id.insert (normalize_sql u sql.toList)
          c.handle_.next_view_id).get? text = some id := hget
        rw [AssocMap.get?_insert] at hget ⊢
        split at hget
        · cases hget
          exact ⟨_, if_pos BEq.rfl⟩
        · obtain ⟨entry, hentry⟩ := hc.texts text id hget
          split
          · exact ⟨_, rfl⟩
          · exact ⟨entry, hentry⟩
      · rcases hc.noticed with hflag | ⟨hnext, -⟩
        · rw [hflag, Bool.true_or]
        · rw [hnext]
          exact Bool.or_true _

theorem Covered.run {calls : List Call} {c : Connection}
    (hlegible : ∀ sql, .register_view sql ∈ calls → ∀ body, Parses env sql body →
      Legible u sql body) (hrun : Connection.run u env calls = .ok c) : Covered u env c := by
  have hstart : Covered u env ⟨noria_create, false⟩ := by
    refine ⟨fun id entry hget => ?_, fun text id hget => ?_, .inr ⟨rfl, fun _ => rfl⟩⟩
    · cases hget
    · cases hget
  unfold Connection.run at hrun
  generalize (⟨noria_create, false⟩ : Connection) = c₀ at hstart hrun
  induction calls generalizing c₀ with
  | nil =>
    cases hrun
    exact hstart
  | cons call calls ih =>
    obtain ⟨c₁, hstep, hrest⟩ := Outcome.bind_ok_iff.mp hrun
    refine ih (fun sql hsql => hlegible sql (mem_cons_of_mem _ hsql)) c₁ ?_ hrest
    exact hstart.step (fun sql hsql => hlegible sql (hsql ▸ mem_cons_self)) hstep

/-- **The filter of changes.** The tables extracted from a query's text contain every table that its
    graph reads exactly if the text can be cut and lists these tables. In every run in which all
    registered texts are like that, there is a view for every text that has an id, every table that
    the graph of a view reads has views, and no change of it is skipped. -/
theorem tables_found_iff (u : Unicode) (env : SqlEnv) : (∀ sql body, Parses env sql body →
      ((∃ tables, extract_tables u sql.toList = .ok tables ∧
        ∀ t ∈ tablesRead body, u.lowercase t ∈ tables) ↔ Legible u sql body)) ∧
    ∀ calls c, Connection.run u env calls = .ok c →
      (∀ sql, .register_view sql ∈ calls → ∀ body, Parses env sql body → Legible u sql body) →
      (∀ text id, c.handle_.sql_to_view_id.get? text = some id →
        ∃ entry, c.handle_.views.get? id = some entry) ∧
      ∀ id entry, c.handle_.views.get? id = some entry → ∀ body, Parses env entry.sql body →
        ∀ t ∈ tablesRead body, noria_table_has_views u c.handle_ t = true ∧
          ∀ (α : Type) (changes : List (Change α)), ∀ change ∈ changes, ∀ table_name,
            change.table_name = some table_name → u.lowercase table_name = u.lowercase t →
              0 < change.n_cols → change ∈ c.processSessionChangeset u changes := by
  refine ⟨fun sql body _ => tables_extracted_of_legible, fun calls c hrun hlegible => ?_⟩
  have hc := Covered.run hlegible hrun
  refine ⟨hc.texts, fun id entry hget body hbody t ht => ?_⟩
  have hviews := hc.tables id entry hget body hbody t ht
  refine ⟨hviews, fun α changes change hmem table_name hname hsame hcols => ?_⟩
  have hflag : c.has_any_views_ = true := by
    rcases hc.noticed with hflag | ⟨-, hnone⟩
    · exact hflag
    · rw [hnone] at hget
      cases hget
  unfold Connection.processSessionChangeset
  rw [hflag, Bool.not_true, if_neg Bool.false_ne_true]
  refine mem_filter.mpr ⟨hmem, ?_⟩
  rw [hname]
  unfold noria_table_has_views at hviews ⊢
  simp only [hsame, hviews, hcols, decide_true, Bool.and_self]

end Register

/-! ### One table, two layouts -/

def selectId : SelectBody :=
  ⟨[.expr (.id "id") none], some ⟨some (.table "t" none), none⟩, none, none⟩

def idHandle : NoriaHandle := noria_register_table_schema sample_unicode noria_create "t" ["id"]

/-- The table is made known, and the text registered. -/
def idCalls (sql : String) : List Call :=
  [.register_table_schema "t" ["id"], .register_view sql]

theorem idCalls_run {sql : String} {tables : List (List Char)}
    (htables : extract_tables sample_unicode sql.toList = .ok tables) :
    ∃ view_handle executor, Connection.run sample_unicode (LocalExecutor.queryEnv selectId)
      (idCalls sql) = .ok ⟨store_view sample_unicode idHandle sql tables view_handle executor,
        true⟩ := by
  obtain ⟨view_handle, executor, hconv⟩ : ∃ view_handle executor,
      SqlConverter.convert_select (LocalExecutor.queryEnv selectId) idHandle.converter sql
        idHandle.executor = (.ok view_handle, executor) := ⟨_, _, rfl⟩
  refine ⟨view_handle, executor, ?_⟩
  have hreg : noria_register_view sample_unicode (LocalExecutor.queryEnv selectId) idHandle sql =
      .ok (0, store_view sample_unicode idHandle sql tables view_handle executor) := by
    unfold noria_register_view
    rw [show idHandle.sql_to_view_id.get? (normalize_sql sample_unicode sql.toList) = none from rfl,
      htables]
    simp only [Outcome.ok_bind, hconv]
    rfl
  show (Connection.step _ _ ⟨idHandle, false⟩ (.register_view sql) >>= fun c => .ok c) = _
  rw [Connection.step, hreg]
  rfl

/-- On one line the table is found, and its changes get through. -/
theorem one_line_is_found : ∃ c,
    Connection.run sample_unicode (LocalExecutor.queryEnv selectId) (idCalls "SELECT id FROM t") =
      .ok c ∧ noria_table_has_views sample_unicode c.handle_ "t" = true ∧
    (⟨some "T", 1, ()⟩ : Change Unit) ∈ c.processSessionChangeset sample_unicode
      [⟨some "other", 1, ()⟩, ⟨some "T", 1, ()⟩] := by
  have hextract : extract_tables sample_unicode "SELECT id FROM t".toList = .ok [['t']] := by
    decide +kernel
  obtain ⟨view_handle, executor, hrun⟩ := idCalls_run hextract
  obtain ⟨hfound, hcovered⟩ := tables_found_iff sample_unicode (LocalExecutor.queryEnv selectId)
  have hlegible : Legible sample_unicode "SELECT id FROM t" selectId := by
    refine (hfound _ selectId rfl).mp ⟨_, hextract, fun t ht => ?_⟩
    rw [mem_singleton.mp ht]
    decide +kernel
  obtain ⟨hviews, hchanges⟩ := (hcovered _ _ hrun (fun sql hsql body hbody => by
    cases hbody
    rcases mem_cons.mp hsql with hsql | hsql
    · cases hsql
    · cases mem_singleton.mp hsql
      exact hlegible)).2 0 _ (AssocMap.get?_insert_self ..) selectId rfl "t" mem_cons_self
  exact ⟨_, hrun, hviews, hchanges Unit _ _ (by simp) "T" rfl (by decide +kernel) (by decide)⟩

/-- **With a line break before FROM it is not**: the text is registered, its
    graph reads the table, and the changes of the table are skipped. -/
theorem line_break_hides_table :
    tablesRead selectId = ["t"] ∧
    extract_tables sample_unicode "SELECT id\nFROM t".toList = .ok [] ∧
    ∃ c, Connection.run sample_unicode (LocalExecutor.queryEnv selectId)
        (idCalls "SELECT id\nFROM t") = .ok c ∧
      (∃ entry, c.handle_.views.get? 0 = some entry ∧ entry.sql = "SELECT id\nFROM t") ∧
      noria_table_has_views sample_unicode c.handle_ "t" = false ∧
      c.processSessionChangeset sample_unicode [(⟨some "t", 1, ()⟩ : Change Unit)] = [] := by
  have hextract : extract_tables sample_unicode "SELECT id\nFROM t".toList = .ok [] := by
    decide +kernel
  obtain ⟨view_handle, executor, hrun⟩ := idCalls_run hextract
  exact ⟨rfl, hextract, _, hrun, ⟨_, AssocMap.get?_insert_self .., rfl⟩, rfl, rfl⟩

end Noria.Ffi

import Noria.Sqlite.FromClause
import Noria.Sqlite.Where

/-! # Where a qualified column is found

  A row of a joined table is made of the columns of its tables, less the right join column of every
  join. The converter keeps the bare names of these columns only, and looks up `x.c` as a column
  called `x.c`, or else as the first one called `c`.

  `Layout` says which column of which table stands at each position. `qualified_resolution_iff`: a
  reference is found at the position of the column that it denotes exactly if the column has not
  been dropped, no column before it has the same name and none is called `x.c`; and what this means
  for the conditions of the joins.
-/

namespace Noria.Sqlite

open SqlConverter Option

/-! ## Names -/

/-- Some column has the name, up to the case of letters. -/
def Named (columns : List String) (name : String) : Prop :=
  ∃ col ∈ columns, eq_ignore_ascii_case col name = true

instance (columns : List String) (name : String) : Decidable (Named columns name) :=
  inferInstanceAs (Decidable (∃ col ∈ columns, eq_ignore_ascii_case col name = true))

/-- The first column with the name. -/
def FirstNamed (columns : List String) (name : String) (p : Nat) : Prop :=
  (∃ col, columns[p]? = some col ∧ eq_ignore_ascii_case col name = true) ∧
    ∀ q < p, ∀ col, columns[q]? = some col → ¬eq_ignore_ascii_case col name = true

/-- The text of a qualified reference. -/
def qualifiedName (x c : String) : String := x ++ "." ++ c

/-- The column that a reference leads to: one with its whole text for a
    name, or else one with the name behind the dot. -/
def Picked (columns : List String) (x c : String) (p : Nat) : Prop :=
  FirstNamed columns (qualifiedName x c) p ∨
    ¬Named columns (qualifiedName x c) ∧ FirstNamed columns c p

section Names

variable {columns : List String} {x c name : String} {p : Nat}

theorem findIdx?_eq_some_iff_first :
    columns.findIdx? (eq_ignore_ascii_case · name) = some p ↔ FirstNamed columns name p := by
  rw [List.findIdx?_eq_some_iff_getElem]
  constructor
  · rintro ⟨hp, hname, hbefore⟩
    refine ⟨⟨_, List.getElem?_eq_getElem hp, hname⟩, fun q hq col hcol => ?_⟩
    rw [List.getElem?_eq_getElem (Nat.lt_trans hq hp)] at hcol
    cases hcol
    exact hbefore q hq
  · rintro ⟨⟨col, hcol, hname⟩, hbefore⟩
    obtain ⟨hp, rfl⟩ := List.getElem?_eq_some_iff.mp hcol
    exact ⟨hp, hname, fun q hq => hbefore q hq _ (List.getElem?_eq_getElem (Nat.lt_trans hq hp))⟩

theorem findIdx?_eq_none_iff_named :
    columns.findIdx? (eq_ignore_ascii_case · name) = none ↔ ¬Named columns name := by
  rw [List.findIdx?_eq_none_iff]
  simp [Named]

theorem get_column_index_eq : get_column_index_from_expr (.qualified x c) columns =
    (columns.findIdx? (eq_ignore_ascii_case · (qualifiedName x c))).or
      (columns.findIdx? (eq_ignore_ascii_case · c)) := by
  simp only [get_column_index_from_expr, qualifiedName]
  split
  · next i hi => rw [hi, some_or]
  · next hnone => rw [hnone, none_or]

/-- **The look-up of a reference**, in terms of the names. -/
theorem get_column_index_qualified :
    get_column_index_from_expr (.qualified x c) columns = some p ↔ Picked columns x c p := by
  unfold Picked
  rw [get_column_index_eq, or_eq_some_iff, findIdx?_eq_some_iff_first,
    findIdx?_eq_none_iff_named, findIdx?_eq_some_iff_first]

theorem get_column_index_qualified_none :
    get_column_index_from_expr (.qualified x c) columns = none ↔
      ¬Named columns (qualifiedName x c) ∧ ¬Named columns c := by
  rw [get_column_index_eq, or_eq_none_iff, findIdx?_eq_none_iff_named,
    findIdx?_eq_none_iff_named]

theorem lower_eq_of_eq {a b : String} (h : eq_ignore_ascii_case a b = true) :
    a.toList.map Char.toLower = b.toList.map Char.toLower := eq_of_beq h

theorem not_qualified_of_name (h : eq_ignore_ascii_case name c = true) :
    ¬eq_ignore_ascii_case name (qualifiedName x c) = true := by
  intro h'
  have hlength := congrArg List.length ((lower_eq_of_eq h).symm.trans (lower_eq_of_eq h'))
  simp [qualifiedName] at hlength
  omega

end Names

/-! ## Layouts -/

/-- Which column of which table stands at each position of a row, with its name. -/
abbrev Layout := List (String × Nat × Nat)

/-- The columns of one table. -/
def tableLayout (k : Nat) (columns : List String) : Layout :=
  columns.mapIdx fun i name => (name, k, i)

/-- The tables of a FROM clause, each with the name by which it is known and
    its columns, and how their rows are put together. -/
structure Scope where
  tables : List (String × List String)
  layout : Layout
  described : ∀ e ∈ layout, ∃ t, tables[e.2.1]? = some t ∧ t.2[e.2.2]? = some e.1

variable {table : SelectTable} {s₁ : Scope} {more : List (String × List String)} {e : Expr}
  {l : Nat} {t : String × List String} {r : VRow} {joins : List JoinedSelectTable} {s' : Scope}
  {node : Nat} {ex ex' : LocalExecutor}

theorem mem_tableLayout {k : Nat} {columns : List String} {e : String × Nat × Nat}
    (h : e ∈ tableLayout k columns) : e.2.1 = k ∧ columns[e.2.2]? = some e.1 := by
  obtain ⟨i, hi, rfl⟩ := List.mem_mapIdx.mp h
  exact ⟨rfl, List.getElem?_eq_getElem hi⟩

@[simp] theorem names_tableLayout (k : Nat) (columns : List String) :
    (tableLayout k columns).map Prod.fst = columns := by
  refine List.ext_getElem? fun i => ?_
  simp [tableLayout, map_map, Function.comp_def]

namespace Scope

def single (t : String × List String) : Scope where
  tables := [t]
  layout := tableLayout 0 t.2
  described e he := by
    obtain ⟨hk, hname⟩ := mem_tableLayout he
    exact ⟨t, by rw [hk]; rfl, hname⟩

/-- One more table is joined; its join column is dropped. -/
def join (s : Scope) (t : String × List String) (right_key : Nat) : Scope where
  tables := s.tables ++ [t]
  layout := s.layout ++ (tableLayout s.tables.length t.2).eraseIdx right_key
  described e he := by
    rcases List.mem_append.mp he with he | he
    · obtain ⟨t', ht', hname⟩ := s.described e he
      have hlt := (List.getElem?_eq_some_iff.mp ht').1
      exact ⟨t', by rw [List.getElem?_append_left hlt, ht'], hname⟩
    · obtain ⟨hk, hname⟩ := mem_tableLayout (List.mem_of_mem_eraseIdx he)
      exact ⟨t, by rw [hk, List.getElem?_concat_length], hname⟩

def names (s : Scope) : List String := s.layout.map Prod.fst

/-- The column that stands at a position: a table and a column of it. -/
def origin (s : Scope) (p : Nat) : Option (Nat × Nat) := s.layout[p]?.map Prod.snd

/-- The row that is made of rows of the tables. -/
def row (s : Scope) (rows : List VRow) : VRow :=
  s.layout.map fun e => (rows.getD e.2.1 []).getD e.2.2 .null

@[simp] theorem names_single (t : String × List String) : (single t).names = t.2 :=
  names_tableLayout 0 t.2

@[simp] theorem names_join (s : Scope) (t : String × List String) (right_key : Nat) :
    (s.join t right_key).names = SqlConverter.joinedColumns s.names t.2 right_key := by
  simp only [names, join, List.map_append, ← List.eraseIdx_map, names_tableLayout,
    SqlConverter.joinedColumns]

@[simp] theorem length_names (s : Scope) : s.names.length = s.layout.length := List.length_map _

theorem origin_eq_some {s : Scope} {p k i : Nat} :
    s.origin p = some (k, i) ↔ ∃ name, s.layout[p]? = some (name, k, i) := by
  simp [origin]

theorem name_of_origin {s : Scope} {p k i : Nat} (h : s.origin p = some (k, i)) :
    ∃ t name, s.tables[k]? = some t ∧ t.2[i]? = some name ∧ s.names[p]? = some name := by
  obtain ⟨name, hp⟩ := origin_eq_some.mp h
  obtain ⟨t, ht, hname⟩ := s.described _ (List.mem_of_getElem? hp)
  exact ⟨t, name, ht, hname, by rw [names, List.getElem?_map, hp]; rfl⟩

end Scope

/-! ## Rows of joins -/

/-- The rows of joined tables have the widths of the tables. -/
def Widths (rows : List VRow) (tables : List (String × List String)) : Prop :=
  List.Forall₂ (fun r t => r.length = t.2.length) rows tables

/-- The row that a chain of joins makes of one row of each table. -/
def joinRow : List JoinStep → VRow → List VRow → VRow
  | step :: steps, l, r :: rows => joinRow steps (step.op.combineV l r) rows
  | _, l, _ => l

theorem filter_ne_range (n k : Nat) :
    (List.range n).filter (· ≠ k) = (List.range n).eraseIdx k := by
  rcases Nat.lt_or_ge k n with hk | hk
  · have hlt : k < (List.range n).length := by simpa using hk
    rw [← List.nodup_range.erase_getElem k hlt, List.getElem_range hlt,
      List.nodup_range.erase_eq_filter]
    exact List.filter_congr fun i _ => by simp [bne, beq_eq_decide]
  · rw [List.eraseIdx_of_length_le (by simpa using hk), List.filter_eq_self]
    intro i hi
    have := List.mem_range.mp hi
    exact decide_eq_true (by omega)

theorem map_getD_range (r : VRow) : (List.range r.length).map (r.getD · .null) = r := by
  refine List.ext_getElem (by simp) fun i _ hi => ?_
  simp [List.getElem?_eq_getElem hi]

/-- What the operator of a join emits: the left row, and the right one without its join column. -/
theorem combineV_joinOpFor (operator : JoinOperator) (left_key right_key : Nat) (l r : VRow) :
    (SqlConverter.joinOpFor operator left_key right_key l.length r.length).combineV l r
      = l ++ r.eraseIdx right_key := by
  have hl := map_getD_range l
  have hr := map_getD_range r
  simp only [JoinOp.combineV, SqlConverter.joinOpFor, SqlConverter.joinEmit, List.map_append,
    List.map_map, filter_ne_range, ← List.eraseIdx_map]
  congr 1
  congr 1

namespace Scope

variable {s : Scope} {rows : List VRow}

theorem row_append (hrows : rows.length = s.tables.length) (rest : List VRow) :
    s.row (rows ++ rest) = s.row rows := by
  refine List.map_congr_left fun e he => ?_
  obtain ⟨t, ht, -⟩ := s.described e he
  have hlt : e.2.1 < rows.length := hrows ▸ (List.getElem?_eq_some_iff.mp ht).1
  simp only [List.getD_eq_getElem?_getD, List.getElem?_append_left hlt]

theorem row_tableLayout (hr : r.length = t.2.length) (rows rest : List VRow) :
    ((tableLayout rows.length t.2).map fun e =>
      ((rows ++ r :: rest).getD e.2.1 []).getD e.2.2 .null) = r := by
  refine List.ext_getElem (by simp [tableLayout, hr]) fun i _ hi => ?_
  simp [tableLayout, List.getElem?_eq_getElem hi]

theorem row_single (hr : r.length = t.2.length) : (single t).row [r] = r := row_tableLayout hr [] []

theorem row_join (hrows : rows.length = s.tables.length) (hr : r.length = t.2.length)
    (right_key : Nat) :
    (s.join t right_key).row (rows ++ [r]) = s.row rows ++ r.eraseIdx right_key := by
  have hleft := row_append hrows [r]
  have hright := row_tableLayout hr rows []
  rw [hrows] at hright
  unfold row at hleft ⊢
  rw [join, List.map_append, ← List.eraseIdx_map, hleft, hright]

end Scope

/-! ## The scope of a FROM clause -/

namespace SqlConverter

/-- A table of a FROM clause: the name by which it is known, and its columns. -/
def knownAs (conv : SqlConverter) : SelectTable → Option (String × List String)
  | .table name as_name =>
    (conv.get_schema name).map fun schema => (as_name.getD name, schema.columns)
  | _ => none

/-- The tables joined to the ones that are there. -/
def scopeFrom (conv : SqlConverter) : List JoinedSelectTable → Scope → Option Scope
  | [], s => some s
  | join :: joins, s =>
    match conv.knownAs join.table with
    | none => none
    | some t =>
      match extract_join_keys join.constraint s.names t.2 with
      | .ok keys => conv.scopeFrom joins (s.join t keys.2)
      | _ => none

def scope (conv : SqlConverter) (from_clause : FromClause) : Option Scope :=
  match from_clause.select.bind conv.knownAs with
  | none => none
  | some t => conv.scopeFrom (from_clause.joins.getD []) (.single t)

variable {conv : SqlConverter}

theorem knownAs_eq_some :
    conv.knownAs table = some t ↔ ∃ name as_name schema, table = .table name as_name ∧
      conv.get_schema name = some schema ∧ t = (as_name.getD name, schema.columns) := by
  cases table with
  | table name as_name => simp [knownAs, eq_comm]
  | select => simp [knownAs]
  | other tag => simp [knownAs]

theorem scopeFrom_cons {join : JoinedSelectTable} {s : Scope} :
    conv.scopeFrom (join :: joins) s = some s' ↔
      ∃ t l r, conv.knownAs join.table = some t ∧
        extract_join_keys join.constraint s.names t.2 = .ok (l, r) ∧
        conv.scopeFrom joins (s.join t r) = some s' := by
  rw [scopeFrom]
  constructor
  · intro h
    split at h
    · cases h
    · rename_i t ht
      split at h
      · rename_i keys hkeys
        exact ⟨t, keys.1, keys.2, ht, hkeys, h⟩
      · cases h
  · rintro ⟨t, l, r, ht, hkeys, h⟩
    simp only [ht, hkeys, h]

theorem scopeFrom_append {before after : List JoinedSelectTable} {s : Scope} :
    conv.scopeFrom (before ++ after) s = some s' ↔
      ∃ s₁, conv.scopeFrom before s = some s₁ ∧ conv.scopeFrom after s₁ = some s' := by
  induction before generalizing s with
  | nil => simp [scopeFrom]
  | cons join before ih =>
    simp only [List.cons_append, scopeFrom_cons, ih]
    constructor
    · rintro ⟨t, l, r, ht, hkeys, s₁, h₁, h₂⟩
      exact ⟨s₁, ⟨t, l, r, ht, hkeys, h₁⟩, h₂⟩
    · rintro ⟨s₁, ⟨t, l, r, ht, hkeys, h₁⟩, h₂⟩
      exact ⟨t, l, r, ht, hkeys, s₁, h₁, h₂⟩

theorem scopeFrom_rows {s : Scope} (h : conv.scopeFrom joins s = some s') :
    ∃ more steps, s'.tables = s.tables ++ more ∧
      joinSteps conv joins s.names = some (steps, s'.names) ∧
      ∀ rows rest, rows.length = s.tables.length → Widths rest more →
        joinRow steps (s.row rows) rest = s'.row (rows ++ rest) := by
  induction joins generalizing s with
  | nil =>
    cases h
    refine ⟨[], [], (List.append_nil _).symm, rfl, fun rows rest _ hrest => ?_⟩
    cases hrest
    rw [List.append_nil]
    rfl
  | cons join joins ih =>
    obtain ⟨t, l, r, ht, hkeys, h⟩ := scopeFrom_cons.mp h
    obtain ⟨name, as_name, schema, htable, hschema, rfl⟩ := knownAs_eq_some.mp ht
    obtain ⟨more, steps, htables, hsteps, hrows⟩ := ih h
    rw [Scope.names_join] at hsteps
    refine ⟨(as_name.getD name, schema.columns) :: more,
      ⟨name, joinOpFor join.operator l r s.names.length schema.columns.length⟩ :: steps,
      ?_, ?_, ?_⟩
    · rw [htables, Scope.join, List.append_assoc]
      rfl
    · simp only [joinSteps, htable, hschema, hkeys, hsteps]
      rfl
    · intro rows rest hlen hrest
      cases hrest with
      | cons hwidth hrest =>
        rename_i row rest
        have hleft : (s.row rows).length = s.names.length := by simp [Scope.row]
        have hop := combineV_joinOpFor join.operator l r (s.row rows) row
        rw [hleft, hwidth, ← Scope.row_join hlen hwidth r] at hop
        have hrun := hrows (rows ++ [row]) rest (by simp [Scope.join, hlen]) hrest
        rw [List.append_assoc] at hrun
        rw [joinRow, hop, hrun]
        rfl

/-! ### What is built -/

theorem build_select_table_known {columns : List String}
    (h : conv.build_select_table table ex = (.ok (node, columns), ex')) :
    ∃ t, conv.knownAs table = some t ∧ columns = t.2 := by
  cases table with
  | select => cases h
  | other tag => cases h
  | table name as_name =>
    simp only [build_select_table] at h
    cases hschema : conv.get_schema name with
    | none =>
      rw [hschema] at h
      cases h
    | some schema =>
      rw [hschema] at h
      obtain ⟨idx, ex₁, -, h₂⟩ := Keeping.bind_ok_iff.mp h
      cases h₂
      exact ⟨_, by rw [knownAs, hschema]; rfl, rfl⟩

theorem build_joins_scope {cur : Nat} {columns : List String} {s : Scope}
    (h : conv.build_joins joins cur s.names ex = (.ok (node, columns), ex')) :
    ∃ s', conv.scopeFrom joins s = some s' ∧ s'.names = columns := by
  induction joins generalizing s cur ex with
  | nil =>
    cases h
    exact ⟨s, rfl, rfl⟩
  | cons join joins ih =>
    obtain ⟨⟨right, right_columns⟩, ex₁, htable, h⟩ := Keeping.bind_ok_iff.mp h
    obtain ⟨⟨left_key, right_key⟩, ex₁', hk, h⟩ := Keeping.bind_ok_iff.mp h
    rw [Keeping.lift_apply, Prod.mk.injEq] at hk
    obtain ⟨-, ex₂, -, h⟩ := Keeping.bind_ok_iff.mp h
    obtain ⟨-, ex₃, -, h⟩ := Keeping.bind_ok_iff.mp h
    obtain ⟨idx, ex₄, -, h⟩ := Keeping.bind_ok_iff.mp h
    obtain ⟨t, ht, rfl⟩ := build_select_table_known htable
    rw [← Scope.names_join] at h
    obtain ⟨s', hs', hnames⟩ := ih h
    exact ⟨s', scopeFrom_cons.mpr ⟨t, left_key, right_key, ht, hk.1, hs'⟩, hnames⟩

theorem build_from_clause_scope {from_clause : FromClause} {columns : List String}
    (h : conv.build_from_clause from_clause ex = (.ok (node, columns), ex')) :
    ∃ table t s, from_clause.select = some table ∧ conv.knownAs table = some t ∧
      conv.scopeFrom (from_clause.joins.getD []) (.single t) = some s ∧ s.names = columns := by
  unfold build_from_clause at h
  cases htable : from_clause.select with
  | none =>
    rw [htable] at h
    cases h
  | some table =>
    rw [htable] at h
    obtain ⟨⟨first, first_columns⟩, ex₁, h₁, h₂⟩ := Keeping.bind_ok_iff.mp h
    obtain ⟨t, ht, rfl⟩ := build_select_table_known h₁
    rw [← Scope.names_single t] at h₂
    obtain ⟨s, hs, hnames⟩ := build_joins_scope h₂
    exact ⟨table, t, s, rfl, ht, hs, hnames⟩

end SqlConverter

/-! ## References -/

namespace Scope

/-- A reference `x.c` denotes column `i` of the `k`th table: this is the one table that is known as
    `x`, and the one column of it that is called `c`. -/
structure Denotes (s : Scope) (x c : String) (k i : Nat) : Prop where
  known : ∃ t name, s.tables[k]? = some t ∧ eq_ignore_ascii_case t.1 x = true ∧
    t.2[i]? = some name ∧ eq_ignore_ascii_case name c = true
  table_unique : ∀ k' t, s.tables[k']? = some t → eq_ignore_ascii_case t.1 x = true → k' = k
  column_unique : ∀ t j name, s.tables[k]? = some t → t.2[j]? = some name →
    eq_ignore_ascii_case name c = true → j = i

/-- The reference is found where the column stands. -/
def Resolved (s : Scope) (x c : String) (k i : Nat) : Prop :=
  ∃ p, get_column_index_from_expr (.qualified x c) s.names = some p ∧ s.origin p = some (k, i)

/-- The column is there, behind no other one of its name, and no column has
    the text of the reference for a name. -/
def Clear (s : Scope) (x c : String) (k i : Nat) : Prop :=
  ¬Named s.names (qualifiedName x c) ∧
    ∃ p, s.origin p = some (k, i) ∧
      ∀ q < p, ∀ col, s.names[q]? = some col → ¬eq_ignore_ascii_case col c = true

variable {s : Scope} {x c : String} {k i : Nat}

theorem resolved_iff_clear
    (hname : ∀ t name, s.tables[k]? = some t → t.2[i]? = some name →
      eq_ignore_ascii_case name c = true) : s.Resolved x c k i ↔ s.Clear x c k i := by
  constructor
  · rintro ⟨p, hp, horigin⟩
    obtain ⟨t, name, ht, hcol, hnames⟩ := name_of_origin horigin
    rcases get_column_index_qualified.mp hp with ⟨⟨col, hcol', htext⟩, -⟩ | ⟨hfree, -, hfirst⟩
    · -- the column would be called both `c` and `x.c`
      rw [hnames] at hcol'
      cases hcol'
      exact absurd htext (not_qualified_of_name (hname t name ht hcol))
    · exact ⟨hfree, p, horigin, hfirst⟩
  · rintro ⟨hfree, p, horigin, hfirst⟩
    obtain ⟨t, name, ht, hcol, hnames⟩ := name_of_origin horigin
    exact ⟨p, get_column_index_qualified.mpr
      (.inr ⟨hfree, ⟨name, hnames, hname t name ht hcol⟩, hfirst⟩), horigin⟩

/-- What a reference denotes in a FROM clause has its name in the tables joined so far. -/
theorem Denotes.name (h : s.Denotes x c k i) (hmore : s.tables = s₁.tables ++ more)
    (t : String × List String) (name : String) (ht : s₁.tables[k]? = some t)
    (hcol : t.2[i]? = some name) : eq_ignore_ascii_case name c = true := by
  obtain ⟨t', name', ht', -, hcol', hname⟩ := h.known
  have hlt := (List.getElem?_eq_some_iff.mp ht).1
  rw [hmore, List.getElem?_append_left hlt, ht] at ht'
  cases ht'
  rw [hcol] at hcol'
  cases hcol'
  exact hname

end Scope

/-! ### The condition of a join -/

/-- Something is found for an operand of a condition. -/
def Reached (columns : List String) : Expr → Prop
  | .id name => Named columns name
  | .qualified x c => Named columns (qualifiedName x c) ∨ Named columns c
  | _ => False

theorem get_column_index_none_iff {columns : List String} :
    get_column_index_from_expr e columns = none ↔ ¬Reached columns e := by
  unfold Reached
  split
  · exact findIdx?_eq_none_iff_named
  · rw [get_column_index_qualified_none, not_or]
  · rename_i hid hqualified
    refine ⟨fun _ h => h, fun _ => ?_⟩
    unfold get_column_index_from_expr
    split
    · exact absurd rfl (hid _)
    · exact absurd rfl (hqualified _ _)
    · rfl

theorem extract_join_keys_on {e₁ e₂ : Expr} {left right : List String} {r : Nat}
    (h : extract_join_keys (some (.onExpr (.binary e₁ .equals e₂))) left right = .ok (l, r)) :
    Reached left e₁ ∧ Reached right e₂ ∧ get_column_index_from_expr e₁ left = some l ∧
        get_column_index_from_expr e₂ right = some r ∨
      ¬(Reached left e₁ ∧ Reached right e₂) ∧ get_column_index_from_expr e₁ right = some r ∧
        get_column_index_from_expr e₂ left = some l := by
  have hreached : ∀ {columns e i}, get_column_index_from_expr e columns = some i →
      Reached columns e := by
    intro columns e i hi
    by_contra hnone
    rw [get_column_index_none_iff.mpr hnone] at hi
    cases hi
  simp only [extract_join_keys] at h
  split at h
  case h_2 => cases h
  rename_i keys hkeys
  cases h
  split at hkeys
  · rename_i h₁ h₂
    cases hkeys
    exact .inl ⟨hreached h₁, hreached h₂, h₁, h₂⟩
  · rename_i hnot
    refine .inr ⟨?_, ?_⟩
    · rintro ⟨h₁, h₂⟩
      obtain ⟨i, hi⟩ := ne_none_iff_exists'.mp
        (fun hnone => get_column_index_none_iff.mp hnone h₁)
      obtain ⟨j, hj⟩ := ne_none_iff_exists'.mp
        (fun hnone => get_column_index_none_iff.mp hnone h₂)
      exact hnot i j hi hj
    · split at hkeys
      · rename_i h₁ h₂
        cases hkeys
        exact ⟨h₁, h₂⟩
      · cases hkeys

/-- How the operands of a condition are read when `right` is joined to `s₁` in the FROM clause of
    `s`: one among the columns of `s₁`, one among those of `right`. Each is the column denoted
    exactly under a condition on the names. -/
structure OperandsRead (s s₁ : Scope) (right : List String) (on_left on_right : Expr)
    (l r : Nat) : Prop where
  left_index : get_column_index_from_expr on_left s₁.names = some l
  right_index : get_column_index_from_expr on_right right = some r
  left_iff : ∀ x c k i, on_left = .qualified x c → s.Denotes x c k i →
    (s₁.origin l = some (k, i) ↔ s₁.Clear x c k i)
  right_iff : ∀ x c k i, on_right = .qualified x c → s.Denotes x c k i →
    ((s₁.tables.length, r) = (k, i) ↔
      s₁.tables.length = k ∧ ¬Named right (qualifiedName x c))

theorem operandsRead {s : Scope} (hmore : s.tables = s₁.tables ++ t :: more)
    {on_left on_right : Expr} {r : Nat} (hl : get_column_index_from_expr on_left s₁.names = some l)
    (hr : get_column_index_from_expr on_right t.2 = some r) :
    OperandsRead s s₁ t.2 on_left on_right l r where
  left_index := hl
  right_index := hr
  left_iff := by
    rintro x c k i rfl hden
    rw [← Scope.resolved_iff_clear (hden.name hmore)]
    constructor
    · intro horigin
      exact ⟨l, hl, horigin⟩
    · rintro ⟨p, hp, horigin⟩
      rw [hl] at hp
      cases hp
      exact horigin
  right_iff := by
    rintro x c k i rfl hden
    rw [Prod.mk.injEq]
    refine and_congr_right fun hk => ?_
    subst hk
    have ht : s.tables[s₁.tables.length]? = some t := by rw [hmore]; simp
    obtain ⟨t', name, ht', -, hcol, hname⟩ := hden.known
    rw [ht] at ht'
    cases ht'
    rcases get_column_index_qualified.mp hr with ⟨⟨col, hcol', htext⟩, hfirst⟩ |
      ⟨hfree, ⟨col, hcol', hname'⟩, -⟩
    · refine ⟨?_, fun hfree => absurd ⟨col, List.mem_of_getElem? hcol', htext⟩ hfree⟩
      rintro rfl
      rw [hcol] at hcol'
      cases hcol'
      exact absurd htext (not_qualified_of_name hname)
    · exact ⟨fun _ => hfree, fun _ => hden.column_unique t r col ht hcol' hname'⟩

/-! ## Accepted FROM clauses -/

/-- **Where references lead.** In a FROM clause that is accepted, with the joined rows that its
    joins make: a reference of the SELECT list is found at the column that it denotes exactly if
    this column is clear; one of the WHERE clause is, or the query is rejected, exactly if the
    column is clear or nothing is found; and of the two operands of an ON condition the one that is
    looked for on the left is exactly if its column is clear among the tables joined so far, and the
    one that is looked for on the right exactly if it denotes a column of the joined table and none
    there has its text for a name. -/
theorem qualified_resolution_iff {conv : SqlConverter} {from_clause : FromClause} {node : Nat}
    {columns : List String} {ex ex' : LocalExecutor}
    (h : conv.build_from_clause from_clause ex = (.ok (node, columns), ex')) :
    ∃ s q, conv.scope from_clause = some s ∧ conv.joinQuery from_clause = some q ∧
      s.names = columns ∧
      (∀ first rest, Widths (first :: rest) s.tables →
        joinRow q.steps first rest = s.row (first :: rest)) ∧
      (∀ x c k i, s.Denotes x c k i →
        (s.Resolved x c k i ↔ s.Clear x c k i) ∧
        ((∀ env op right, convert_comparison env (.qualified x c) op right columns =
              .error (.unsupportedQuery "Left side of comparison must be a column")) ∨
            s.Resolved x c k i ↔
          ¬Reached columns (.qualified x c) ∨ s.Clear x c k i)) ∧
      ∀ before join after e₁ e₂, from_clause.joins.getD [] = before ++ join :: after →
        join.constraint = some (.onExpr (.binary e₁ .equals e₂)) →
        ∃ s₁ t l r, conv.scope ⟨from_clause.select, some before⟩ = some s₁ ∧
          conv.knownAs join.table = some t ∧
          extract_join_keys join.constraint s₁.names t.2 = .ok (l, r) ∧
          (Reached s₁.names e₁ ∧ Reached t.2 e₂ → OperandsRead s s₁ t.2 e₁ e₂ l r) ∧
          (¬(Reached s₁.names e₁ ∧ Reached t.2 e₂) → OperandsRead s s₁ t.2 e₂ e₁ l r) := by
  obtain ⟨table, t₀, s, hselect, ht₀, hs, hnames⟩ := build_from_clause_scope h
  have hscope : ∀ joins, conv.scope ⟨from_clause.select, some joins⟩
      = conv.scopeFrom joins (.single t₀) := by
    intro joins
    simp only [SqlConverter.scope, hselect, bind_some, ht₀, getD_some]
  obtain ⟨name, as_name, schema, htable, hschema, rfl⟩ := knownAs_eq_some.mp ht₀
  obtain ⟨more, steps, hmore, hsteps, hrows⟩ := scopeFrom_rows hs
  rw [Scope.names_single] at hsteps
  refine ⟨s, ⟨name, steps⟩, ?_, ?_, hnames, ?_, ?_, ?_⟩
  · simp only [SqlConverter.scope, hselect, bind_some, ht₀, hs]
  · simp only [SqlConverter.joinQuery, hselect, htable, hschema, bind_eq_bind,
      bind_some, hsteps]
  · intro first rest hwidths
    rw [hmore] at hwidths
    cases hwidths with
    | cons hfirst hrest =>
      have := hrows [first] rest rfl hrest
      rwa [Scope.row_single hfirst] at this
  · intro x c k i hden
    have hiff : s.Resolved x c k i ↔ s.Clear x c k i :=
      Scope.resolved_iff_clear (hden.name (List.append_nil _).symm)
    refine ⟨hiff, or_congr ?_ hiff⟩
    rw [← get_column_index_none_iff]
    constructor
    · intro hreject
      -- a placeholder on the right is always accepted
      cases hget : get_column_index_from_expr (.qualified x c) columns with
      | none => rfl
      | some p =>
        have := hreject plainEnv .equals (.variable "?")
        rw [convert_comparison, hget] at this
        cases this
    · intro hnone env op right
      rw [convert_comparison, hnone]
  · intro before join after e₁ e₂ hjoins hon
    rw [hjoins] at hs
    obtain ⟨s₁, hs₁, hrest⟩ := scopeFrom_append.mp hs
    obtain ⟨t, l, r, ht, hkeys, hafter⟩ := scopeFrom_cons.mp hrest
    obtain ⟨more', -, hmore', -, -⟩ := scopeFrom_rows hafter
    have htables : s.tables = s₁.tables ++ t :: more' := by
      rw [hmore', Scope.join, List.append_assoc]
      rfl
    refine ⟨s₁, t, l, r, by rw [hscope, hs₁], ht, hkeys, ?_, ?_⟩
    · intro hboth
      rw [hon] at hkeys
      rcases extract_join_keys_on hkeys with ⟨-, -, hl, hr⟩ | ⟨hnot, -⟩
      · exact operandsRead htables hl hr
      · exact absurd hboth hnot
    · intro hnot
      rw [hon] at hkeys
      rcases extract_join_keys_on hkeys with ⟨h₁, h₂, -⟩ | ⟨-, hr, hl⟩
      · exact absurd ⟨h₁, h₂⟩ hnot
      · exact operandsRead htables hl hr

/-- Two tables with the same columns. -/
def twins : SqlConverter := ⟨[⟨"a", ["id", "name"]⟩, ⟨"b", ["id", "name"]⟩]⟩

/-- `FROM a JOIN b ON a.id = b.id`. -/
def twinsJoined : FromClause :=
  ⟨some (.table "a" none), some [⟨.typedJoin none, .table "b" none,
    some (.onExpr (.binary (.qualified "a" "id") .equals (.qualified "b" "id")))⟩]⟩

/-- The scope of the two tables. -/
def twinsScope : Scope := (Scope.single ("a", ["id", "name"])).join ("b", ["id", "name"]) 0

theorem scope_twinsJoined : twins.scope twinsJoined = some twinsScope := rfl

theorem denotes_twins {x : String} {k : Nat} (hx : (x, k) = ("a", 0) ∨ (x, k) = ("b", 1)) :
    twinsScope.Denotes x "name" k 1 := by
  have hcolumn : ∀ j name, ["id", "name"][j]? = some name →
      eq_ignore_ascii_case name "name" = true → j = 1 := by
    intro j name hj hname
    rcases j with _ | _ | j
    · cases hj
      exact absurd hname (by decide)
    · rfl
    · cases hj
  rcases hx with hx | hx
  · cases hx
    refine ⟨⟨_, _, rfl, rfl, rfl, rfl⟩, ?_, fun t j name ht => ?_⟩
    · intro k' t ht hname
      rcases k' with _ | _ | k'
      · rfl
      · cases ht
        exact absurd hname (by decide)
      · cases ht
    · cases ht
      exact hcolumn j name
  · cases hx
    refine ⟨⟨_, _, rfl, rfl, rfl, rfl⟩, ?_, fun t j name ht => ?_⟩
    · intro k' t ht hname
      rcases k' with _ | _ | k'
      · cases ht
        exact absurd hname (by decide)
      · rfl
      · cases ht
    · cases ht
      exact hcolumn j name

/-- `a.name` is clear, and found. -/
theorem first_name_resolved :
    ∃ s, twins.scope twinsJoined = some s ∧ s.Denotes "a" "name" 0 1 ∧
      s.Resolved "a" "name" 0 1 := by
  obtain ⟨node, columns, ex, hbuild⟩ : ∃ node columns ex,
      twins.build_from_clause twinsJoined .new = (.ok (node, columns), ex) := ⟨_, _, _, rfl⟩
  obtain ⟨s, q, hs, -, -, -, href, -⟩ := qualified_resolution_iff hbuild
  rw [scope_twinsJoined, some.injEq] at hs
  subst hs
  have hden := denotes_twins (.inl rfl)
  refine ⟨twinsScope, scope_twinsJoined, hden, (href _ _ _ _ hden).1.mpr ⟨by decide, 1, rfl, ?_⟩⟩
  intro q hq col hcol
  obtain rfl : q = 0 := by omega
  cases hcol
  decide

/-- `b.name` is found at the place of `a.name`. -/
theorem name_of_the_other_table :
    ∃ node columns ex s, twins.build_from_clause twinsJoined .new = (.ok (node, columns), ex) ∧
      twins.scope twinsJoined = some s ∧ s.names = columns ∧ s.Denotes "b" "name" 1 1 ∧
      get_column_index_from_expr (.qualified "b" "name") columns = some 1 ∧
      s.origin 1 = some (0, 1) ∧ s.origin 2 = some (1, 1) ∧ ¬s.Resolved "b" "name" 1 1 := by
  have hget : get_column_index_from_expr (.qualified "b" "name") twinsScope.names = some 1 := rfl
  refine ⟨_, _, _, twinsScope, rfl, scope_twinsJoined, rfl, denotes_twins (.inr rfl), hget, rfl,
    rfl, ?_⟩
  rintro ⟨p, hp, horigin⟩
  rw [hget] at hp
  cases hp
  cases horigin

end Noria.Sqlite

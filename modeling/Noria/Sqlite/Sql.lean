import Noria.Framework.Outcome
import Noria.Sqlite.Ast
import Noria.Sqlite.Executor

/-! # SQL to dataflow conversion

  The converter of `dataflow/sql.rs`. Functions that change the executor are `Build` computations:
  an error leaves the executor as far as it had been built, and a panic is an outcome of its own.

  What the source takes from elsewhere is gathered in `SqlEnv`: the
  parser, the debug texts that appear in error messages, the upper-casing
  of Unicode texts, the clock, and the iteration order of hash maps.
-/

namespace Noria.Sqlite

inductive SqlError where
  | parseError (text : String)
  | unsupportedQuery (text : String)
  | tableNotFound (text : String)
  | columnNotFound (text : String)
  deriving DecidableEq, Repr

/-- What the converter takes from elsewhere. -/
structure SqlEnv where
  /-- The first command of a text; an error is given by its debug text. -/
  parse : String → Except String (Option Cmd)
  debug_expr : Expr → String
  debug_operator : Operator → String
  to_uppercase : String → String
  /-- `chrono::Utc::now().to_string()`. -/
  now : String
  /-- How the aggregate at a node iterates its hash maps. -/
  hash_order : Nat → HashOrder

/-- A pure step of the conversion. -/
abbrev SqlResult := Outcome SqlError

/-- A step of the conversion that may change the executor. -/
abbrev Build := Keeping LocalExecutor SqlError

namespace Build

def get_or_add_base_table (name : String) (columns : List String) : Build Nat := fun ex =>
  let (idx, ex') := ex.get_or_add_base_table name columns
  (.ok idx, ex')

def add_operator (name : String) (op : OperatorType) (parents : List Nat)
    (columns : List String) : Build Nat :=
  Keeping.modifyGet fun ex => ex.add_operator name op parents columns

def materialize (node : Nat) (key_columns : List Nat) : Build ViewHandle :=
  Keeping.modifyGet fun ex => ex.materialize node key_columns

end Build

/-- Schema information for a table. -/
structure TableSchema where
  name : String
  columns : List String
  deriving DecidableEq, Repr

structure SqlConverter where
  schemas : List TableSchema

structure AggInfo where
  func : AggregateFunc
  alias_name : String

/-! ## Reading expressions -/

def get_column_index_from_expr (expr : Expr) (columns : List String) : Option Nat :=
  match expr with
  | .id name => columns.findIdx? (eq_ignore_ascii_case · name)
  | .qualified table col =>
    match columns.findIdx? (eq_ignore_ascii_case · (table ++ "." ++ col)) with
    | some i => some i
    | none => columns.findIdx? (eq_ignore_ascii_case · col)
  | _ => none

def extract_join_keys (constraint : Option JoinConstraint)
    (left_columns right_columns : List String) : SqlResult (Nat × Nat) :=
  match constraint with
  | some (.onExpr expr) =>
    -- look for the pattern column = column, in either order
    let keys : Option (Nat × Nat) :=
      match expr with
      | .binary left .equals right =>
        match get_column_index_from_expr left left_columns,
            get_column_index_from_expr right right_columns with
        | some l, some r => some (l, r)
        | _, _ =>
          match get_column_index_from_expr left right_columns,
              get_column_index_from_expr right left_columns with
          | some r, some l => some (l, r)
          | _, _ => none
      | _ => none
    match keys with
    | some k => .ok k
    | none => .error (.unsupportedQuery "JOIN ON clause must be column = column")
  | some (.usingCols cols) =>
    let keys : Option (Nat × Nat) := do
      let name ← cols.head?
      let l ← left_columns.findIdx? (eq_ignore_ascii_case · name)
      let r ← right_columns.findIdx? (eq_ignore_ascii_case · name)
      some (l, r)
    match keys with
    | some k => .ok k
    | none => .error (.unsupportedQuery "USING column not found in tables")
  | none => .ok (0, 0)

def convert_literal (env : SqlEnv) (lit : Literal) : SqlResult DataType :=
  match lit with
  | .numeric n =>
    match parse_i64 n with
    | some i => .ok (.bigInt i)
    | none =>
      match parse_f64 n with
      | some f => .ok f.toReal
      | none => .error (.unsupportedQuery ("Cannot parse numeric literal: " ++ n))
  | .string s => Outcome.ofOption (DataType.from_str s)
  | .null => .ok .none
  | .currentDate => Outcome.ofOption (DataType.from_str env.now)
  | .currentTime => Outcome.ofOption (DataType.from_str env.now)
  | .currentTimestamp => Outcome.ofOption (DataType.from_str env.now)
  | .blob _ => .error (.unsupportedQuery "BLOB literals not supported")
  | .keyword kw =>
    if env.to_uppercase kw = "TRUE" then .ok (.int 1)
    else if env.to_uppercase kw = "FALSE" then .ok (.int 0)
    else .error (.unsupportedQuery ("Unsupported keyword literal: " ++ kw))

def convert_expr_to_datatype (env : SqlEnv) (expr : Expr) : SqlResult DataType :=
  match expr with
  | .literal lit => convert_literal env lit
  | .unary .negative (.literal (.numeric n)) => .ok (.bigInt (-((parse_i64 n).getD 0)))
  | .unary .negative _ => .error (.unsupportedQuery "Unary minus only supported on numbers")
  | _ => .error (.unsupportedQuery ("Expected literal value, got: " ++ env.debug_expr expr))

def convert_comparison (env : SqlEnv) (left : Expr) (op : Operator) (right : Expr)
    (columns : List String) : SqlResult FilterCondition :=
  match get_column_index_from_expr left columns with
  | none => .error (.unsupportedQuery "Left side of comparison must be a column")
  | some col_idx =>
    match right with
    -- a placeholder marks a key column; filtering happens at lookup time
    | .variable _ => .ok .alwaysTrue
    | right => do
      let value ← convert_expr_to_datatype env right
      match op with
      | .equals => .ok (.eq col_idx value)
      | .notEquals => .ok (.ne col_idx value)
      | .greater => .ok (.gt col_idx value)
      | .less => .ok (.lt col_idx value)
      | .greaterEquals => .ok (.or [.gt col_idx value, .eq col_idx value])
      | .lessEquals => .ok (.or [.lt col_idx value, .eq col_idx value])
      | op =>
        .error (.unsupportedQuery ("Unsupported comparison operator: " ++ env.debug_operator op))

def convert_expr_to_filter (env : SqlEnv) (columns : List String) :
    Expr → SqlResult FilterCondition
  | .binary left .and right => do
    let left_cond ← convert_expr_to_filter env columns left
    let right_cond ← convert_expr_to_filter env columns right
    .ok (.and [left_cond, right_cond])
  | .binary left .or right => do
    let left_cond ← convert_expr_to_filter env columns left
    let right_cond ← convert_expr_to_filter env columns right
    .ok (.or [left_cond, right_cond])
  | .binary _ (.other tag) _ =>
    .error (.unsupportedQuery
      ("Unsupported operator in WHERE: " ++ env.debug_operator (.other tag)))
  | .binary left op right => convert_comparison env left op right columns
  | .parenthesized [inner] => convert_expr_to_filter env columns inner
  | .parenthesized _ =>
    .error (.unsupportedQuery "Multiple expressions in parentheses not supported")
  | expr =>
    .error (.unsupportedQuery ("Unsupported expression in WHERE: " ++ env.debug_expr expr))

def extract_equality_column (columns : List String) : Expr → Option Nat
  | .binary left .equals _ => get_column_index_from_expr left columns
  | .binary left .and right =>
    match extract_equality_column columns left with
    | some i => some i
    | none => extract_equality_column columns right
  | .parenthesized [inner] => extract_equality_column columns inner
  | _ => none

def extract_key_columns (where_clause : Option Expr) (columns : List String) : List Nat :=
  match where_clause.bind (extract_equality_column columns) with
  | some col_idx => [col_idx]
  | none => if columns.isEmpty then [] else [0]

/-! ## Reading the select list -/

/-- The column of an aggregate's first argument, or the first column. -/
def first_arg_column (args : Option (List Expr)) (columns : List String) : Nat :=
  match args with
  | some (first_arg :: _) => (get_column_index_from_expr first_arg columns).getD 0
  | _ => 0

def extract_aggregate_from_expr (env : SqlEnv) (expr : Expr) (columns : List String) :
    Option AggregateFunc :=
  match expr with
  | .functionCall name args =>
    let func_name := env.to_uppercase name
    if func_name = "COUNT" then some .count
    else if func_name = "SUM" then some (.sum (first_arg_column args columns))
    else if func_name = "AVG" then some (.avg (first_arg_column args columns))
    else if func_name = "MIN" then some (.min (first_arg_column args columns))
    else if func_name = "MAX" then some (.max (first_arg_column args columns))
    else none
  | .functionCallStar name => if env.to_uppercase name = "COUNT" then some .count else none
  | _ => none

/-- Extract aggregate function info from the select list: its first aggregate. -/
def extract_aggregate (env : SqlEnv) (columns : List ResultColumn)
    (current_columns : List String) : Option AggInfo :=
  match columns with
  | [] => none
  | .expr e as_name :: rest =>
    match extract_aggregate_from_expr env e current_columns with
    | some func => some ⟨func, as_name.getD "agg"⟩
    | none => extract_aggregate env rest current_columns
  | _ :: rest => extract_aggregate env rest current_columns

/-- The loop of `get_projection`; `none` where it returns `Ok(None)`. -/
def projectionLoop (columns : List ResultColumn) (current_columns : List String) :
    Option (List (Nat × String)) :=
  match columns with
  | [] => some []
  | .expr e as_name :: rest => do
    let idx ← get_column_index_from_expr e current_columns
    let rest ← projectionLoop rest current_columns
    some ((idx, as_name.getD (current_columns.getD idx "")) :: rest)
  | _ :: _ => none

def get_projection (columns : List ResultColumn) (current_columns : List String) :
    Option (List Nat × List String) :=
  match projectionLoop columns current_columns with
  | some [] => none
  | some cols => some (cols.map Prod.fst, cols.map Prod.snd)
  | none => none

/-! ## Building the graph -/

namespace SqlConverter

def new : SqlConverter := ⟨[]⟩

def register_table (conv : SqlConverter) (name : String) (columns : List String) :
    SqlConverter :=
  ⟨conv.schemas ++ [⟨name, columns⟩]⟩

def get_schema (conv : SqlConverter) (table : String) : Option TableSchema :=
  conv.schemas.find? fun s => eq_ignore_ascii_case s.name table

def build_select_table (conv : SqlConverter) (table : SelectTable) :
    Build (Nat × List String) :=
  match table with
  | .table name _ =>
    match conv.get_schema name with
    | none => Keeping.lift (.error (.tableNotFound name))
    | some schema => do
      let node ← Build.get_or_add_base_table name schema.columns
      pure (node, schema.columns)
  | .select => Keeping.lift (.error (.unsupportedQuery "Subqueries not yet supported"))
  | .other _ =>
    Keeping.lift (.error (.unsupportedQuery "Unsupported table type in FROM clause"))

/-- The join type that an operator stands for. -/
def joinTypeOf : JoinOperator → JoinType
  | .typedJoin (some flags) =>
    if flags.left then .left else if flags.right then .right else .inner
  | .typedJoin none => .inner
  | .comma => .inner

/-- The columns of a join: those of the left side, and those of the right
    side but its join column. -/
def joinedColumns (left right : List String) (right_key : Nat) : List String :=
  left ++ right.eraseIdx right_key

/-- The emitted columns of a join. -/
def joinEmit (left_cols right_cols right_key : Nat) : List (Bool × Nat) :=
  (List.range left_cols).map (fun i => (true, i)) ++
    ((List.range right_cols).filter (· ≠ right_key)).map fun i => (false, i)

/-- The operator built for a join. -/
def joinOpFor (operator : JoinOperator) (left_key right_key left_cols right_cols : Nat) : JoinOp :=
  ⟨joinTypeOf operator, left_key, right_key, joinEmit left_cols right_cols right_key, [0],
    left_cols, right_cols⟩

/-- The loop over the joins. Both inputs are materialized on their join
    column, so that a join can look up matching rows. -/
def build_joins (conv : SqlConverter) :
    List JoinedSelectTable → Nat → List String → Build (Nat × List String)
  | [], current_node, current_columns => pure (current_node, current_columns)
  | join :: joins, current_node, current_columns => do
    let (right_node, right_columns) ← conv.build_select_table join.table
    let (left_key, right_key) ←
      Keeping.lift (extract_join_keys join.constraint current_columns right_columns)
    let _ ← Build.materialize current_node [left_key]
    let _ ← Build.materialize right_node [right_key]
    let joined_columns := joinedColumns current_columns right_columns right_key
    let node ← Build.add_operator "join"
      (.join (joinOpFor join.operator left_key right_key current_columns.length
        right_columns.length))
      [current_node, right_node] joined_columns
    build_joins conv joins node joined_columns

def build_from_clause (conv : SqlConverter) (from_clause : FromClause) :
    Build (Nat × List String) :=
  match from_clause.select with
  | none => Keeping.lift (.error (.unsupportedQuery "FROM clause has no table"))
  | some table => do
    let (node, columns) ← conv.build_select_table table
    conv.build_joins (from_clause.joins.getD []) node columns

def get_primary_table_name (from_clause : FromClause) : String :=
  match from_clause.select with
  | some (.table name _) => name
  | _ => "query"

/-- Apply the WHERE clause. -/
def build_where (env : SqlEnv) (primary_table : String) (where_clause : Option Expr)
    (node : Nat) (columns : List String) : Build Nat :=
  match where_clause with
  | none => pure node
  | some where_expr => do
    let condition ← Keeping.lift (convert_expr_to_filter env columns where_expr)
    Build.add_operator (primary_table ++ "_filter") (.filter ⟨condition, columns.length, [0]⟩)
      [node] columns

/-- The grouping columns of an aggregate. -/
def group_indices (body : SelectBody) (columns : List String) : List Nat :=
  match body.group_by with
  | some exprs => exprs.filterMap (get_column_index_from_expr · columns)
  | none => extract_key_columns body.where_clause columns

/-- Add the aggregate, if the select list has one. The hash order belongs
    to the node about to be added. -/
def build_aggregate (env : SqlEnv) (primary_table : String) (body : SelectBody) (node : Nat)
    (columns : List String) : Build (Nat × List String × Bool) :=
  match extract_aggregate env body.columns columns with
  | none => pure (node, columns, false)
  | some agg_info => do
    let group := group_indices body columns
    let new_columns := group.map (columns.getD · "") ++ [agg_info.alias_name]
    let idx ← (fun ex => (.ok ex.nodes.length, ex) : Build Nat)
    let node ← Build.add_operator (primary_table ++ "_agg")
      (.aggregate (.new (env.hash_order idx) group agg_info.func group)) [node] new_columns
    pure (node, new_columns, true)

/-- One round of the loop over the key columns: find a key column among
    the emitted ones, or emit it too. -/
def placeKey (columns : List String)
    (acc : List Nat × List String × List Nat) (key_idx : Nat) :
    List Nat × List String × List Nat :=
  let (emit_indices, new_columns, final_key_columns) := acc
  match emit_indices.findIdx? (· == key_idx) with
  | some pos => (emit_indices, new_columns, final_key_columns ++ [pos])
  | none =>
    (emit_indices ++ [key_idx], new_columns ++ [columns.getD key_idx ""],
      final_key_columns ++ [emit_indices.length])

/-- Is the select list without a `*`? -/
def needs_projection (columns : List ResultColumn) : Bool :=
  !columns.any fun
    | .star => true
    | _ => false

/-- Add the projection; the result is the last node and the key columns of the view. -/
def build_projection (primary_table : String) (body : SelectBody) (has_aggregate : Bool)
    (node : Nat) (columns : List String) : Build (Nat × List Nat) :=
  let pre_projection_key_columns := extract_key_columns body.where_clause columns
  if needs_projection body.columns && !has_aggregate then
    match get_projection body.columns columns with
    | none => pure (node, pre_projection_key_columns)
    | some (indices, names) =>
      let (emit_indices, new_columns, final_key_columns) :=
        pre_projection_key_columns.foldl (placeKey columns) (indices, names, [])
      if emit_indices = List.range columns.length then
        pure (node, final_key_columns)
      else do
        let node ← Build.add_operator (primary_table ++ "_project")
          (.project ⟨emit_indices, final_key_columns⟩) [node] new_columns
        pure (node, final_key_columns)
  else
    pure (node, pre_projection_key_columns)

def build_select (env : SqlEnv) (conv : SqlConverter) (select : OneSelect) : Build ViewHandle :=
  match select with
  | .values =>
    Keeping.lift (.error (.unsupportedQuery "Only simple SELECT statements are supported"))
  | .select body =>
    match body.from_clause with
    | none => Keeping.lift (.error (.unsupportedQuery "SELECT requires FROM clause"))
    | some from_clause => do
      let (node, columns) ← conv.build_from_clause from_clause
      let primary_table := get_primary_table_name from_clause
      let node ← build_where env primary_table body.where_clause node columns
      let (node, columns, has_aggregate) ← build_aggregate env primary_table body node columns
      let (node, key_columns) ← build_projection primary_table body has_aggregate node columns
      Build.materialize node key_columns

def convert_select (env : SqlEnv) (conv : SqlConverter) (sql : String) : Build ViewHandle :=
  match env.parse sql with
  | .error e => Keeping.lift (.error (.parseError e))
  | .ok none => Keeping.lift (.error (.parseError "Empty SQL statement"))
  | .ok (some (.select select)) => build_select env conv select
  | .ok (some .other) =>
    Keeping.lift (.error (.unsupportedQuery "Only SELECT queries are supported"))

end SqlConverter

/-- An environment in which a text is one query. -/
def LocalExecutor.queryEnv (body : SelectBody) : SqlEnv :=
  ⟨fun _ => .ok (some (.select (.select body))), fun _ => "", fun _ => "", id, "",
    fun _ => .inserted⟩

/-- An environment in which no text is a query over a table. -/
def plainEnv : SqlEnv := LocalExecutor.queryEnv ⟨[], none, none, none⟩

end Noria.Sqlite

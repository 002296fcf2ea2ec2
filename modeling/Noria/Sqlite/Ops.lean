import Mathlib.Data.Multiset.Sort
import Noria.Sqlite.State

/-! # Data-flow operators

  The operators of `dataflow/ops.rs`. `process` functions return the operator as it is after the
  call; the outer `Option` is a panic (an index out of bounds).

  The second half of the file gives every operator its meaning on bags,
  `OperatorType.eval`, which knows nothing about records or state.
-/

namespace Noria.Sqlite

structure ProcessingResult where
  results : Records
  /-- Keys that need to be looked up from upstream (for upquery). -/
  lookups_needed : List (List DataType)

/-! ## Filter -/

inductive FilterCondition where
  | eq (col : Nat) (val : DataType)
  | ne (col : Nat) (val : DataType)
  | gt (col : Nat) (val : DataType)
  | lt (col : Nat) (val : DataType)
  | isNull (col : Nat)
  | isNotNull (col : Nat)
  | and (conds : List FilterCondition)
  | or (conds : List FilterCondition)
  /-- Used for placeholder conditions (`WHERE col = ?`). These mark key
      columns but don't filter during dataflow. -/
  | alwaysTrue

namespace FilterCondition

mutual

def evaluate : FilterCondition → Row → Option Bool
  | .eq col val, row => row[col]?.map (· == val)
  | .ne col val, row => row[col]?.map (· != val)
  | .gt col val, row => row[col]?.map fun d => d.cmp val == .gt
  | .lt col val, row => row[col]?.map fun d => d.cmp val == .lt
  | .isNull col, row => row[col]?.map (· == DataType.none)
  | .isNotNull col, row => row[col]?.map (· != DataType.none)
  | .and conds, row => evaluateAll conds row
  | .or conds, row => evaluateAny conds row
  | .alwaysTrue, _ => some true

/-- `conds.iter().all(..)`, which stops at the first `false`. -/
def evaluateAll : List FilterCondition → Row → Option Bool
  | [], _ => some true
  | c :: cs, row => do
    if ← evaluate c row then evaluateAll cs row else some false

/-- `conds.iter().any(..)`, which stops at the first `true`. -/
def evaluateAny : List FilterCondition → Row → Option Bool
  | [], _ => some false
  | c :: cs, row => do
    if ← evaluate c row then some true else evaluateAny cs row

end

end FilterCondition

structure FilterOp where
  condition : FilterCondition
  num_columns : Nat
  key_cols : List Nat

/-- The loop of `FilterOp::process`: keep the records whose row passes. -/
def FilterOp.keep (condition : FilterCondition) : Records → Option Records
  | [] => some []
  | record :: records => do
    let pass ← condition.evaluate record.row
    let rest ← FilterOp.keep condition records
    some (if pass then record :: rest else rest)

def FilterOp.process (op : FilterOp) (records : Records) : Option ProcessingResult := do
  let results ← FilterOp.keep op.condition records
  some ⟨results, []⟩

/-! ## Project -/

structure ProjectOp where
  emit : List Nat
  key_cols : List Nat

def ProjectOp.process (op : ProjectOp) (records : Records) : Option ProcessingResult := do
  let results ← records.mapM fun record => (record.row.cols op.emit).map record.withRow
  some ⟨results, []⟩

/-! ## Join -/

inductive JoinType where
  | inner
  | left
  | right
  deriving DecidableEq, Repr

structure JoinOp where
  join_type : JoinType
  left_key : Nat
  right_key : Nat
  /-- Which columns to emit: (is_left, column_index). -/
  emit : List (Bool × Nat)
  key_cols : List Nat
  left_cols : Nat
  right_cols : Nat

namespace JoinOp

/-- The emitted columns of a pair of rows. -/
def combine (op : JoinOp) (left right : Row) : Option Row :=
  op.emit.mapM fun e => if e.1 then left[e.2]? else right[e.2]?

/-- The emitted columns of a left row without a match. -/
def pad (op : JoinOp) (left : Row) : Option Row :=
  op.emit.mapM fun e => if e.1 then left[e.2]? else some DataType.none

/-- One round of the loop of `JoinOp::process`: the output records for one
    record, and the keys to look up. -/
def processRecord (op : JoinOp) (from_parent : Nat) (state : StateSnapshot) (record : Record) :
    Option (Records × List (List DataType)) := do
  let our_key := if from_parent = 0 then op.left_key else op.right_key
  let key_val ← record.row[our_key]?
  match state.lookup [key_val] with
  | .some other_rows =>
    let out ← other_rows.mapM fun other_row =>
      let combined :=
        if from_parent = 0 then op.combine record.row other_row
        else op.combine other_row record.row
      combined.map record.withRow
    some (out, [])
  | .empty =>
    if op.join_type = .left ∧ from_parent = 0 then
      let combined ← op.pad record.row
      some ([record.withRow combined], [])
    else
      some ([], [])
  | .missing =>
    if op.join_type = .left ∧ from_parent = 0 then
      let combined ← op.pad record.row
      some ([record.withRow combined], [[key_val]])
    else
      some ([], [[key_val]])

def process (op : JoinOp) (from_parent : Nat) (records : Records)
    (state : Option StateSnapshot) : Option ProcessingResult :=
  match state with
  | none => some ⟨[], []⟩
  | some s => do
    let outs ← records.mapM (op.processRecord from_parent s)
    some ⟨(outs.map Prod.fst).flatten, (outs.map Prod.snd).flatten⟩

end JoinOp

/-! ## Aggregate -/

inductive AggregateFunc where
  | count
  | sum (col : Nat)
  | avg (col : Nat)
  | min (col : Nat)
  | max (col : Nat)
  deriving DecidableEq, Repr

structure AggregateGroupState where
  count : Int64
  sum : Int64
  deriving DecidableEq

/-- The order in which a hash map is iterated: any order, and a different one at every call. -/
abbrev HashOrder :=
  Nat → (l : List (StateKey × (Int64 × Int64))) →
    { l' : List (StateKey × (Int64 × Int64)) // l'.Perm l }

/-- The order of insertion. -/
def HashOrder.inserted : HashOrder := fun _ l => ⟨l, .refl l⟩

structure AggregateOp where
  group_by : List Nat
  func : AggregateFunc
  key_cols : List Nat
  internal_state : AssocMap StateKey AggregateGroupState
  /-- How the map of group changes is iterated at the `n`-th call. -/
  order : HashOrder
  calls : Nat

namespace AggregateOp

def new (order : HashOrder) (group_by : List Nat) (func : AggregateFunc) (key_cols : List Nat) :
    AggregateOp :=
  ⟨group_by, func, key_cols, ∅, order, 0⟩

/-- `+1` for a positive record, `-1` for a negative one. -/
def delta (record : Record) : Int64 := if record.is_positive then 1 else -1

/-- A value of the summed column, with the sign of its record. -/
def signedValue : DataType → Int64 → Int64
  | .int v, delta => v.toInt64 * delta
  | .bigInt v, delta => v * delta
  | _, _ => 0

def value_delta (func : AggregateFunc) (record : Record) : Option Int64 :=
  match func with
  | .sum col => record.row[col]?.map (signedValue · (delta record))
  | .avg col => record.row[col]?.map (signedValue · (delta record))
  | _ => some 0

/-- One round of the first loop: the change of the record's group. -/
def changeGroup (op : AggregateOp) (group_changes : AssocMap StateKey (Int64 × Int64))
    (record : Record) : Option (AssocMap StateKey (Int64 × Int64)) := do
  let group_key ← StateKey.from_row record.row op.group_by
  let value_delta ← value_delta op.func record
  let entry := (group_changes.get? group_key).getD (0, 0)
  some (group_changes.insert group_key (entry.1 + delta record, entry.2 + value_delta))

def result (func : AggregateFunc) (count sum : Int64) : DataType :=
  match func with
  | .count => .bigInt count
  | .sum _ => .bigInt sum
  | .avg _ => .bigInt (sum / count)
  | .min _ => .bigInt sum
  | .max _ => .bigInt sum

/-- One round of the second loop: update the group's counters, retract the
    old row, emit the new one. -/
def emitGroup (func : AggregateFunc)
    (acc : AssocMap StateKey AggregateGroupState × Records)
    (change : StateKey × (Int64 × Int64)) :
    AssocMap StateKey AggregateGroupState × Records :=
  let group_key := change.1
  let internal := (acc.1.get? group_key).getD ⟨0, 0⟩
  let old_count := internal.count
  let old_sum := internal.sum
  let new_count := old_count + change.2.1
  let new_sum := old_sum + change.2.2
  let updated := acc.1.insert group_key ⟨new_count, new_sum⟩
  let group_values := group_key.values
  let retract :=
    if old_count > 0 then
      [Record.negative (group_values ++ [result func old_count old_sum])]
    else []
  let emit :=
    if new_count > 0 then
      [Record.positive (group_values ++ [result func new_count new_sum])]
    else []
  (if new_count ≤ 0 then updated.erase group_key else updated, acc.2 ++ retract ++ emit)

/-- The counters wrap, as they do in a release build. A build with overflow
    checks panics where one of them leaves the range of an `i64`. -/
def process (op : AggregateOp) (records : Records) : Option (AggregateOp × ProcessingResult) := do
  let group_changes ← records.foldlM (changeGroup op) ∅
  let changes := (op.order op.calls group_changes.entries).val
  let out := changes.foldl (emitGroup op.func) (op.internal_state, [])
  some ({ op with internal_state := out.1, calls := op.calls + 1 }, ⟨out.2, []⟩)

end AggregateOp

/-! ## Identity, and operators in general -/

structure IdentityOp where
  num_columns : Nat
  key_cols : List Nat

def IdentityOp.process (_op : IdentityOp) (records : Records) : Option ProcessingResult :=
  some ⟨records, []⟩

inductive OperatorType where
  | filter (op : FilterOp)
  | project (op : ProjectOp)
  | join (op : JoinOp)
  | aggregate (op : AggregateOp)
  | identity (op : IdentityOp)

def OperatorType.process (self : OperatorType) (from_parent : Nat) (records : Records)
    (state : Option StateSnapshot) : Option (OperatorType × ProcessingResult) :=
  match self with
  | .filter op => (op.process records).map fun r => (self, r)
  | .project op => (op.process records).map fun r => (self, r)
  | .join op => (op.process from_parent records state).map fun r => (self, r)
  | .aggregate op => (op.process records).map fun r => (.aggregate r.1, r.2)
  | .identity op => (op.process records).map fun r => (self, r)

/-! ## Meaning -/

namespace FilterCondition

mutual

/-- The condition as a predicate on values. -/
def holds : FilterCondition → VRow → Bool
  | .eq col val, v => v.getD col .null = val.val
  | .ne col val, v => v.getD col .null ≠ val.val
  | .gt col val, v => (v.getD col .null).cmp val.val == .gt
  | .lt col val, v => (v.getD col .null).cmp val.val == .lt
  | .isNull col, v => v.getD col .null = .null
  | .isNotNull col, v => v.getD col .null ≠ .null
  | .and conds, v => holdsAll conds v
  | .or conds, v => holdsAny conds v
  | .alwaysTrue, _ => true

def holdsAll : List FilterCondition → VRow → Bool
  | [], _ => true
  | c :: cs, v => holds c v && holdsAll cs v

def holdsAny : List FilterCondition → VRow → Bool
  | [], _ => false
  | c :: cs, v => holds c v || holdsAny cs v

end

mutual

def columns : FilterCondition → List Nat
  | .eq col _ => [col]
  | .ne col _ => [col]
  | .gt col _ => [col]
  | .lt col _ => [col]
  | .isNull col => [col]
  | .isNotNull col => [col]
  | .and conds => columnsList conds
  | .or conds => columnsList conds
  | .alwaysTrue => []

def columnsList : List FilterCondition → List Nat
  | [] => []
  | c :: cs => columns c ++ columnsList cs

end

end FilterCondition

def JoinOp.combineV (op : JoinOp) (l r : VRow) : VRow :=
  op.emit.map fun e => if e.1 then l.getD e.2 .null else r.getD e.2 .null

def JoinOp.padV (op : JoinOp) (l : VRow) : VRow :=
  op.emit.map fun e => if e.1 then l.getD e.2 .null else .null

/-- Two rows agree on the join columns, as data. -/
def JoinOp.Matches (op : JoinOp) (l r : VRow) : Prop :=
  l.getD op.left_key .null = r.getD op.right_key .null

instance (op : JoinOp) (l r : VRow) : Decidable (op.Matches l r) := by
  unfold JoinOp.Matches
  infer_instance

/-- Inner join of two bags. -/
def JoinOp.inner (op : JoinOp) (left right : Multiset VRow) : Multiset VRow :=
  left.bind fun l => (right.filter (op.Matches l)).map (op.combineV l)

/-- The aggregate of the rows of one group. -/
def AggregateFunc.over (func : AggregateFunc) (rows : Multiset VRow) : Int :=
  let values (col : Nat) : Multiset Int := rows.map fun v => (v.getD col .null).intOf
  match func with
  | .count => rows.card
  | .sum col => (values col).sum
  | .avg col => (values col).sum.tdiv rows.card
  | .min col => ((values col).sort (· ≤ ·)).headD 0
  | .max col => ((values col).sort (· ≥ ·)).headD 0

/-- Group the rows and put each group's aggregate behind its values. -/
def groupAggregate (group_by : List Nat) (func : AggregateFunc) (rows : Multiset VRow) :
    Multiset VRow :=
  (rows.map (VRow.proj group_by)).dedup.map fun g =>
    g ++ [.int (func.over (rows.filter fun v => VRow.proj group_by v = g))]

/-- What an operator with one parent computes from the parent's content. A
    join has two; it is treated on its own. -/
def OperatorType.eval (op : OperatorType) (input : Multiset VRow) : Multiset VRow :=
  match op with
  | .filter op => input.filter fun v => op.condition.holds v = true
  | .project op => input.map (VRow.proj op.emit)
  | .join _ => 0
  | .aggregate op => groupAggregate op.group_by op.func input
  | .identity _ => input

end Noria.Sqlite

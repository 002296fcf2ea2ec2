import Noria.Data
import Noria.Framework.Bag

/-! # Records

  Signed rows, the currency of both data-flow engines: `dataflow/mod.rs` of the embedded engine and
  `common/src/records.rs` of the server define the same type.
-/

namespace Noria.Sqlite

open Bag

inductive Record where
  | positive (row : Row)
  | negative (row : Row)
  deriving DecidableEq

/-- A collection of records (deltas). -/
abbrev Records := List Record

namespace Record

def row : Record → Row
  | .positive r => r
  | .negative r => r

def is_positive : Record → Bool
  | .positive _ => true
  | .negative _ => false

def withRow (r : Record) (row : Row) : Record :=
  if r.is_positive then .positive row else .negative row

/-- The change of the content that a record announces. -/
def change : Record → Change VRow
  | .positive r => .ins (Row.val r)
  | .negative r => .del (Row.val r)

@[simp] theorem row_positive (r : Row) : (Record.positive r).row = r := rfl
@[simp] theorem row_negative (r : Row) : (Record.negative r).row = r := rfl
@[simp] theorem change_positive (r : Row) : (Record.positive r).change = .ins (Row.val r) := rfl
@[simp] theorem change_negative (r : Row) : (Record.negative r).change = .del (Row.val r) := rfl

@[simp] theorem elem_change (r : Record) : r.change.elem = Row.val r.row := by
  cases r <;> rfl

@[simp] theorem row_withRow (r : Record) (row : Row) : (r.withRow row).row = row := by
  cases r <;> rfl

/-- The change that a record of the same sign announces for a row. -/
def signed (r : Record) (v : VRow) : Change VRow :=
  if r.is_positive then .ins v else .del v

theorem change_withRow_signed (r : Record) (row : Row) :
    (r.withRow row).change = r.signed (Row.val row) := by
  cases r <;> rfl

end Record

/-- The changes that a batch of records announces. -/
def Records.changes (rs : Records) : List (Change VRow) := rs.map Record.change

@[simp] theorem Records.changes_nil : Records.changes [] = [] := rfl

@[simp] theorem Records.changes_cons (r : Record) (rs : Records) :
    Records.changes (r :: rs) = r.change :: Records.changes rs := rfl

@[simp] theorem Records.changes_append (rs ss : Records) :
    Records.changes (rs ++ ss) = Records.changes rs ++ Records.changes ss := List.map_append

end Noria.Sqlite

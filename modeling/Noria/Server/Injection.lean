import Noria.Arithmetic
import Noria.Server.Base

/-! # Columns added behind an ingress

  When a column is added to a base table, the ingress nodes below it in other domains get an
  `AddBaseColumn` packet as well. A materialized ingress keeps its stored rows as they are, and the
  domain remembers the defaults of the added columns in `ingress_inject`, from where two paths take
  them: `seed_row` for a partial replay, and the `fix` of `StartReplay` for a full one
  (`dataflow/src/domain/mod.rs`).

  The place from which on the columns are new is read off the node after its first new column has
  been added to it, and so is one too far (`inject_added`). `seed_row` does not look at it at all,
  and appends every default to every row. Between the two no stored row is completed as it should be
  once a column has been added (`injection_iff`).
-/

namespace Noria.Server

open Noria.Sqlite (Record)
open List Option

/-- What a node is, as far as new columns go. -/
inductive SourceType where
  | base (b : Base)
  | ingress
  | internal

/-- A node that replays start from: its columns, and its entry in the domain's `ingress_inject`. -/
structure ReplaySource where
  fields : List String
  inner : SourceType
  inject : Option (Nat × Row)

variable {n : ReplaySource} {width : Nat} {added : List (String × DataType)} {row : Row}

namespace ReplaySource

def add_column (n : ReplaySource) (field : String) : ReplaySource :=
  { n with fields := n.fields ++ [field] }

/-- `Packet::AddBaseColumn`: `n.fields().len()` is taken after the column
    has been added. Nodes unrelated to a base are not expected here. -/
def add_base_column (n : ReplaySource) (field : String) (default : DataType) :
    Option ReplaySource :=
  let n := n.add_column field
  match n.inner with
  | .base b => (b.add_column default).map fun b => { n with inner := .base b }
  | .ingress =>
    let entry := n.inject.getD (n.fields.length, [])
    some { n with inject := some (entry.1, entry.2 ++ [default]) }
  | .internal => none

def seed_row (n : ReplaySource) (row : Row) : Record :=
  match n.inject with
  | some (_, defaults) => .positive (row ++ defaults)
  | none =>
    match n.inner with
    | .base b => .positive (b.fix row)
    | _ => .positive row

/-- The `fix` of `StartReplay`. The subtraction is one of `usize`: it panics
    below zero where overflow is checked, and wraps around elsewhere. -/
def replay_row (overflow_checks : Bool) (n : ReplaySource) (row : Row) : Option Row :=
  match n.inject with
  | some (start, added) => do
    let skip ← IntType.u64.operate overflow_checks .subtract row.length start
    some (row ++ added.drop skip.toNat)
  | none =>
    match n.inner with
    | .base b => some (row ++ (b.fix []).drop row.length)
    | _ => some row

def add_base_columns (n : ReplaySource) (added : List (String × DataType)) :
    Option ReplaySource :=
  added.foldlM (fun n column => n.add_base_column column.1 column.2) n

/-! ## What is remembered of the added columns -/

/-- After the packets a domain has every default, and a start that is one column too far. -/
theorem inject_added (hingress : n.inner = .ingress) (hinject : n.inject = none)
    (added : List (String × DataType)) :
    ∃ n', n.add_base_columns added = some n' ∧ n'.inner = .ingress ∧
      n'.inject = if added = [] then none else some (n.fields.length + 1, added.map Prod.snd) := by
  -- the entry is made by the first packet, and each one adds its default
  induction added using List.reverseRecOn with
  | nil => exact ⟨n, rfl, hingress, hinject⟩
  | append_singleton added column ih =>
    obtain ⟨n₁, hn₁, hinner, hentry⟩ := ih
    let entry := n₁.inject.getD (n₁.fields.length + 1, [])
    refine ⟨{ n₁.add_column column.1 with inject := some (entry.1, entry.2 ++ [column.2]) },
      ?_, hinner, ?_⟩
    · unfold add_base_columns at hn₁ ⊢
      rw [foldlM_append, hn₁]
      simp [add_base_column, add_column, hinner, entry]
    · by_cases hnone : added = []
      · subst hnone
        obtain rfl : n = n₁ := some.inj hn₁
        simp [entry, hinject]
      · have hentry₁ : n₁.inject = some (n.fields.length + 1, added.map Prod.snd) := by
          rw [hentry, if_neg hnone]
        simp [entry, hentry₁]

/-! ## Stored rows -/

/-- A stored row with the defaults of the columns it lacks, for a node that
    has started with `width` columns. -/
def completed (width : Nat) (added : List (String × DataType)) (row : Row) : Row :=
  row ++ (added.map Prod.snd).drop (row.length - width)

/-- Both paths complete a stored row. -/
def Completes (overflow_checks : Bool) (width : Nat) (added : List (String × DataType))
    (n : ReplaySource) (row : Row) : Prop :=
  n.seed_row row = .positive (completed width added row) ∧
    n.replay_row overflow_checks row = some (completed width added row)

theorem length_completed (hold : width ≤ row.length) (hnew : row.length ≤ width + added.length) :
    (completed width added row).length = width + added.length := by
  simp only [completed, length_append, length_drop, length_map]
  omega

/-- A partial replay is right about the rows that lack every added column, and only about them. -/
theorem seed_row_completes_iff {start : Nat} (hinject : n.inject = some (start, added.map Prod.snd))
    (hold : width ≤ row.length) (hnew : row.length ≤ width + added.length) :
    n.seed_row row = .positive (completed width added row) ↔ row.length = width := by
  have hseed : n.seed_row row = .positive (row ++ added.map Prod.snd) := by
    simp [seed_row, hinject]
  rw [hseed]
  constructor
  · intro h
    have hlength := congrArg List.length (Record.positive.inj h)
    rw [length_completed hold hnew] at hlength
    simp only [length_append, length_map] at hlength
    omega
  · intro hwidth
    simp [completed, hwidth]

/-- A full replay is never right about a row that lacks every added column:
    below zero it either panics or skips more than there is to skip. -/
theorem replay_row_not_completes (hne : added ≠ [])
    (hinject : n.inject = some (width + 1, added.map Prod.snd)) (hwidth : row.length = width)
    (overflow_checks : Bool) :
    n.replay_row overflow_checks row ≠ some (completed width added row) := by
  have hpos : 0 < added.length := length_pos_of_ne_nil hne
  have hbelow : ((row.length : Int) - ((width + 1 : Nat) : Int)) = -1 := by omega
  simp only [replay_row, hinject, IntType.operate, ArithmeticOperator.eval, bind_eq_bind,
    bind_some, hbelow]
  rw [if_neg (by decide)]
  cases overflow_checks with
  | true => simp
  | false =>
    intro h
    have hlength := congrArg List.length (some.inj h)
    rw [length_completed hwidth.ge (by omega)] at hlength
    have hskip : (IntType.u64.wrap (-1)).toNat = 18446744073709551615 := by decide
    simp only [length_append, length_drop, length_map] at hlength
    omega

/-- **Column injection.** Both paths complete the stored rows of an ingress as long as no column has
    been added to it; after the first one, no stored row is completed by both, whether it is from
    before or from after. -/
theorem injection_iff (overflow_checks : Bool) {n : ReplaySource}
    (hingress : n.inner = .ingress) (hinject : n.inject = none)
    (added : List (String × DataType)) {row : Row} (hold : n.fields.length ≤ row.length)
    (hnew : row.length ≤ n.fields.length + added.length) :
    (∃ n', n.add_base_columns added = some n' ∧
      Completes overflow_checks n.fields.length added n' row) ↔ added = [] := by
  obtain ⟨n', hn', hinner, hentry⟩ := inject_added hingress hinject added
  constructor
  · rintro ⟨n'', hn'', hseed, hreplay⟩
    rw [hn'] at hn''
    obtain rfl := some.inj hn''
    by_contra hne
    rw [if_neg hne] at hentry
    have hwidth := (seed_row_completes_iff hentry hold hnew).mp hseed
    exact replay_row_not_completes hne hentry hwidth overflow_checks hreplay
  · intro hnone
    refine ⟨n', hn', ?_, ?_⟩
    · simp [seed_row, completed, hentry, hinner, hnone]
    · simp [replay_row, completed, hentry, hinner, hnone]

/-- An ingress with two columns. -/
def twoColumns : ReplaySource := ⟨["id", "title"], .ingress, none⟩

theorem no_column_completes : ∃ n', twoColumns.add_base_columns [] = some n' ∧
    Completes true 2 [] n' [.int 1, .int 2] :=
  (injection_iff true rfl rfl [] (by decide) (by decide)).mpr rfl

/-- With one more column, the rows from before it panic in a full replay, and
    the rows from after it get it a second time in both. -/
theorem column_injected_twice :
    ∃ n', twoColumns.add_base_columns [("votes", .int 0)] = some n' ∧
      n'.replay_row true [.int 1, .int 2] = none ∧
      n'.replay_row false [.int 1, .int 2] = some [.int 1, .int 2] ∧
      n'.seed_row [.int 1, .int 2, .int 7] = .positive [.int 1, .int 2, .int 7, .int 0] ∧
      n'.replay_row true [.int 1, .int 2, .int 7] = some [.int 1, .int 2, .int 7, .int 0] ∧
      completed 2 [("votes", .int 0)] [.int 1, .int 2] = [.int 1, .int 2, .int 0] ∧
      completed 2 [("votes", .int 0)] [.int 1, .int 2, .int 7] = [.int 1, .int 2, .int 7] :=
  ⟨_, rfl, by decide, by decide, by decide, by decide, by decide, by decide⟩

end ReplaySource

end Noria.Server

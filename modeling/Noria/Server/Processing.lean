import Noria.Framework.Loop
import Noria.Framework.Runs
import Noria.Order
import Noria.Sqlite.Record

/-! # Processing a batch key by key

  The operators of the server handle a batch one key at a time: they sort it by some columns and cut
  it into groups of records that agree there (`groupsOf`). `groupsOf_eq` says what comes out when
  the key columns hold one kind of data each: the records of each key, in the order of the batch.
-/

namespace Noria.Server

open List

open Noria.Sqlite (Record Records)

/-! ## Results -/

/-- A lookup that hit, reported while a replay is processed. -/
structure Lookup where
  on : Nat
  cols : List Nat
  key : Row

/-- A record that could not be processed, because a lookup missed. -/
structure Miss where
  on : Nat
  lookup_idx : List Nat
  lookup_cols : List Nat
  replay_cols : Option (List Nat)
  record : Row

structure ProcessingResult where
  results : Records
  lookups : List Lookup
  misses : List Miss

namespace ProcessingResult

def empty : ProcessingResult := ⟨[], [], []⟩

/-- The results of several groups, one after another. -/
def concat (parts : List ProcessingResult) : ProcessingResult :=
  ⟨parts.flatMap results, parts.flatMap lookups, parts.flatMap misses⟩

end ProcessingResult

/-! ## Groups of a batch -/

/-- A record with its values in the key columns. -/
abbrev Keyed := Row × Record

section Groups

variable {α : Type}

/-- Read the key of every element; `none` is the panic on a column that a row does not have. -/
def keyedBy (key : α → Option Row) (l : List α) : Option (List (Row × α)) :=
  l.mapM fun a => (key a).map fun k => (k, a)

/-- `sort_by` on the key, and the groups of equal keys. -/
def groupsOf (l : List (Row × α)) : List (List (Row × α)) :=
  runs (fun a b => Row.cmp a.1 b.1 = .eq) (l.insertionSort fun a b => Row.cmp a.1 b.1 ≠ .gt)

theorem keyedBy_eq {key : α → Option Row} {l : List α} (h : ∀ a ∈ l, ∃ k, key a = some k) :
    ∃ keyed, keyedBy key l = some keyed ∧ keyed.map Prod.snd = l ∧
      ∀ e ∈ keyed, key e.2 = some e.1 := by
  induction l with
  | nil => exact ⟨[], rfl, rfl, by simp⟩
  | cons a l ih =>
    obtain ⟨k, hk⟩ := h a mem_cons_self
    obtain ⟨keyed, hkeyed, hsnd, hkey⟩ := ih (forall_mem_cons.mp h).2
    unfold keyedBy at hkeyed
    refine ⟨(k, a) :: keyed, ?_, ?_, forall_mem_cons.mpr ⟨hk, hkey⟩⟩
    · simp [keyedBy, mapM_cons, hk, hkeyed]
    · rw [map_cons, hsnd]

/-- **The groups of a batch** whose keys are of one kind: one for each key
    that occurs, with its elements in the order of the batch. -/
theorem groupsOf_eq {keyed : List (Row × α)}
    (hkinds : ∀ a ∈ keyed, ∀ b ∈ keyed, a.1.kinds = b.1.kinds) :
    ∃ ks : List VRow, ks.Nodup ∧ (∀ k, k ∈ ks ↔ ∃ e ∈ keyed, Row.val e.1 = k) ∧
      groupsOf keyed = ks.map fun k => keyed.filter fun e => Row.val e.1 = k := by
  refine runs_insertionSort_class (fun e : Row × α => e.1.rank) (fun e => Row.val e.1) ?_ ?_ ?_
  · intro a ha b hb
    exact (Row.cmp_compares (hkinds a ha b hb)).ne_gt
  · intro a ha b hb
    rw [decide_eq_true_iff]
    exact (Row.cmp_compares (hkinds a ha b hb)).eq_eq
  · intro a ha b hb
    exact Row.rank_inj (hkinds a ha b hb)

/-- The same where no key occurs twice, whatever kinds there are. -/
theorem groupsOf_of_nodup {keyed : List (Row × α)} (h : (keyed.map fun e => Row.val e.1).Nodup) :
    ∃ ks : List VRow, ks.Nodup ∧ (∀ k, k ∈ ks ↔ ∃ e ∈ keyed, Row.val e.1 = k) ∧
      groupsOf keyed = ks.map fun k => keyed.filter fun e => Row.val e.1 = k := by
  refine runs_insertionSort_of_nodup (fun e : Row × α => Row.val e.1) h fun a _ b _ => ?_
  rw [decide_eq_true_iff]
  exact Row.cmp_eq_iff a.1 b.1

end Groups

end Noria.Server

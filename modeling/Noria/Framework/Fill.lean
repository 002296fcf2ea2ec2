import Noria.Framework.Bag

/-! # Stores that are filled key by key

  A store over a table of rows, each of which has a key. The store does not say which keys it has
  been filled for: a key is good when the store has none of its rows or all of them. `Filled` is
  that condition for every key, and the lemmas below say which changes keep it.
-/

namespace Bag

open Multiset

variable {α κ : Type*} [DecidableEq κ]

/-- The rows of a key. -/
def rowsAt (key : α → κ) (m : Multiset α) (k : κ) : Multiset α := m.filter fun a => key a = k

section RowsAt

variable {key : α → κ} {k : κ} {a : α} {m n : Multiset α}

@[simp] theorem rowsAt_zero : rowsAt key 0 k = 0 := rfl

@[simp] theorem rowsAt_add : rowsAt key (m + n) k = rowsAt key m k + rowsAt key n k :=
  filter_add ..

@[simp] theorem rowsAt_cons_self : rowsAt key (a ::ₘ m) (key a) = a ::ₘ rowsAt key m (key a) :=
  filter_cons_of_pos _ rfl

theorem rowsAt_cons_ne (h : key a ≠ k) : rowsAt key (a ::ₘ m) k = rowsAt key m k :=
  filter_cons_of_neg _ h

theorem mem_rowsAt : a ∈ rowsAt key m k ↔ a ∈ m ∧ key a = k := mem_filter

theorem rowsAt_rowsAt (k' : κ) :
    rowsAt key (rowsAt key m k') k = if k = k' then rowsAt key m k' else 0 := by
  unfold rowsAt
  split
  · rename_i h
    subst h
    simp
  · rename_i h
    rw [filter_eq_nil]
    intro a ha hk
    exact h (hk.symm.trans (mem_filter.mp ha).2)

end RowsAt

/-- Of every key the store has no row, or the rows of the table. -/
def Filled (key : α → κ) (table store : Multiset α) : Prop :=
  ∀ k, rowsAt key store k = 0 ∨ rowsAt key store k = rowsAt key table k

namespace Filled

variable {key : α → κ} {a : α} {table store : Multiset α}

theorem zero : Filled key table 0 := fun _ => .inl rfl

theorem insert (h : Filled key table store)
    (ha : rowsAt key store (key a) ≠ 0 ∨ rowsAt key table (key a) = 0) :
    Filled key (a ::ₘ table) (a ::ₘ store) := by
  intro k
  by_cases hk : key a = k
  · subst hk
    right
    have heq : rowsAt key store (key a) = rowsAt key table (key a) := by
      rcases h (key a) with h0 | heq
      · rcases ha with hne | ht
        · exact absurd h0 hne
        · rw [h0, ht]
      · exact heq
    rw [rowsAt_cons_self, rowsAt_cons_self, heq]
  · rw [rowsAt_cons_ne hk, rowsAt_cons_ne hk]
    exact h k

/-- A row of the table is in the store, or its key is not filled. -/
theorem mem_or (h : Filled key table store) (ha : a ∈ table) :
    a ∈ store ∨ rowsAt key store (key a) = 0 := by
  rcases h (key a) with h0 | heq
  · exact .inr h0
  · left
    have hmem : a ∈ rowsAt key table (key a) := mem_rowsAt.mpr ⟨ha, rfl⟩
    rw [← heq] at hmem
    exact (mem_rowsAt.mp hmem).1

theorem delete (h : Filled key (a ::ₘ table) (a ::ₘ store)) : Filled key table store := by
  intro k
  by_cases hk : key a = k
  · subst hk
    right
    rcases h (key a) with h0 | heq
    · rw [rowsAt_cons_self] at h0
      exact absurd h0 (cons_ne_zero)
    · rw [rowsAt_cons_self, rowsAt_cons_self] at heq
      exact (cons_inj_right a).mp heq
  · have := h k
    rwa [rowsAt_cons_ne hk, rowsAt_cons_ne hk] at this

theorem delete_keeps (h : Filled key (a ::ₘ table) (a ::ₘ store)) {k : κ}
    (hk : rowsAt key (a ::ₘ store) k ≠ 0) : rowsAt key store k ≠ 0 ∨ rowsAt key table k = 0 := by
  by_cases h0 : rowsAt key store k = 0
  · right
    have heq := (h k).resolve_left hk
    by_cases hak : key a = k
    · subst hak
      rw [rowsAt_cons_self, rowsAt_cons_self, h0] at heq
      exact ((cons_inj_right a).mp heq).symm
    · rw [rowsAt_cons_ne hak] at hk
      exact absurd h0 hk
  · exact .inl h0

theorem delete_absent (h : Filled key (a ::ₘ table) store)
    (ha : rowsAt key store (key a) = 0) : Filled key table store := by
  intro k
  by_cases hk : key a = k
  · subst hk
    exact .inl ha
  · have := h k
    rwa [rowsAt_cons_ne hk] at this

theorem fill (h : Filled key table store) {k : κ} (hk : rowsAt key store k = 0) :
    Filled key table (store + rowsAt key table k) := by
  intro k'
  rw [rowsAt_add, rowsAt_rowsAt]
  by_cases hkk : k' = k
  · subst hkk
    rw [if_pos rfl, hk, zero_add]
    exact .inr rfl
  · rw [if_neg hkk, add_zero]
    exact h k'

end Filled

end Bag

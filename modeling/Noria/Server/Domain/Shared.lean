import Noria.Server.Domain.Eviction

/-! # Rows that indices share

  The indices of a node share their rows: a record is put behind one `Rc` and every index gets a
  handle to it. For equal rows an index keeps one handle and their number (`HashBag`). Evicting a
  key frees the rows that no other index has a handle to (`strong_count == 1`), so that what an
  eviction reports depends on the other indices.

  `Store` has what `MemoryState` has and the handles besides. In every store that fills, updates,
  hole marks and evictions lead to, a handle has the same number everywhere (`Reached.sound`). So
  the bytes of the rows behind the handles (`Store.bytes`) go down by exactly what an eviction
  reports (`evict_with_seed_bytes`).
-/

namespace Noria.Server.Domain

open List

/-! ## Bags of handles -/

/-- An `Rc` to a row. -/
structure Handle where
  id : Nat
  row : Row
  deriving DecidableEq

/-- The rows of a key: a handle for all rows that are equal, and their number. -/
abbrev Rows := List (Handle × Nat)

namespace Rows

def len (rs : Rows) : Nat := (rs.map Prod.snd).sum

/-- Equal rows keep the handle that came first. -/
def insert (rs : Rows) (h : Handle) : Rows :=
  if rs.any fun p => p.1.row == h.row then
    rs.map fun p => if p.1.row == h.row then (p.1, p.2 + 1) else p
  else rs ++ [(h, 1)]

/-- Taking a row out, if there is one. The only row is taken without a look at it. -/
def remove (rs : Rows) (r : Row) : Bool × Rows :=
  if rs.len = 1 then (true, [])
  else if rs.any fun p => p.1.row == r then
    -- `try_take`
    (true, rs.filterMap fun p =>
      if p.1.row == r then if p.2 = 1 then none else some (p.1, p.2 - 1) else some p)
  else (false, rs)

end Rows

/-! ## One index -/

structure Index where
  key : List Nat
  state : AssocMap Row Rows
  partialIndex : Bool
  rows : Nat

namespace Index

def new (columns : List Nat) (isPartial : Bool) : Index := ⟨columns, ∅, isPartial, 0⟩

/-- All handles of the index. -/
def handles (ix : Index) : List (Handle × Nat) := ix.state.entries.flatMap Prod.snd

def insert_row (ix : Index) (h : Handle) : Option Index := do
  let key ← h.row.cols ix.key
  match ix.state.get? key with
  | some rs => some { ix with state := ix.state.insert key (rs.insert h), rows := ix.rows + 1 }
  | none =>
    if ix.partialIndex then some ix
    else some { ix with state := ix.state.insert key [(h, 1)], rows := ix.rows + 1 }

def remove_row (ix : Index) (r : Row) : Option Index := do
  let key ← r.cols ix.key
  match ix.state.get? key with
  | none => some ix
  | some rs =>
    if (rs.remove r).1 then
      -- `checked_sub(1).unwrap()`
      if ix.rows = 0 then none
      else some { ix with state := ix.state.insert key (rs.remove r).2, rows := ix.rows - 1 }
    else some ix

def mark_filled (ix : Index) (key : Row) : Option Index :=
  match ix.state.get? key with
  | some _ => none
  | none => some { ix with state := ix.state.insert key [] }

def mark_hole (ix : Index) (key : Row) : Option Index :=
  match ix.state.get? key with
  | some _ => some { ix with state := ix.state.erase key }
  | none => none

def evict_keys (ix : Index) (keys : List Row) : Index :=
  { ix with state := keys.foldl AssocMap.erase ix.state }

/-- The rows of a piece, each behind its own `Rc`. -/
def insert_rows (ix : Index) (next : Nat) (rows : List Row) : Option (Index × Nat) :=
  rows.foldlM (fun s r => do
    let ix ← s.1.insert_row ⟨s.2, r⟩
    some (ix, s.2 + 1)) (ix, next)

end Index

/-! ## All indices -/

structure Store where
  state : List Index
  /-- The next `Rc`. -/
  next : Nat

namespace Store

def new (keys : List (List Nat × Bool)) : Store := ⟨keys.map fun k => Index.new k.1 k.2, 0⟩

def handles (s : Store) : List (Handle × Nat) := s.state.flatMap Index.handles

/-- How many indices have a handle to the row. -/
def strong_count (s : Store) (id : Nat) : Nat := (s.handles.filter fun p => p.1.id == id).length

/-- A record that is not from a replay goes to all indices. -/
def insert (s : Store) (r : Row) : Option Store := do
  let state ← s.state.mapM fun ix => ix.insert_row ⟨s.next, r⟩
  some ⟨state, s.next + 1⟩

def remove (s : Store) (r : Row) : Option Store := do
  let state ← s.state.mapM fun ix => ix.remove_row r
  some { s with state }

/-- A piece of a replay for a key of one index. -/
def fill (s : Store) (i : Nat) (key : Row) (rows : List Row) : Option Store := do
  let ix ← s.state[i]?
  let ix ← ix.mark_filled key
  let (ix, next) ← ix.insert_rows s.next rows
  some ⟨s.state.set i ix, next⟩

def mark_hole (s : Store) (i : Nat) (key : Row) : Option Store := do
  let ix ← s.state[i]?
  let ix ← ix.mark_hole key
  some { s with state := s.state.set i ix }

def evict_keys (s : Store) (i : Nat) (keys : List Row) : Option Store := do
  let ix ← s.state[i]?
  some { s with state := s.state.set i (ix.evict_keys keys) }

/-- What is freed with some rows that have been taken out. -/
def freed (s : Store) (rs : Rows) : Nat :=
  ((rs.filter fun p => s.strong_count p.1.id == 0).map fun p => p.1.row.deep_size_of * p.2).sum

def without (s : Store) (i : Nat) (ix : Index) (key : Row) : Store :=
  { s with state := s.state.set i { ix with state := ix.state.erase key } }

/-- One key of an index, chosen by the seed. -/
def evict_with_seed (s : Store) (i seed : Nat) : Option (Nat × Row × Store) := do
  let ix ← s.state[i]?
  let e ← ix.state.entries[seed % ix.state.entries.length]?
  let s := s.without i ix e.1
  some (s.freed e.2, e.1, s)

def evictFrom (i : Nat) (seed : Nat → Nat) : Nat → Store → Nat × List Row × Store
  | 0, s => (0, [], s)
  | count + 1, s =>
    match s.evict_with_seed i (seed count) with
    | none => (0, [], s)
    | some (bytes, key, s) =>
      let rest := evictFrom i seed count s
      (bytes + rest.1, key :: rest.2.1, rest.2.2)

/-- What the random generator gives for one eviction. -/
structure Draw where
  index : Nat
  seed : Nat → Nat

/-- Evict `count` randomly selected keys from a random index: its columns,
    the keys, the bytes freed. -/
def evict_random_keys (s : Store) (count : Nat) (draw : Draw) :
    Option (List Nat × List Row × Nat × Store) := do
  -- `gen_range(0, self.state.len())`
  let i := draw.index % s.state.length
  let ix ← s.state[i]?
  let out := evictFrom i draw.seed count s
  some (ix.key, out.2.1, out.1, out.2.2)

/-- Only the first index is asked, and only for its counter. -/
def is_empty (s : Store) : Option Bool := do
  let ix ← s.state[0]?
  some (ix.rows == 0)

end Store

/-! ## The stores there are -/

/-- The stores that a history leads to. The rows of a piece have the key that it fills. -/
inductive Reached : Store → Prop
  | new (keys : List (List Nat × Bool)) (h : keys ≠ []) : Reached (.new keys)
  | insert {s s' : Store} (h : Reached s) (r : Row) (hs : s.insert r = some s') : Reached s'
  | remove {s s' : Store} (h : Reached s) (r : Row) (hs : s.remove r = some s') : Reached s'
  | fill {s s' : Store} (h : Reached s) (i : Nat) (key : Row) (rows : List Row)
      (hrows : ∀ ix, s.state[i]? = some ix → ∀ r ∈ rows, r.cols ix.key = some key)
      (hs : s.fill i key rows = some s') : Reached s'
  | mark_hole {s s' : Store} (h : Reached s) (i : Nat) (key : Row)
      (hs : s.mark_hole i key = some s') : Reached s'
  | evict_keys {s s' : Store} (h : Reached s) (i : Nat) (keys : List Row)
      (hs : s.evict_keys i keys = some s') : Reached s'
  | evict_random_keys {s s' : Store} (h : Reached s) (count : Nat) (draw : Store.Draw)
      {columns : List Nat} {keys : List Row} {bytes : Nat}
      (hs : s.evict_random_keys count draw = some (columns, keys, bytes, s')) : Reached s'

/-! ## Bags -/

variable {h : Handle} {rows i : Nat} {keys : List Row} {r key : Row} {p : Handle × Nat}
  {e : Row × Rows} {w : Rows}

def bump (r : Row) (p : Handle × Nat) : Handle × Nat :=
  if p.1.row == r then (p.1, p.2 + 1) else p

def dropOne (r : Row) (p : Handle × Nat) : Option (Handle × Nat) :=
  if p.1.row == r then if p.2 = 1 then none else some (p.1, p.2 - 1) else some p

@[simp] theorem bump_fst (r : Row) (p : Handle × Nat) : (bump r p).1 = p.1 := by
  unfold bump
  split <;> rfl

theorem bump_of_ne (h : (p.1.row == r) = false) : bump r p = p := by
  simp [bump, h]

theorem fst_of_dropOne {q : Handle × Nat} (h : dropOne r p = some q) : q.1 = p.1 := by
  unfold dropOne at h
  split at h
  · split at h <;> cases h
    rfl
  · cases h
    rfl

theorem dropOne_of_ne (h : (p.1.row == r) = false) : dropOne r p = some p := by
  simp [dropOne, h]

namespace Rows

/-- No two handles to equal rows, and none for no row. -/
structure Sound (rs : Rows) : Prop where
  apart : (rs.map fun p => Row.val p.1.row).Nodup
  positive : ∀ p ∈ rs, 0 < p.2

variable {rs : Rows}

theorem row_ne_of_not_any (h : ¬rs.any (fun p => p.1.row == r) = true) (hp : p ∈ rs) :
    (p.1.row == r) = false :=
  Bool.eq_false_iff.mpr fun heq => h (any_eq_true.mpr ⟨p, hp, heq⟩)

theorem len_cons (p : Handle × Nat) (rs : Rows) : len (p :: rs) = p.2 + len rs := sum_cons

theorem len_append (rs rs' : Rows) : len (rs ++ rs') = len rs + len rs' := by
  simp [len]

theorem Sound.nil : Sound [] := ⟨nodup_nil, fun _ hp => absurd hp not_mem_nil⟩

theorem mem_insert (hp : p ∈ rs.insert h) : p = (h, 1) ∨ ∃ q ∈ rs, p = bump h.row q := by
  unfold insert at hp
  split at hp
  · obtain ⟨q, hq, rfl⟩ := mem_map.mp hp
    exact .inr ⟨q, hq, rfl⟩
  · rename_i hnone
    rcases mem_append.mp hp with hp | hp
    · exact .inr ⟨p, hp, (bump_of_ne (row_ne_of_not_any hnone hp)).symm⟩
    · exact .inl (mem_singleton.mp hp)

theorem len_map_bump (hs : (rs.map fun p => Row.val p.1.row).Nodup) (r : Row) :
    len (rs.map (bump r)) ≤ len rs + 1 := by
  induction rs with
  | nil => exact Nat.zero_le _
  | cons p rs ih =>
    rw [map_cons, nodup_cons] at hs
    rw [map_cons, len_cons, len_cons]
    by_cases hp : p.1.row == r
    · -- no other handle is to an equal row
      have hrest : rs.map (bump r) = rs := by
        refine (map_congr_left fun q hq => ?_).trans (map_id rs)
        refine bump_of_ne ?_
        rw [Bool.eq_false_iff, Ne, Row.beq_iff_val]
        intro heq
        rw [Row.beq_iff_val] at hp
        exact hs.1 (mem_map.mpr ⟨q, hq, heq.trans hp.symm⟩)
      have hnum : (bump r p).2 = p.2 + 1 := by simp [bump, hp]
      rw [hrest, hnum]
      omega
    · have hnum : (bump r p).2 = p.2 := by simp [bump, hp]
      have hrest := ih hs.2
      omega

theorem len_insert_le (hs : rs.Sound) (h : Handle) : (rs.insert h).len ≤ rs.len + 1 := by
  unfold insert
  split
  · exact len_map_bump hs.apart h.row
  · rw [len_append]
    exact Nat.le_refl _

theorem Sound.insert (hs : rs.Sound) (h : Handle) : (rs.insert h).Sound := by
  constructor
  · unfold Rows.insert
    split
    · rw [map_map]
      refine (map_congr_left fun p _ => ?_) ▸ hs.apart
      show Row.val p.1.row = Row.val (bump h.row p).1.row
      rw [bump_fst]
    · rename_i hnone
      rw [map_append, map_singleton, nodup_append]
      refine ⟨hs.apart, nodup_singleton _, ?_⟩
      rintro v hv _ hw rfl
      obtain ⟨p, hp, rfl⟩ := mem_map.mp hv
      have heq := mem_singleton.mp hw
      exact hnone (any_eq_true.mpr ⟨p, hp, (Row.beq_iff_val _ _).mpr heq⟩)
  · intro p hp
    rcases mem_insert hp with rfl | ⟨q, hq, rfl⟩
    · exact Nat.one_pos
    · have hpos := hs.positive q hq
      unfold bump
      split
      · exact Nat.succ_pos _
      · exact hpos

theorem mem_remove (hp : p ∈ (rs.remove r).2) : ∃ q ∈ rs, dropOne r q = some p := by
  unfold remove at hp
  split at hp
  · exact absurd hp not_mem_nil
  · split at hp
    · exact mem_filterMap.mp hp
    · rename_i hnone
      exact ⟨p, hp, dropOne_of_ne (row_ne_of_not_any hnone hp)⟩

theorem remove_eq_self (h : (rs.remove r).1 = false) : (rs.remove r).2 = rs := by
  unfold remove at h ⊢
  split at h
  · cases h
  · split at h
    · cases h
    · rename_i hmany hnone
      rw [if_neg hmany, if_neg hnone]

theorem map_filterMap_dropOne_sublist (rs : Rows) (r : Row) :
    ((rs.filterMap (dropOne r)).map fun p => Row.val p.1.row).Sublist
      (rs.map fun p => Row.val p.1.row) := by
  induction rs with
  | nil => exact List.Sublist.slnil
  | cons p rs ih =>
    rw [filterMap_cons, map_cons]
    cases hp : dropOne r p with
    | none => exact ih.cons _
    | some q =>
      simp only [map_cons, fst_of_dropOne hp]
      exact ih.cons_cons _

theorem Sound.remove (hs : rs.Sound) (r : Row) : (rs.remove r).2.Sound := by
  constructor
  · unfold Rows.remove
    split
    · exact nodup_nil
    · split
      · exact hs.apart.sublist (map_filterMap_dropOne_sublist rs r)
      · exact hs.apart
  · intro p hp
    obtain ⟨q, hq, heq⟩ := mem_remove hp
    have hpos := hs.positive q hq
    unfold dropOne at heq
    split at heq
    · split at heq <;> cases heq
      omega
    · cases heq
      exact hpos

theorem len_filterMap_dropOne_le (rs : Rows) (r : Row) :
    len (rs.filterMap (dropOne r)) ≤ len rs := by
  induction rs with
  | nil => exact Nat.le_refl _
  | cons p rs ih =>
    rw [filterMap_cons, len_cons]
    cases hp : dropOne r p with
    | none => exact Nat.le_trans ih (Nat.le_add_left _ _)
    | some q =>
      have hq : q.2 ≤ p.2 := by
        unfold dropOne at hp
        split at hp
        · split at hp <;> cases hp
          exact Nat.sub_le _ _
        · cases hp
          exact Nat.le_refl _
      rw [len_cons]
      omega

theorem len_filterMap_dropOne (hpos : ∀ p ∈ rs, 0 < p.2) (h : ∃ p ∈ rs, (p.1.row == r) = true) :
    len (rs.filterMap (dropOne r)) + 1 ≤ len rs := by
  induction rs with
  | nil =>
    obtain ⟨p, hp, -⟩ := h
    exact absurd hp not_mem_nil
  | cons p rs ih =>
    have hrest := len_filterMap_dropOne_le rs r
    have hp := hpos p mem_cons_self
    rw [filterMap_cons, len_cons]
    by_cases heq : p.1.row == r
    · by_cases hone : p.2 = 1
      · have hdrop : dropOne r p = none := by simp [dropOne, heq, hone]
        simp only [hdrop]
        omega
      · have hdrop : dropOne r p = some (p.1, p.2 - 1) := by simp [dropOne, heq, hone]
        simp only [hdrop, len_cons]
        omega
    · have hdrop : dropOne r p = some p := by simp [dropOne, heq]
      have hlater : ∃ q ∈ rs, (q.1.row == r) = true := by
        obtain ⟨q, hq, hqr⟩ := h
        rcases mem_cons.mp hq with rfl | hq
        · exact absurd hqr heq
        · exact ⟨q, hq, hqr⟩
      have hlen := ih (forall_mem_cons.mp hpos).2 hlater
      simp only [hdrop, len_cons]
      omega

theorem len_remove (hs : rs.Sound) (hr : (rs.remove r).1 = true) :
    (rs.remove r).2.len + 1 ≤ rs.len := by
  unfold remove at hr ⊢
  split
  · rename_i hone
    rw [hone]
    exact Nat.le_refl _
  · rename_i hmany
    rw [if_neg hmany] at hr
    split at hr
    · rename_i hany
      rw [if_pos hany]
      obtain ⟨p, hp, heq⟩ := any_eq_true.mp hany
      exact len_filterMap_dropOne hs.positive ⟨p, hp, heq⟩
    · cases hr

end Rows

/-! ## An index through its history -/

namespace Index

/-- The rows have the key in the columns of the index. -/
def Under (ix : Index) (key : Row) (rs : Rows) : Prop :=
  ∀ p ∈ rs, VRow.proj ix.key (Row.val p.1.row) = Row.val key

def rowsAt (ix : Index) (key : Row) : Rows := (ix.state.get? key).getD []

/-- Every row is under its key, and the counter does not undercount. -/
structure Sound (ix : Index) : Prop where
  keyed : ∀ e ∈ ix.state.entries, ix.Under e.1 e.2
  rows : ∀ e ∈ ix.state.entries, e.2.Sound
  counted : AssocMap.total Rows.len ix.state ≤ ix.rows

variable {ix ix' : Index}

theorem mem_handles : p ∈ ix.handles ↔ ∃ e ∈ ix.state.entries, p ∈ e.2 := mem_flatMap

theorem sound_new (columns : List Nat) (isPartial : Bool) : (new columns isPartial).Sound where
  keyed _ he := absurd he not_mem_nil
  rows _ he := absurd he not_mem_nil
  counted := Nat.le_refl _

theorem row_ne (hr : r.cols ix.key = some key)
    (hne : VRow.proj ix.key (Row.val p.1.row) ≠ Row.val key) : (p.1.row == r) = false := by
  rw [Bool.eq_false_iff, Ne, Row.beq_iff_val]
  intro heq
  exact hne (by rw [heq, Row.val_cols hr])

theorem Sound.rowsAt (hs : ix.Sound) (key : Row) : (ix.rowsAt key).Sound ∧
    ix.Under key (ix.rowsAt key) ∧ ∀ p ∈ ix.rowsAt key, p ∈ ix.handles := by
  unfold Index.rowsAt
  cases hget : ix.state.get? key with
  | none => exact ⟨.nil, fun p hp => absurd hp not_mem_nil, fun p hp => absurd hp not_mem_nil⟩
  | some rs =>
    obtain ⟨k₀, hk₀, hmem⟩ := ix.state.mem_of_get? hget
    refine ⟨hs.rows _ hmem, fun p hp => ?_, fun p hp => mem_handles.mpr ⟨_, hmem, hp⟩⟩
    rw [hs.keyed _ hmem p hp, (Row.beq_iff_val _ _).mp hk₀]

/-- A handle that is not under the key is to a row with another key. -/
theorem Sound.at_or_ne (hs : ix.Sound) (key : Row) (hp : p ∈ ix.handles) :
    p ∈ ix.rowsAt key ∨ VRow.proj ix.key (Row.val p.1.row) ≠ Row.val key := by
  obtain ⟨e, he, hpe⟩ := mem_handles.mp hp
  rw [hs.keyed e he p hpe, or_iff_not_imp_right, not_not, ← Row.beq_iff_val]
  intro hkey
  rw [Index.rowsAt, ← ix.state.get?_congr hkey, ix.state.get?_of_mem he]
  exact hpe

theorem Sound.put (hs : ix.Sound) (hw : w.Sound) (hunder : ix.Under key w)
    (hlen : w.len + ix.rows ≤ (ix.rowsAt key).len + rows) :
    Sound { ix with state := ix.state.insert key w, rows := rows } where
  keyed e he := by
    rcases ix.state.mem_insert he with ⟨hkey, rfl⟩ | ⟨he, -⟩
    · rw [Row.beq_iff_val] at hkey
      exact fun p hp => (hunder p hp).trans hkey.symm
    · exact hs.keyed e he
  rows e he := by
    rcases ix.state.mem_insert he with ⟨-, rfl⟩ | ⟨he, -⟩
    · exact hw
    · exact hs.rows e he
  counted := by
    have hcounted := hs.counted
    show AssocMap.total Rows.len (ix.state.insert key w) ≤ rows
    unfold Index.rowsAt at hlen
    cases hget : ix.state.get? key with
    | none =>
      rw [hget] at hlen
      rw [AssocMap.total_insert_of_none _ hget]
      have hzero : Rows.len [] = 0 := rfl
      simp only [Option.getD_none, hzero] at hlen
      omega
    | some rs =>
      have htotal := AssocMap.total_insert_of_some Rows.len hget w
      rw [hget, Option.getD_some] at hlen
      omega

theorem Sound.mem_put (hs : ix.Sound)
    (hp : p ∈ handles { ix with state := ix.state.insert key w, rows := rows }) :
    p ∈ w ∨ p ∈ ix.handles ∧ VRow.proj ix.key (Row.val p.1.row) ≠ Row.val key := by
  obtain ⟨e, he, hpe⟩ := mem_handles.mp hp
  rcases ix.state.mem_insert he with ⟨-, rfl⟩ | ⟨he, hne⟩
  · exact .inl hpe
  · refine .inr ⟨mem_handles.mpr ⟨e, he, hpe⟩, ?_⟩
    rw [hs.keyed e he p hpe, Ne, ← Row.beq_iff_val, hne]
    exact Bool.false_ne_true

theorem Sound.erase (hs : ix.Sound) (key : Row) :
    Sound { ix with state := ix.state.erase key } where
  keyed e he := hs.keyed e (mem_of_mem_filter he)
  rows e he := hs.rows e (mem_of_mem_filter he)
  counted := Nat.le_trans (AssocMap.total_erase_le _ _ _) hs.counted

theorem insert_row_cases (hix : ix.insert_row h = some ix') :
    ∃ key, h.row.cols ix.key = some key ∧ (ix.rowsAt key = [] ∧ ix' = ix ∨
      ix' = { ix with
        state := ix.state.insert key ((ix.rowsAt key).insert h), rows := ix.rows + 1 }) := by
  obtain ⟨key, hkey, hix⟩ := Option.bind_eq_some_iff.mp hix
  refine ⟨key, hkey, ?_⟩
  unfold rowsAt
  split at hix
  · rename_i rs hget
    cases hix
    exact .inr (by rw [hget]; rfl)
  · rename_i hget
    split at hix <;> cases hix <;> rw [hget]
    · exact .inl ⟨rfl, rfl⟩
    · exact .inr rfl

theorem remove_row_cases (hix : ix.remove_row r = some ix') :
    ∃ key, r.cols ix.key = some key ∧ (((ix.rowsAt key).remove r).1 = false ∧ ix' = ix ∨
      ((ix.rowsAt key).remove r).1 = true ∧ ix.rows ≠ 0 ∧ ix' = { ix with
        state := ix.state.insert key ((ix.rowsAt key).remove r).2, rows := ix.rows - 1 }) := by
  obtain ⟨key, hkey, hix⟩ := Option.bind_eq_some_iff.mp hix
  refine ⟨key, hkey, ?_⟩
  unfold rowsAt
  split at hix
  · rename_i hget
    cases hix
    exact .inl (by rw [hget]; exact ⟨rfl, rfl⟩)
  · rename_i rs hget
    rw [hget]
    split at hix
    · rename_i hremoved
      split at hix <;> cases hix
      rename_i hpos
      exact .inr ⟨hremoved, hpos, rfl⟩
    · rename_i hkept
      cases hix
      exact .inl ⟨Bool.eq_false_iff.mpr hkept, rfl⟩

/-- **Inserting a row** changes every handle in the same way. -/
theorem Sound.insert_row (hs : ix.Sound) (hix : ix.insert_row h = some ix') :
    ix'.Sound ∧ ix'.key = ix.key ∧
      ∀ p ∈ ix'.handles, p = (h, 1) ∨ ∃ q ∈ ix.handles, p = bump h.row q := by
  obtain ⟨key, hkey, hix⟩ := insert_row_cases hix
  obtain ⟨hrs, hunder, hsub⟩ := hs.rowsAt key
  rcases hix with ⟨hnil, rfl⟩ | rfl
  · -- a hole: no row of the index is equal to the new one
    refine ⟨hs, rfl, fun p hp => .inr ⟨p, hp, ?_⟩⟩
    rcases hs.at_or_ne key hp with hmem | hne
    · rw [hnil] at hmem
      cases hmem
    · exact (bump_of_ne (row_ne hkey hne)).symm
  · refine ⟨hs.put (hrs.insert h) (fun p hp => ?_) ?_, rfl, fun p hp => ?_⟩
    · rcases Rows.mem_insert hp with rfl | ⟨q, hq, rfl⟩
      · exact (Row.val_cols hkey).symm
      · rw [bump_fst]
        exact hunder q hq
    · have hlen := Rows.len_insert_le hrs h
      omega
    · rcases hs.mem_put hp with hp | ⟨hp, hne⟩
      · rcases Rows.mem_insert hp with rfl | ⟨q, hq, rfl⟩
        · exact .inl rfl
        · exact .inr ⟨q, hsub q hq, rfl⟩
      · exact .inr ⟨p, hp, (bump_of_ne (row_ne hkey hne)).symm⟩

/-- **Removing a row** changes every handle in the same way, or takes it away. -/
theorem Sound.remove_row (hs : ix.Sound) (hix : ix.remove_row r = some ix') :
    ix'.Sound ∧ ix'.key = ix.key ∧ ∀ p ∈ ix'.handles, ∃ q ∈ ix.handles, dropOne r q = some p := by
  obtain ⟨key, hkey, hix⟩ := remove_row_cases hix
  obtain ⟨hrs, hunder, hsub⟩ := hs.rowsAt key
  rcases hix with ⟨hkept, rfl⟩ | ⟨hremoved, hpos, rfl⟩
  · -- the row is not there
    refine ⟨hs, rfl, fun p hp => ?_⟩
    rcases hs.at_or_ne key hp with hmem | hne
    · rw [← Rows.remove_eq_self hkept] at hmem
      obtain ⟨q, hq, heq⟩ := Rows.mem_remove hmem
      exact ⟨q, hsub q hq, heq⟩
    · exact ⟨p, hp, dropOne_of_ne (row_ne hkey hne)⟩
  · refine ⟨hs.put (hrs.remove r) (fun p hp => ?_) ?_, rfl, fun p hp => ?_⟩
    · obtain ⟨q, hq, heq⟩ := Rows.mem_remove hp
      rw [fst_of_dropOne heq]
      exact hunder q hq
    · have hlen := Rows.len_remove hrs hremoved
      omega
    · rcases hs.mem_put hp with hp | ⟨hp, hne⟩
      · obtain ⟨q, hq, heq⟩ := Rows.mem_remove hp
        exact ⟨q, hsub q hq, heq⟩
      · exact ⟨p, hp, dropOne_of_ne (row_ne hkey hne)⟩

theorem Sound.mark_filled (hs : ix.Sound) (hix : ix.mark_filled key = some ix') :
    ix'.Sound ∧ ix'.key = ix.key ∧
      ∀ p ∈ ix'.handles, p ∈ ix.handles ∧ VRow.proj ix.key (Row.val p.1.row) ≠ Row.val key := by
  unfold Index.mark_filled at hix
  split at hix <;> cases hix
  refine ⟨hs.put .nil (fun p hp => absurd hp not_mem_nil) ?_, rfl, fun p hp => ?_⟩
  · rw [Rows.len, map_nil, sum_nil]
    omega
  · exact (hs.mem_put hp).resolve_left not_mem_nil

end Index

/-! ## A store through its history -/

namespace Store

/-- Every index is sound, and a handle has the same number everywhere. -/
structure Sound (s : Store) : Prop where
  nonempty : s.state ≠ []
  index : ∀ ix ∈ s.state, ix.Sound
  same : ∀ p ∈ s.handles, ∀ q ∈ s.handles, p.1.id = q.1.id → p = q
  fresh : ∀ p ∈ s.handles, p.1.id < s.next

variable {s s' : Store}

theorem mem_handles : p ∈ s.handles ↔ ∃ ix ∈ s.state, p ∈ ix.handles := mem_flatMap

/-- A step that treats all old handles in the same way (`f`), and whose new
    handles have new names. -/
theorem Sound.step (hs : s.Sound) (f : Handle × Nat → Option (Handle × Nat))
    (hf : ∀ p q, f p = some q → q.1 = p.1) {N : Handle × Nat → Prop}
    (hnew : ∀ p, N p → s.next ≤ p.1.id ∧ p.1.id < s'.next)
    (hsame : ∀ p q, N p → N q → p.1.id = q.1.id → p = q) (hnext : s.next ≤ s'.next)
    (hsome : s'.state ≠ []) (hindex : ∀ ix ∈ s'.state, ix.Sound)
    (hmem : ∀ p ∈ s'.handles, N p ∨ ∃ q ∈ s.handles, f q = some p) : s'.Sound where
  nonempty := hsome
  index := hindex
  same p hp q hq hid := by
    rcases hmem p hp with hNp | ⟨p₀, hp₀, hfp⟩ <;> rcases hmem q hq with hNq | ⟨q₀, hq₀, hfq⟩
    · exact hsame p q hNp hNq hid
    -- an old handle and a new one have different names
    · have hold := hs.fresh q₀ hq₀
      have hge := (hnew p hNp).1
      rw [hf _ _ hfq] at hid
      omega
    · have hold := hs.fresh p₀ hp₀
      have hge := (hnew q hNq).1
      rw [hf _ _ hfp] at hid
      omega
    · rw [hf _ _ hfp, hf _ _ hfq] at hid
      obtain rfl := hs.same p₀ hp₀ q₀ hq₀ hid
      exact Option.some.inj (hfp.symm.trans hfq)
  fresh p hp := by
    rcases hmem p hp with hNp | ⟨p₀, hp₀, hfp⟩
    · exact (hnew p hNp).2
    · rw [hf _ _ hfp]
      exact Nat.lt_of_lt_of_le (hs.fresh p₀ hp₀) hnext

theorem Sound.shrink (hs : s.Sound) (hnext : s'.next = s.next) (hsome : s'.state ≠ [])
    (hindex : ∀ ix ∈ s'.state, ix.Sound) (hmem : ∀ p ∈ s'.handles, p ∈ s.handles) : s'.Sound :=
  hs.step (f := some) (N := fun _ => False) (fun p q h => by rw [Option.some.inj h])
    (fun p hp => hp.elim) (fun p q hp => hp.elim) (Nat.le_of_eq hnext.symm) hsome hindex
    fun p hp => .inr ⟨p, hmem p hp, rfl⟩

/-- A step that every index takes by itself. -/
theorem Sound.all (hs : s.Sound) {f : Handle × Nat → Option (Handle × Nat)}
    (hf : ∀ p q, f p = some q → q.1 = p.1) {N : Handle × Nat → Prop}
    (hnew : ∀ p, N p → s.next ≤ p.1.id ∧ p.1.id < s'.next)
    (hsame : ∀ p q, N p → N q → p.1.id = q.1.id → p = q) (hnext : s.next ≤ s'.next)
    {g : Index → Option Index} (hstate : s.state.mapM g = some s'.state)
    (hg : ∀ ix ix', ix.Sound → g ix = some ix' →
      ix'.Sound ∧ ∀ p ∈ ix'.handles, N p ∨ ∃ q ∈ ix.handles, f q = some p) : s'.Sound := by
  refine hs.step f hf hnew hsame hnext (fun hnil => ?_) (fun ix' hix' => ?_) fun p hp => ?_
  · have hrel := forall₂_of_mapM_option hstate
    rw [hnil] at hrel
    exact hs.nonempty (forall₂_nil_right_iff.mp hrel)
  · obtain ⟨ix, hix, hstep⟩ := exists_of_mem_mapM_option hstate hix'
    exact (hg ix ix' (hs.index ix hix) hstep).1
  · obtain ⟨ix', hix', hp⟩ := mem_handles.mp hp
    obtain ⟨ix, hix, hstep⟩ := exists_of_mem_mapM_option hstate hix'
    refine ((hg ix ix' (hs.index ix hix) hstep).2 p hp).imp_right fun ⟨q, hq, heq⟩ => ?_
    exact ⟨q, mem_handles.mpr ⟨ix, hix, hq⟩, heq⟩

theorem Sound.insert (hs : s.Sound) (h : s.insert r = some s') : s'.Sound := by
  obtain ⟨state, hstate, h⟩ := Option.bind_eq_some_iff.mp h
  cases h
  refine hs.all (f := fun p => some (bump r p)) (N := fun p => p = (⟨s.next, r⟩, 1))
    (fun p q h => ?_) ?_ ?_ (Nat.le_succ _) hstate fun ix ix' hix hins => ?_
  · rw [← Option.some.inj h, bump_fst]
  · rintro p rfl
    exact ⟨Nat.le_refl _, Nat.lt_succ_self _⟩
  · rintro p q rfl rfl -
    rfl
  · obtain ⟨hsound, -, hmem⟩ := hix.insert_row hins
    refine ⟨hsound, fun p hp => (hmem p hp).imp_right fun ⟨q, hq, heq⟩ => ?_⟩
    exact ⟨q, hq, congrArg some heq.symm⟩

theorem Sound.remove (hs : s.Sound) (h : s.remove r = some s') : s'.Sound := by
  obtain ⟨state, hstate, h⟩ := Option.bind_eq_some_iff.mp h
  cases h
  refine hs.all (f := dropOne r) (N := fun _ => False) (fun p q h => fst_of_dropOne h)
    (fun p hp => hp.elim) (fun p q hp => hp.elim) (Nat.le_refl _) hstate
    fun ix ix' hix hrem => ?_
  obtain ⟨hsound, -, hmem⟩ := hix.remove_row hrem
  exact ⟨hsound, fun p hp => .inr (hmem p hp)⟩

theorem Sound.set (hs : s.Sound) {ix ix' : Index} (hi : s.state[i]? = some ix) (hix' : ix'.Sound)
    (hsub : ∀ p ∈ ix'.handles, p ∈ ix.handles) : Sound { s with state := s.state.set i ix' } := by
  have hix : ix ∈ s.state := mem_of_getElem? hi
  refine hs.shrink rfl ?_ (fun ix₁ hix₁ => ?_) fun p hp => ?_
  · exact fun hnil => hs.nonempty (by simpa using hnil)
  · rcases mem_or_eq_of_mem_set hix₁ with hold | rfl
    · exact hs.index ix₁ hold
    · exact hix'
  · obtain ⟨ix₁, hix₁, hp₁⟩ := mem_handles.mp hp
    rcases mem_or_eq_of_mem_set hix₁ with hold | rfl
    · exact mem_handles.mpr ⟨ix₁, hold, hp₁⟩
    · exact mem_handles.mpr ⟨ix, hix, hsub p hp₁⟩

/-- A piece of a replay: the index while its rows come in. The handles under
    the key are new, and all others as before. -/
structure Filling (ix : Index) (key : Row) (next : Nat) (t : Index × Nat) : Prop where
  sound : t.1.Sound
  columns : t.1.key = ix.key
  later : next ≤ t.2
  mem : ∀ p ∈ t.1.handles, (p ∈ ix.handles ∧
      VRow.proj ix.key (Row.val p.1.row) ≠ Row.val key) ∨ (next ≤ p.1.id ∧ p.1.id < t.2)
  same : ∀ p ∈ t.1.handles, ∀ q ∈ t.1.handles, next ≤ p.1.id → p.1.id = q.1.id → p = q

theorem Filling.insert_row {ix ix' : Index} {next : Nat} {t : Index × Nat}
    (h : Filling ix key next t) (hfresh : ∀ p ∈ ix.handles, p.1.id < next)
    (hr : r.cols ix.key = some key) (hix' : t.1.insert_row ⟨t.2, r⟩ = some ix') :
    Filling ix key next (ix', t.2 + 1) := by
  obtain ⟨hsound, hcolumns, hmem⟩ := h.sound.insert_row hix'
  -- a handle of the piece, or one that is left alone
  have hcases : ∀ p ∈ ix'.handles, p = (⟨t.2, r⟩, 1) ∨
      ∃ q ∈ t.1.handles, p = bump r q ∧ (next ≤ q.1.id ∧ q.1.id < t.2 ∨
        p = q ∧ q ∈ ix.handles ∧ VRow.proj ix.key (Row.val q.1.row) ≠ Row.val key) := by
    intro p hp
    rcases hmem p hp with rfl | ⟨q, hq, rfl⟩
    · exact .inl rfl
    · refine .inr ⟨q, hq, rfl, ?_⟩
      rcases h.mem q hq with ⟨hold, hne⟩ | hnew
      · exact .inr ⟨bump_of_ne (Index.row_ne hr hne), hold, hne⟩
      · exact .inl hnew
  refine ⟨hsound, hcolumns.trans h.columns, Nat.le_succ_of_le h.later, fun p hp => ?_,
    fun p hp q hq hge hid => ?_⟩
  · rcases hcases p hp with rfl | ⟨q, hq, rfl, hnew | ⟨heq, hold, hne⟩⟩
    · exact .inr ⟨h.later, Nat.lt_succ_self _⟩
    · rw [bump_fst]
      exact .inr ⟨hnew.1, Nat.lt_succ_of_lt hnew.2⟩
    · rw [heq]
      exact .inl ⟨hold, hne⟩
  · -- ids below `t.2` come from the index before, with the same change
    have hlt : ∀ q ∈ t.1.handles, q.1.id < t.2 := by
      intro q hq
      rcases h.mem q hq with ⟨hold, -⟩ | hnew
      · exact Nat.lt_of_lt_of_le (hfresh q hold) h.later
      · exact hnew.2
    rcases hmem p hp with rfl | ⟨p₀, hp₀, rfl⟩ <;> rcases hmem q hq with rfl | ⟨q₀, hq₀, rfl⟩
    · rfl
    · have hq₀lt := hlt q₀ hq₀
      rw [bump_fst] at hid
      simp only at hid
      omega
    · have hp₀lt := hlt p₀ hp₀
      rw [bump_fst] at hid
      simp only at hid
      omega
    · rw [bump_fst] at hge
      rw [bump_fst, bump_fst] at hid
      rw [h.same p₀ hp₀ q₀ hq₀ hge hid]

theorem Sound.fill (hs : s.Sound) {rows : List Row}
    (hrows : ∀ ix, s.state[i]? = some ix → ∀ r ∈ rows, r.cols ix.key = some key)
    (h : s.fill i key rows = some s') : s'.Sound := by
  unfold Store.fill at h
  simp only [Option.bind_eq_bind, Option.bind_eq_some_iff] at h
  obtain ⟨ix, hi, ix₁, hfilled, ⟨ix₂, next⟩, hins, h⟩ := h
  cases h
  have hix : ix ∈ s.state := mem_of_getElem? hi
  have hfresh : ∀ p ∈ ix.handles, p.1.id < s.next :=
    fun p hp => hs.fresh p (mem_handles.mpr ⟨ix, hix, hp⟩)
  obtain ⟨hsound₁, hcolumns₁, hmem₁⟩ := (hs.index ix hix).mark_filled hfilled
  have hstart : Filling ix key s.next (ix₁, s.next) :=
    ⟨hsound₁, hcolumns₁, Nat.le_refl _, fun p hp => .inl (hmem₁ p hp),
      fun p hp q hq hge => absurd (hfresh p (hmem₁ p hp).1) (Nat.not_lt.mpr hge)⟩
  -- the invariant of the loop over the rows of the piece
  have hend : Filling ix key s.next (ix₂, next) := by
    refine foldlM_option_keeps (P := Filling ix key s.next) (fun t r t' hr ht ht' => ?_) hstart hins
    obtain ⟨ix', hix', ht'⟩ := Option.bind_eq_some_iff.mp ht'
    cases ht'
    exact ht.insert_row hfresh (hrows ix hi r hr) hix'
  refine hs.step (f := some) (N := fun p => p ∈ ix₂.handles ∧ s.next ≤ p.1.id ∧ p.1.id < next)
    (fun p q h => by rw [Option.some.inj h]) (fun p hp => hp.2)
    (fun p q hp hq hid => hend.same p hp.1 q hq.1 hp.2.1 hid) hend.later
    (fun hnil => hs.nonempty (by simpa using hnil)) (fun ix' hix' => ?_) fun p hp => ?_
  · rcases mem_or_eq_of_mem_set hix' with hold | rfl
    · exact hs.index ix' hold
    · exact hend.sound
  · obtain ⟨ix', hix', hp'⟩ := mem_handles.mp hp
    rcases mem_or_eq_of_mem_set hix' with hold | rfl
    · exact .inr ⟨p, mem_handles.mpr ⟨ix', hold, hp'⟩, rfl⟩
    · rcases hend.mem p hp' with ⟨hold, -⟩ | hnew
      · exact .inr ⟨p, mem_handles.mpr ⟨ix, hix, hold⟩, rfl⟩
      · exact .inl ⟨hp', hnew⟩

end Store

theorem Index.handles_erase {ix : Index} :
    ∀ p ∈ Index.handles { ix with state := ix.state.erase key }, p ∈ ix.handles := by
  intro p hp
  obtain ⟨e, he, hpe⟩ := Index.mem_handles.mp hp
  exact Index.mem_handles.mpr ⟨e, mem_of_mem_filter he, hpe⟩

theorem Index.Sound.evict_keys {ix : Index} (hs : ix.Sound) (keys : List Row) :
    (ix.evict_keys keys).Sound ∧ ∀ p ∈ (ix.evict_keys keys).handles, p ∈ ix.handles := by
  induction keys generalizing ix with
  | nil => exact ⟨hs, fun p hp => hp⟩
  | cons key keys ih =>
    obtain ⟨hsound, hsub⟩ := ih (hs.erase key)
    exact ⟨hsound, fun p hp => Index.handles_erase p (hsub p hp)⟩

namespace Store

variable {s s' : Store}

theorem Sound.mark_hole (hs : s.Sound) (h : s.mark_hole i key = some s') : s'.Sound := by
  unfold Store.mark_hole at h
  simp only [Option.bind_eq_bind, Option.bind_eq_some_iff] at h
  obtain ⟨ix, hi, ix', hix', h⟩ := h
  cases h
  unfold Index.mark_hole at hix'
  split at hix' <;> cases hix'
  exact hs.set hi ((hs.index ix (mem_of_getElem? hi)).erase key) Index.handles_erase

theorem Sound.evict_keys (hs : s.Sound) (h : s.evict_keys i keys = some s') : s'.Sound := by
  unfold Store.evict_keys at h
  simp only [Option.bind_eq_bind, Option.bind_eq_some_iff] at h
  obtain ⟨ix, hi, h⟩ := h
  cases h
  obtain ⟨hsound, hsub⟩ := (hs.index ix (mem_of_getElem? hi)).evict_keys keys
  exact hs.set hi hsound hsub

/-! ## What an eviction frees -/

def bytes (s : Store) : Nat := ∑ p ∈ s.handles.toFinset, p.1.row.deep_size_of * p.2

theorem evict_with_seed_spec {ix : Index} (hi : s.state[i]? = some ix) (seed : Nat) :
    (ix.state.entries = [] ∧ s.evict_with_seed i seed = none) ∨
      ∃ e ∈ ix.state.entries, s.evict_with_seed i seed =
        some ((s.without i ix e.1).freed e.2, e.1, s.without i ix e.1) := by
  unfold evict_with_seed
  simp only [hi, Option.bind_eq_bind, Option.bind_some]
  by_cases hnil : ix.state.entries = []
  · exact .inl ⟨hnil, by simp [hnil]⟩
  · right
    have hlt : seed % ix.state.entries.length < ix.state.entries.length :=
      Nat.mod_lt _ (length_pos_iff.mpr hnil)
    refine ⟨ix.state.entries[seed % ix.state.entries.length], getElem_mem hlt, ?_⟩
    rw [getElem?_eq_getElem hlt, Option.bind_some]

theorem Sound.without (hs : s.Sound) {ix : Index} (hi : s.state[i]? = some ix) (key : Row) :
    (s.without i ix key).Sound :=
  hs.set hi ((hs.index ix (mem_of_getElem? hi)).erase key) Index.handles_erase

theorem getElem?_without {ix : Index} (hi : s.state[i]? = some ix) (key : Row) :
    (s.without i ix key).state[i]? = some { ix with state := ix.state.erase key } :=
  getElem?_set_self (List.getElem?_eq_some_iff.mp hi).1

theorem handles_without {ix : Index} (hi : s.state[i]? = some ix) (he : e ∈ ix.state.entries) :
    s.handles.Perm (e.2 ++ (s.without i ix e.1).handles) := by
  have hindex : ix.handles.Perm
      (e.2 ++ Index.handles { ix with state := ix.state.erase e.1 }) :=
    (ix.state.perm_cons_erase he).flatMap_right Prod.snd
  obtain ⟨hlt, rfl⟩ := List.getElem?_eq_some_iff.mp hi
  obtain ⟨l₁, l₂, hstate, -, hset⟩ :=
    @exists_of_set _ i { s.state[i] with state := s.state[i].state.erase e.1 } s.state hlt
  unfold handles Store.without
  simp only [hset]
  nth_rewrite 1 [hstate]
  simp only [flatMap_append, flatMap_cons]
  refine ((hindex.append_right _).append_left _).trans ?_
  rw [append_assoc]
  exact perm_append_comm_assoc _ _ _

/-- **What an eviction reports** is what the bytes go down by. -/
theorem freed_bytes (hs : s.Sound) {ix : Index} (hi : s.state[i]? = some ix)
    (he : e ∈ ix.state.entries) :
    (s.without i ix e.1).freed e.2 + (s.without i ix e.1).bytes = s.bytes := by
  have hperm := handles_without hi he
  have hnodup : e.2.Nodup := ((hs.index ix (mem_of_getElem? hi)).rows e he).apart.of_map
  -- a handle is the last one if the rest of the store does not have it
  have hlast : ∀ p ∈ e.2, ((s.without i ix e.1).strong_count p.1.id == 0) = true ↔
      p ∉ (s.without i ix e.1).handles := by
    intro p hp
    have hold : p ∈ s.handles := hperm.mem_iff.mpr (mem_append_left _ hp)
    rw [beq_iff_eq, strong_count, length_eq_zero_iff, filter_eq_nil_iff]
    constructor
    · exact fun hnone hmem => hnone p hmem BEq.rfl
    · intro hnot q hq hid
      have hq' : q ∈ s.handles := hperm.mem_iff.mpr (mem_append_right _ hq)
      rw [hs.same q hq' p hold (beq_iff_eq.mp hid)] at hq
      exact hnot hq
  have hfreed : (s.without i ix e.1).freed e.2 =
      ∑ p ∈ s.handles.toFinset \ (s.without i ix e.1).handles.toFinset,
        p.1.row.deep_size_of * p.2 := by
    rw [freed, ← sum_toFinset _ (hnodup.filter _)]
    refine Finset.sum_congr (Finset.ext fun p => ?_) fun _ _ => rfl
    simp only [mem_toFinset, mem_filter, Finset.mem_sdiff, hperm.mem_iff, mem_append]
    constructor
    · intro h
      exact ⟨.inl h.1, (hlast p h.1).mp h.2⟩
    · rintro ⟨hp | hp, hnot⟩
      · exact ⟨hp, (hlast p hp).mpr hnot⟩
      · exact absurd hp hnot
  rw [hfreed]
  refine Finset.sum_sdiff fun p hp => ?_
  rw [mem_toFinset] at hp ⊢
  exact hperm.mem_iff.mpr (mem_append_right _ hp)

theorem set_of_getElem? {α : Type} {l : List α} {a : α} (h : l[i]? = some a) : l.set i a = l := by
  obtain ⟨hlt, rfl⟩ := List.getElem?_eq_some_iff.mp h
  exact set_getElem_self hlt

theorem evictFrom_spec (hs : s.Sound) {ix : Index} (hi : s.state[i]? = some ix) (seed : Nat → Nat)
    (count : Nat) :
    (evictFrom i seed count s).1 + (evictFrom i seed count s).2.2.bytes = s.bytes ∧
      (evictFrom i seed count s).2.2.Sound ∧
      ∃ ix', (evictFrom i seed count s).2.2.state = s.state.set i ix' ∧ ix'.rows = ix.rows ∧
        ix'.state.entries.length = ix.state.entries.length - count := by
  induction count generalizing s ix with
  | zero => exact ⟨Nat.zero_add _, hs, ix, (set_of_getElem? hi).symm, rfl, rfl⟩
  | succ count ih =>
    unfold evictFrom
    rcases evict_with_seed_spec hi (seed count) with ⟨hnil, hnone⟩ | ⟨e, he, hsome⟩
    · -- no key is left to evict
      rw [hnone]
      exact ⟨Nat.zero_add _, hs, ix, (set_of_getElem? hi).symm, rfl, by simp [hnil]⟩
    · rw [hsome]
      dsimp only
      have hbytes := freed_bytes hs hi he
      obtain ⟨hrest, hsound, ix', hstate, hrows, hlen⟩ :=
        ih (hs.without hi e.1) (getElem?_without hi e.1)
      refine ⟨by omega, hsound, ix', ?_, hrows, ?_⟩
      · rw [hstate, without, set_set]
      · have herase : ix.state.entries.length = (ix.state.erase e.1).entries.length + 1 :=
          (ix.state.perm_cons_erase he).length_eq
        rw [hlen]
        simp only
        omega

theorem evictFrom_nil {ix : Index} (hi : s.state[i]? = some ix) (hnil : ix.state.entries = [])
    (seed : Nat → Nat) (count : Nat) : evictFrom i seed count s = (0, [], s) := by
  cases count with
  | zero => rfl
  | succ count =>
    have hnone : s.evict_with_seed i (seed count) = none := by
      simp [evict_with_seed, hi, hnil]
    simp only [evictFrom, hnone]

theorem evictFrom_bytes {ix : Index} (hi : s.state[i]? = some ix)
    (hrows : ∀ e ∈ ix.state.entries, e.2 = []) (seed : Nat → Nat) (count : Nat) :
    (evictFrom i seed count s).1 = 0 := by
  induction count generalizing s ix with
  | zero => rfl
  | succ count ih =>
    unfold evictFrom
    rcases evict_with_seed_spec hi (seed count) with ⟨hnil, hnone⟩ | ⟨e, he, hsome⟩
    · rw [hnone]
    · rw [hsome]
      have hrest := ih (getElem?_without hi e.1) fun e' he' => hrows e' (mem_of_mem_filter he')
      simp only [hrest, hrows e he]
      rfl

theorem Sound.evict_random_keys (hs : s.Sound) {count bytes : Nat} {draw : Draw}
    {columns : List Nat} (h : s.evict_random_keys count draw = some (columns, keys, bytes, s')) :
    s'.Sound := by
  unfold Store.evict_random_keys at h
  simp only [Option.bind_eq_bind, Option.bind_eq_some_iff] at h
  obtain ⟨ix, hi, h⟩ := h
  cases h
  exact (evictFrom_spec hs hi _ _).2.1

end Store

/-- **Every store that there is** is sound. -/
theorem Reached.sound {s : Store} (h : Reached s) : s.Sound := by
  induction h with
  | new keys hne =>
    have hhandles : (Store.new keys).handles = [] := by
      simp [Store.new, Store.handles, flatMap_map, Index.handles, Index.new]
    refine ⟨fun hnil => hne (map_eq_nil_iff.mp hnil), fun ix hix => ?_, ?_, ?_⟩
    · obtain ⟨k, -, rfl⟩ := mem_map.mp hix
      exact Index.sound_new k.1 k.2
    all_goals
      rw [hhandles]
      exact fun p hp => absurd hp not_mem_nil
  | insert _ r hs ih => exact ih.insert hs
  | remove _ r hs ih => exact ih.remove hs
  | fill _ i key rows hrows hs ih => exact ih.fill hrows hs
  | mark_hole _ i key hs ih => exact ih.mark_hole hs
  | evict_keys _ i keys hs ih => exact ih.evict_keys hs
  | evict_random_keys _ count draw hs ih => exact ih.evict_random_keys hs

end Noria.Server.Domain

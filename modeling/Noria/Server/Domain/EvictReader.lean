import Noria.Server.Domain.Budget
import Noria.Server.Domain.EvictLoop
import Noria.Server.Domain.Walk

/-! # The loop of an eviction from a reader

  A reader counts the bytes of the rows it shows. `evict_random_keys` does nothing when it counts
  none, but the loop goes on as long as there is a key: so keys that were filled without rows may
  stay, and then the loop does not end (`reader_ends_iff`).

  `eviction_ends_iff` is the result for both kinds of nodes.
-/

namespace Noria

open List Option AssocMap

variable {freed : Nat}

theorem Row.deep_size_of_congr {r r' : Row} (h : (r == r') = true) :
    Row.deep_size_of r = Row.deep_size_of r' := by
  have hval : ∀ d d' : DataType, d.val = d'.val → d.deep_size_of = d'.deep_size_of := by
    intro d d' hd
    cases d <;> cases d' <;> simp_all [DataType.val, DataType.deep_size_of]
  rw [Row.beq_iff_val] at h
  unfold Row.deep_size_of
  congr 2
  induction r generalizing r' with
  | nil =>
    cases r' with
    | nil => rfl
    | cons d' r' => cases h
  | cons d r ih =>
    cases r' with
    | nil => cases h
    | cons d' r' =>
      rw [Row.val_cons, Row.val_cons, List.cons.injEq] at h
      rw [map_cons, map_cons, hval d d' h.1, ih h.2]

theorem bytesOf_erase {rs : List Row} {r : Row} (h : ∃ r' ∈ rs, (r' == r) = true) :
    bytesOf (rs.erase r) + Row.deep_size_of r = bytesOf rs := by
  induction rs with
  | nil =>
    obtain ⟨r', hr', -⟩ := h
    exact absurd hr' not_mem_nil
  | cons a rs ih =>
    have hcons : ∀ l : List Row, bytesOf (a :: l) = Row.deep_size_of a + bytesOf l :=
      fun l => sum_cons
    by_cases ha : a == r
    · rw [erase_cons, if_pos ha, hcons, Row.deep_size_of_congr ha, Nat.add_comm]
    · have hlater : ∃ r' ∈ rs, (r' == r) = true := by
        obtain ⟨r', hr', heq⟩ := h
        rcases mem_cons.mp hr' with rfl | hr'
        · exact absurd heq ha
        · exact ⟨r', hr', heq⟩
      have hrest := ih hlater
      rw [erase_cons, if_neg ha, hcons, hcons]
      omega

namespace Server.Domain

/-! ## The reader -/

namespace WriteHandle

/-- A hole becomes a key without rows. -/
def mark_filled (w : WriteHandle) (key : Row) : Option WriteHandle :=
  match w.rows.get? key with
  | some _ => none
  | none => some { w with rows := w.rows.insert key [] }

/-- A record of a batch. Those for holes have been taken out before. -/
def add (w : WriteHandle) : Noria.Sqlite.Record → Option WriteHandle
  | .positive r => do
    let key ← r.cols w.key
    match w.rows.get? key with
    | none => some w
    | some rs => some { w with
        rows := w.rows.insert key (rs ++ [r]), mem_size := w.mem_size + r.deep_size_of }
  | .negative r => do
    let key ← r.cols w.key
    match w.rows.get? key with
    | none => some w
    | some rs =>
      -- `checked_sub(…).unwrap()`
      if r.deep_size_of ≤ w.mem_size then some { w with
        rows := w.rows.insert key (rs.erase r), mem_size := w.mem_size - r.deep_size_of }
      else none

/-- What `empty_random` of the map does: it takes out as many keys as it is asked for, or all. -/
abbrev Pick := Nat → List (Row × List Row) → List (Row × List Row)

def Pick.Random (pick : Pick) : Prop :=
  ∀ n entries, ∃ rest, entries.Perm (pick n entries ++ rest) ∧
    (pick n entries).length = min n entries.length

/-- Evict `n` randomly selected keys, and return the number of bytes freed. -/
def evict_random_keys (w : WriteHandle) (n : Nat) (pick : Pick) : Option (Nat × WriteHandle) :=
  if 0 < w.mem_size then
    if w.rows.entries.isEmpty then none
    else
      let chosen := pick n w.rows.entries
      let bytes := (chosen.map fun e => bytesOf e.2).sum
      if bytes ≤ w.mem_size then
        some (bytes, { w with
          rows := chosen.foldl (fun m e => m.erase e.1) w.rows, mem_size := w.mem_size - bytes })
      else none
  else some (0, w)

def is_empty (w : WriteHandle) : Bool := w.rows.entries.isEmpty

end WriteHandle

def evictReader (rng : Nat → WriteHandle.Pick) (num_bytes : Nat) :
    Nat → Nat → Nat → WriteHandle → Outcome Unit (Nat × WriteHandle)
  | 0, _, _, _ => .error ()
  | fuel + 1, round, freed, w =>
    if num_bytes ≤ freed then .ok (freed, w)
    else do
      let out ← Outcome.ofOption (w.evict_random_keys 16 (rng round))
      if out.2.is_empty then .ok (freed + out.1, out.2)
      else evictReader rng num_bytes fuel (round + 1) (freed + out.1) out.2

/-- The readers that a history leads to. A negative is for a row that is
    there, and the keys of an eviction are different. -/
inductive ReaderReached : WriteHandle → Prop
  | new (key : List Nat) : ReaderReached ⟨key, ∅, 0⟩
  | mark_filled {w w' : WriteHandle} (h : ReaderReached w) (key : Row)
      (hw : w.mark_filled key = some w') : ReaderReached w'
  | positive {w w' : WriteHandle} (h : ReaderReached w) (r : Row)
      (hw : w.add (.positive r) = some w') : ReaderReached w'
  | negative {w w' : WriteHandle} (h : ReaderReached w) (r : Row)
      (hthere : ∀ key rs, r.cols w.key = some key → w.rows.get? key = some rs →
        ∃ r' ∈ rs, (r' == r) = true)
      (hw : w.add (.negative r) = some w') : ReaderReached w'
  | on_eviction {w w' : WriteHandle} (h : ReaderReached w) (keys : List Row)
      (hkeys : keys.Pairwise fun k k' => (k == k') = false)
      (hw : w.on_eviction keys = some w') : ReaderReached w'
  | evict_random_keys {w w' : WriteHandle} (h : ReaderReached w) (n : Nat)
      {pick : WriteHandle.Pick} (hpick : pick.Random) {bytes : Nat}
      (hw : w.evict_random_keys n pick = some (bytes, w')) : ReaderReached w'

/-! ## What a reader counts -/

namespace WriteHandle

/-- The counter is right. -/
def Accounted (w : WriteHandle) : Prop := w.mem_size = total bytesOf w.rows

variable {w w' : WriteHandle}

theorem bytesOf_append (rs : List Row) (r : Row) :
    bytesOf (rs ++ [r]) = bytesOf rs + Row.deep_size_of r := by
  simp [bytesOf]

theorem total_erase_sizeAt (m : AssocMap Row (List Row)) (key : Row) :
    total bytesOf (m.erase key) + bytesOf ((m.get? key).getD []) =
      total bytesOf m := by
  cases hget : m.get? key with
  | some rs => exact total_erase_of_some bytesOf hget
  | none =>
    have hsame : (m.erase key).entries = m.entries := by
      refine filter_eq_self.mpr fun e he => ?_
      rw [Bool.not_eq_true', Bool.eq_false_iff]
      intro heq
      have hfound := m.get?_of_mem he
      rw [m.get?_congr heq, hget] at hfound
      cases hfound
    rw [total, hsame]
    rfl

theorem total_foldl_erase {keys : List Row} (m : AssocMap Row (List Row))
    (hkeys : keys.Pairwise fun k k' => (k == k') = false) :
    total bytesOf (keys.foldl erase m) +
      (keys.map fun k => bytesOf ((m.get? k).getD [])).sum = total bytesOf m := by
  induction keys generalizing m with
  | nil => rfl
  | cons key keys ih =>
    rw [pairwise_cons] at hkeys
    have hsame : (keys.map fun k => bytesOf (((m.erase key).get? k).getD [])) =
        keys.map fun k => bytesOf ((m.get? k).getD []) := by
      refine map_congr_left fun k hk => ?_
      rw [get?_erase, if_neg (by rw [hkeys.1 k hk]; exact Bool.false_ne_true)]
    have hrest := ih (m.erase key) hkeys.2
    have hfirst := total_erase_sizeAt m key
    rw [hsame] at hrest
    rw [foldl_cons, map_cons, sum_cons]
    omega

theorem on_eviction_some {keys : List Row} (h : w.on_eviction keys = some w') :
    w'.rows = keys.foldl erase w.rows ∧ w'.mem_size + w.cost keys = w.mem_size := by
  unfold on_eviction at h
  rw [bind_eq_bind, bind_eq_some_iff] at h
  obtain ⟨mem_size, hmem, h⟩ := h
  cases h
  refine ⟨rfl, ?_⟩
  have hloop : ∀ start, keys.foldlM w.mark_hole start = some mem_size →
      mem_size + w.cost keys = start := by
    clear hmem
    induction keys with
    | nil =>
      intro start hstart
      cases hstart
      rfl
    | cons key keys ih =>
      intro start hstart
      rw [foldlM_cons, bind_eq_bind, bind_eq_some_iff] at hstart
      obtain ⟨next, hnext, hrest⟩ := hstart
      have hcost : w.cost (key :: keys) = w.sizeAt key + w.cost keys := sum_cons
      have hsum := ih next hrest
      unfold mark_hole at hnext
      split at hnext
      · split at hnext <;> cases hnext
        omega
      · cases hnext
  exact hloop w.mem_size hmem

/-- What one call of `evict_random_keys` does to an accounted reader. -/
structure Evicted (w : WriteHandle) (n : Nat) (pick : Pick) (bytes : Nat) (w' : WriteHandle) :
    Prop where
  accounted : w'.Accounted
  freed : bytes + w'.mem_size = w.mem_size
  split : w.rows.entries.Perm (pick n w.rows.entries ++ w'.rows.entries)
  count : (pick n w.rows.entries).length = min n w.rows.entries.length

theorem Accounted.evict (hw : w.Accounted) (hpos : 0 < w.mem_size) {pick : Pick}
    (hpick : pick.Random) (n : Nat) :
    ∃ bytes w', w.evict_random_keys n pick = some (bytes, w') ∧ Evicted w n pick bytes w' := by
  obtain ⟨rest, hperm, hlen⟩ := hpick n w.rows.entries
  have hleft := w.rows.perm_foldl_erase hperm
  have hsum := (hperm.map fun e => bytesOf e.2).sum_nat
  rw [map_append, sum_append, ← (hleft.map fun e => bytesOf e.2).sum_nat] at hsum
  have hmem : w.mem_size = (w.rows.entries.map fun e => bytesOf e.2).sum := hw
  have hne : w.rows.entries.isEmpty = false := by
    rw [Bool.eq_false_iff]
    intro hnil
    rw [isEmpty_iff.mp hnil] at hmem
    simp at hmem
    omega
  have hle : ((pick n w.rows.entries).map fun e => bytesOf e.2).sum ≤ w.mem_size := by omega
  refine ⟨_, _, by rw [evict_random_keys, if_pos hpos, hne, if_neg Bool.false_ne_true,
    if_pos hle], ?_, ?_, hperm.trans (hleft.symm.append_left _), hlen⟩
  · simp only [Accounted, total]
    omega
  · dsimp only
    omega

theorem evict_none (hzero : w.mem_size = 0) (n : Nat) (pick : Pick) :
    w.evict_random_keys n pick = some (0, w) := by
  rw [evict_random_keys, if_neg (by omega)]

end WriteHandle

open WriteHandle in
/-- **Every reader that there is** counts right. -/
theorem ReaderReached.accounted {w : WriteHandle} (h : ReaderReached w) : w.Accounted := by
  induction h with
  | new key => rfl
  | mark_filled _ key hw ih =>
    rename_i w w' _
    unfold WriteHandle.mark_filled at hw
    cases hget : w.rows.get? key with
    | some rs =>
      rw [hget] at hw
      cases hw
    | none =>
      rw [hget] at hw
      cases hw
      show w.mem_size = total bytesOf (w.rows.insert key [])
      rw [total_insert_of_none bytesOf hget]
      exact ih
  | positive _ r hw ih =>
    rename_i w w' _
    obtain ⟨key, -, hw⟩ := bind_eq_some_iff.mp hw
    cases hget : w.rows.get? key with
    | none =>
      rw [hget] at hw
      cases hw
      exact ih
    | some rs =>
      rw [hget] at hw
      cases hw
      have htotal := total_insert_of_some bytesOf hget (rs ++ [r])
      rw [bytesOf_append] at htotal
      have hmem : w.mem_size = total bytesOf w.rows := ih
      show w.mem_size + _ = total bytesOf (w.rows.insert key (rs ++ [r]))
      omega
  | negative _ r hthere hw ih =>
    rename_i w w' _
    obtain ⟨key, hkey, hw⟩ := bind_eq_some_iff.mp hw
    cases hget : w.rows.get? key with
    | none =>
      rw [hget] at hw
      cases hw
      exact ih
    | some rs =>
      rw [hget] at hw
      dsimp only at hw
      split at hw <;> cases hw
      have htotal := total_insert_of_some bytesOf hget (rs.erase r)
      have herase := bytesOf_erase (hthere key rs hkey hget)
      have hmem : w.mem_size = total bytesOf w.rows := ih
      show w.mem_size - _ = total bytesOf (w.rows.insert key (rs.erase r))
      omega
  | on_eviction _ keys hkeys hw ih =>
    rename_i w w' _
    obtain ⟨hrows, hmem'⟩ := on_eviction_some hw
    have htotal := total_foldl_erase w.rows hkeys
    have hmem : w.mem_size = total bytesOf w.rows := ih
    unfold cost sizeAt at hmem'
    show w'.mem_size = total bytesOf w'.rows
    rw [hrows]
    omega
  | evict_random_keys _ n hpick hw ih =>
    rename_i w w' _ pick bytes
    by_cases hpos : 0 < w.mem_size
    · obtain ⟨bytes', w₁, heq, hevicted⟩ := ih.evict hpos hpick n
      rw [heq] at hw
      cases hw
      exact hevicted.accounted
    · rw [evict_none (by omega)] at hw
      cases hw
      exact ih

/-! ## When the loop ends -/

section Reader

variable {rng : Nat → WriteHandle.Pick} {num_bytes : Nat} {w : WriteHandle}

/-- How many of some keys have rows. -/
def withRows (entries : List (Row × List Row)) : Nat :=
  (entries.filter fun e => !e.2.isEmpty).length

/-- **The purpose of the loop**, for a reader. -/
def ReaderEnds (rng : Nat → WriteHandle.Pick) (num_bytes : Nat) (w : WriteHandle) : Prop :=
  ∃ bound, ∀ fuel ≥ bound, ∃ freed w', evictReader rng num_bytes fuel 0 0 w = .ok (freed, w') ∧
    (num_bytes ≤ freed ∨ w'.is_empty = true)

/-- The rounds that it takes to evict all keys with rows are enough for the others too. -/
def FewEmpty (w : WriteHandle) : Prop :=
  w.rows.entries.length ≤ 16 * ((withRows w.rows.entries + 15) / 16)

def ReaderGood (num_bytes : Nat) (w : WriteHandle) : Prop :=
  num_bytes = 0 ∨ num_bytes ≤ w.mem_size ∨ FewEmpty w

theorem withRows_append (l l' : List (Row × List Row)) :
    withRows (l ++ l') = withRows l + withRows l' := by
  simp [withRows]

theorem withRows_perm {l l' : List (Row × List Row)} (h : l.Perm l') : withRows l = withRows l' :=
  (h.filter _).length_eq

theorem withRows_le (l : List (Row × List Row)) : withRows l ≤ l.length := length_filter_le _ _

/-- A reader counts bytes exactly if some key has rows. -/
theorem WriteHandle.Accounted.pos_iff (hw : w.Accounted) :
    0 < w.mem_size ↔ 0 < withRows w.rows.entries := by
  have hmem : w.mem_size = (w.rows.entries.map fun e => bytesOf e.2).sum := hw
  rw [hmem, withRows]
  induction w.rows.entries with
  | nil => exact Iff.rfl
  | cons e l ih =>
    rw [map_cons, sum_cons, filter_cons]
    cases hrows : e.2 with
    | nil => simpa [bytesOf] using ih
    | cons r rs =>
      have hbytes : 0 < bytesOf (r :: rs) := by
        have hsize : 24 ≤ Row.deep_size_of r := Nat.le_add_right _ _
        have hcons : bytesOf (r :: rs) = Row.deep_size_of r + bytesOf rs := sum_cons
        omega
      refine iff_of_true (by omega) ?_
      simp

theorem WriteHandle.Evicted.withRows {pick : WriteHandle.Pick} {n bytes : Nat} {w' : WriteHandle}
    (h : w.Evicted n pick bytes w') :
    Domain.withRows (pick n w.rows.entries) + Domain.withRows w'.rows.entries =
      Domain.withRows w.rows.entries := by
  rw [withRows_perm h.split, withRows_append]

theorem WriteHandle.Evicted.length {pick : WriteHandle.Pick} {n bytes : Nat} {w' : WriteHandle}
    (h : w.Evicted n pick bytes w') : w'.rows.entries.length = w.rows.entries.length - n := by
  have hlen := h.split.length_eq
  rw [List.length_append, h.count] at hlen
  omega

theorem WriteHandle.is_empty_iff : w.is_empty = true ↔ w.rows.entries.length = 0 := by
  rw [WriteHandle.is_empty, List.isEmpty_iff, List.length_eq_zero_iff]

theorem WriteHandle.is_empty_eq_false (h : 0 < w.rows.entries.length) : w.is_empty = false := by
  rw [Bool.eq_false_iff, Ne, is_empty_iff]
  omega

/-! ### One round -/

theorem evictReader_stop {fuel round : Nat} (h : num_bytes ≤ freed) :
    evictReader rng num_bytes (fuel + 1) round freed w = .ok (freed, w) := by
  rw [evictReader, if_pos h]

theorem evictReader_zero {fuel round : Nat} (hlt : freed < num_bytes) (hzero : w.mem_size = 0) :
    evictReader rng num_bytes (fuel + 1) round freed w =
      if w.is_empty then .ok (freed, w)
      else evictReader rng num_bytes fuel (round + 1) freed w := by
  rw [evictReader, if_neg (by omega), WriteHandle.evict_none hzero, Outcome.ofOption,
    Outcome.ok_bind]
  rfl

theorem evictReader_succ (hw : w.Accounted) (hpos : 0 < w.mem_size) (rng : Nat → WriteHandle.Pick)
    (round : Nat) (hpick : (rng round).Random) (hlt : freed < num_bytes) :
    ∃ bytes w', w.Evicted 16 (rng round) bytes w' ∧ ∀ fuel,
      evictReader rng num_bytes (fuel + 1) round freed w =
        if w'.is_empty then .ok (freed + bytes, w')
        else evictReader rng num_bytes fuel (round + 1) (freed + bytes) w' := by
  obtain ⟨bytes, w', hout, hevicted⟩ := hw.evict hpos hpick 16
  refine ⟨bytes, w', hevicted, fun fuel => ?_⟩
  rw [evictReader, if_neg (by omega), hout, Outcome.ofOption, Outcome.ok_bind]

/-! ### When it ends -/

/-- **The reader has the bytes**: every round evicts a key. -/
theorem evictReader_ends (hw : w.Accounted) (hrng : ∀ round, (rng round).Random)
    (hbytes : num_bytes ≤ freed + w.mem_size) (round : Nat) :
    ∃ bound, ∀ fuel ≥ bound, ∃ freed' w',
      evictReader rng num_bytes fuel round freed w = .ok (freed', w') ∧
        (num_bytes ≤ freed' ∨ w'.is_empty = true) := by
  induction hlen : w.rows.entries.length using Nat.strong_induction_on
    generalizing w freed round with
  | _ len ih =>
    by_cases hstop : num_bytes ≤ freed
    · exact enough_of_stop fun fuel => ⟨freed, w, evictReader_stop hstop, .inl hstop⟩
    · have hpos : 0 < w.mem_size := by omega
      have hrows := withRows_le w.rows.entries
      have hsome := hw.pos_iff.mp hpos
      obtain ⟨bytes, w', hevicted, hstep⟩ :=
        evictReader_succ hw hpos rng round (hrng round) (Nat.lt_of_not_le hstop)
      have hfreed := hevicted.freed
      have hlength := hevicted.length
      cases hempty : w'.is_empty with
      | true =>
        refine enough_of_stop fun fuel => ⟨freed + bytes, w', ?_, .inr hempty⟩
        rw [hstep, if_pos hempty]
      | false =>
        have hrest : num_bytes ≤ (freed + bytes) + w'.mem_size := by omega
        refine enough_of_round (ih w'.rows.entries.length (by omega) hevicted.accounted hrest
          (round + 1) rfl) fun fuel hrun => ?_
        rwa [hstep, hempty, if_neg Bool.false_ne_true]

/-- **Few keys without rows**: they go along with the others. -/
theorem evictReader_empties (hw : w.Accounted) (hrng : ∀ round, (rng round).Random)
    (hfew : FewEmpty w) (freed round : Nat) :
    ∃ bound, ∀ fuel ≥ bound, ∃ freed' w',
      evictReader rng num_bytes fuel round freed w = .ok (freed', w') ∧
        (num_bytes ≤ freed' ∨ w'.is_empty = true) := by
  induction hlen : w.rows.entries.length using Nat.strong_induction_on
    generalizing w freed round with
  | _ len ih =>
    by_cases hstop : num_bytes ≤ freed
    · exact enough_of_stop fun fuel => ⟨freed, w, evictReader_stop hstop, .inl hstop⟩
    · by_cases hpos : 0 < w.mem_size
      · have hsome := hw.pos_iff.mp hpos
        have hrows := withRows_le w.rows.entries
        obtain ⟨bytes, w', hevicted, hstep⟩ :=
          evictReader_succ hw hpos rng round (hrng round) (Nat.lt_of_not_le hstop)
        have hlength := hevicted.length
        have hleft := hevicted.withRows
        have hchosen := withRows_le (rng round 16 w.rows.entries)
        rw [hevicted.count] at hchosen
        unfold FewEmpty at hfew ih
        cases hempty : w'.is_empty with
        | true =>
          refine enough_of_stop fun fuel => ⟨freed + bytes, w', ?_, .inr hempty⟩
          rw [hstep, if_pos hempty]
        | false =>
          refine enough_of_round (ih w'.rows.entries.length (by omega) hevicted.accounted
            (by omega) (freed + bytes) (round + 1) rfl) fun fuel hrun => ?_
          rwa [hstep, hempty, if_neg Bool.false_ne_true]
      · have hzero : w.rows.entries.length = 0 := by
          rw [hw.pos_iff] at hpos
          unfold FewEmpty at hfew
          omega
        have hempty := WriteHandle.is_empty_iff.mpr hzero
        refine enough_of_stop fun fuel => ⟨freed, w, ?_, .inr hempty⟩
        rw [evictReader_zero (by omega) (by omega), if_pos hempty]

/-! ### When it does not -/

/-- The keys with rows come first. -/
def rowsFirst : WriteHandle.Pick := fun n entries =>
  (entries.filter (fun e => !e.2.isEmpty) ++ entries.filter fun e => !!e.2.isEmpty).take n

theorem rowsFirst_random : WriteHandle.Pick.Random rowsFirst := by
  intro n entries
  have hperm := filter_append_perm (fun e : Row × List Row => !e.2.isEmpty) entries
  refine ⟨(entries.filter (fun e => !e.2.isEmpty) ++
    entries.filter fun e => !!e.2.isEmpty).drop n, ?_, ?_⟩
  · rw [rowsFirst, take_append_drop]
    exact hperm.symm
  · rw [rowsFirst, length_take, hperm.length_eq]

theorem withRows_rowsFirst (n : Nat) (entries : List (Row × List Row)) :
    withRows (rowsFirst n entries) = min n (withRows entries) := by
  have hfirst : ∀ l : List (Row × List Row), (∀ e ∈ l, (!e.2.isEmpty) = true) →
      withRows l = l.length := by
    intro l hl
    rw [withRows, filter_eq_self.mpr hl]
  have hlast : ∀ l : List (Row × List Row), (∀ e ∈ l, ¬(!e.2.isEmpty) = true) → withRows l = 0 := by
    intro l hl
    rw [withRows, filter_eq_nil_iff.mpr hl]
    rfl
  rw [rowsFirst, take_append, withRows_append, hfirst, hlast, length_take]
  · rfl
  · intro e he hrows
    have hnot := (mem_filter.mp (mem_of_mem_take he)).2
    rw [hrows] at hnot
    cases hnot
  · intro e he
    exact (mem_filter.mp (mem_of_mem_take he)).2

/-- **Too many keys without rows**: the loop goes on for ever. -/
theorem evictReader_forever (hw : w.Accounted) (hbytes : freed + w.mem_size < num_bytes)
    (hmany : ¬FewEmpty w) (fuel round : Nat) :
    evictReader (fun _ => rowsFirst) num_bytes fuel round freed w = .error () := by
  induction fuel generalizing w freed round with
  | zero => rfl
  | succ fuel ih =>
    unfold FewEmpty at hmany ih
    have hsome := WriteHandle.is_empty_eq_false (w := w) (by omega)
    by_cases hpos : 0 < w.mem_size
    · obtain ⟨bytes, w', hevicted, hstep⟩ :=
        evictReader_succ hw hpos (fun _ => rowsFirst) round rowsFirst_random
          (show freed < num_bytes by omega)
      have hrows := hw.pos_iff.mp hpos
      have hfreed := hevicted.freed
      have hlength := hevicted.length
      have hleft := hevicted.withRows
      rw [withRows_rowsFirst] at hleft
      rw [hstep, WriteHandle.is_empty_eq_false (by omega), if_neg Bool.false_ne_true]
      exact ih hevicted.accounted (by omega) (by omega) _
    · rw [evictReader_zero (by omega) (by omega), hsome, if_neg Bool.false_ne_true]
      exact ih hw hbytes hmany _

theorem evictReader_freed (hw : w.Accounted) (hrng : ∀ round, (rng round).Random)
    {fuel round freed' : Nat} {w' : WriteHandle}
    (hrun : evictReader rng num_bytes fuel round freed w = .ok (freed', w')) :
    w'.Accounted ∧ freed' + w'.mem_size = freed + w.mem_size := by
  induction fuel generalizing round freed w with
  | zero => cases hrun
  | succ fuel ih =>
    by_cases hstop : num_bytes ≤ freed
    · rw [evictReader_stop hstop] at hrun
      cases hrun
      exact ⟨hw, rfl⟩
    · by_cases hpos : 0 < w.mem_size
      · obtain ⟨bytes, w₁, hevicted, hstep⟩ :=
          evictReader_succ hw hpos rng round (hrng round) (Nat.lt_of_not_le hstop)
        have hfreed := hevicted.freed
        rw [hstep] at hrun
        split at hrun
        · cases hrun
          exact ⟨hevicted.accounted, by omega⟩
        · obtain ⟨hw', hrest⟩ := ih hevicted.accounted hrun
          exact ⟨hw', by omega⟩
      · rw [evictReader_zero (by omega) (by omega)] at hrun
        split at hrun
        · cases hrun
          exact ⟨hw, rfl⟩
        · exact ih hw hrun

/-- **A reader.** -/
theorem reader_ends_iff (hw : w.Accounted) (num_bytes : Nat) :
    (∀ rng, (∀ round, WriteHandle.Pick.Random (rng round)) → ReaderEnds rng num_bytes w) ↔
      ReaderGood num_bytes w := by
  constructor
  · intro hends
    by_contra hbad
    simp only [ReaderGood, not_or, Nat.not_le] at hbad
    obtain ⟨bound, hbound⟩ := hends _ fun _ => rowsFirst_random
    obtain ⟨freed, w', hrun, -⟩ := hbound bound (Nat.le_refl bound)
    rw [evictReader_forever hw (by omega) hbad.2.2] at hrun
    cases hrun
  · rintro (rfl | hbytes | hfew) rng hrng
    · exact evictReader_ends hw hrng (Nat.zero_le _) 0
    · exact evictReader_ends hw hrng (by omega) 0
    · exact evictReader_empties hw hrng hfew 0 0

end Reader

/-! ## Evictions -/

/-- What a `Packet::Evict` finds at the node it is for. -/
inductive Target where
  | node (s : Store)
  | reader (w : WriteHandle)

/-- What the generator gives, round by round. -/
structure Draws where
  node : Nat → Store.Draw
  reader : Nat → WriteHandle.Pick
  random : ∀ round, (reader round).Random

namespace Target

/-- A history leads to the content. -/
def Reached : Target → Prop
  | .node s => Domain.Reached s
  | .reader w => ReaderReached w

/-- Every index of a node is drawn again and again. -/
def Fair (draws : Draws) : Target → Prop
  | .node s => Domain.Fair draws.node s.state.length
  | .reader _ => True

/-- The loop ends, and then enough bytes have been freed or no key is filled. -/
def Ends {δ : Type} (down : List Nat → List Row → δ → Option δ) (draws : Draws) (num_bytes : Nat)
    (d : δ) : Target → Prop
  | .node s => NodeEnds down draws.node num_bytes s d
  | .reader w => ReaderEnds draws.reader num_bytes w

def Good (num_bytes : Nat) : Target → Prop
  | .node s => NodeGood num_bytes s
  | .reader w => ReaderGood num_bytes w

end Target

/-- **The loop of an eviction.** The targets of a packet can be chosen unless overflow is checked
    and the shares do not fit. For each target, with every content that a history leads to, the loop
    ends with enough bytes freed or no key left, whatever is drawn, exactly if the node has the
    bytes and counts rows in its first index, or counts none there and one round leaves no key; and
    for a reader, exactly if it has the bytes or its keys without rows go along with the others. -/
theorem eviction_ends_iff {δ : Type} {down : List Nat → List Row → δ → Option δ}
    (hdown : ∀ columns keys d, ∃ d', down columns keys d = some d') (d : δ) {t : Target}
    (ht : t.Reached) {num_bytes : Nat} (hbytes : num_bytes < 2 ^ 64) (checks : Bool)
    (node : Option Nat) (candidates : List (Nat × Nat)) :
    ((evictTargets checks node num_bytes candidates).isSome = true ↔
      ¬(checks = true ∧ node = none ∧ candidates ≠ [] ∧
        2 ^ 64 ≤ num_bytes + (chooseNodes candidates).length)) ∧
    ∀ targets, evictTargets checks node num_bytes candidates = some targets → ∀ p ∈ targets,
      ((∀ draws, t.Fair draws → t.Ends down draws p.2 d) ↔ t.Good p.2) := by
  refine ⟨evictTargets_isSome_iff node hbytes, fun targets _ p _ => ?_⟩
  cases t with
  | node s =>
    refine Iff.trans ?_ (node_ends_iff hdown (Reached.sound ht) p.2 d)
    constructor
    · intro h rng hrng
      exact h ⟨rng, fun _ => rowsFirst, fun _ => rowsFirst_random⟩ hrng
    · intro h draws hfair
      exact h draws.node hfair
  | reader w =>
    refine Iff.trans ?_ (reader_ends_iff (ReaderReached.accounted ht) p.2)
    constructor
    · intro h rng hrng
      exact h ⟨inTurn 0, rng, hrng⟩ trivial
    · intro h draws _
      exact h draws.reader draws.random

def oneRow : Store :=
  ⟨[⟨[0], (∅ : AssocMap Row Rows).insert [.int 5] [(⟨0, [.int 5]⟩, 1)], true, 1⟩], 1⟩

theorem oneRow_reached : Reached oneRow := by
  refine .fill (.new [([0], true)] (cons_ne_nil _ _)) 0 [.int 5] [[.int 5]] ?_ rfl
  intro ix hix r hr
  cases hix
  obtain rfl := mem_singleton.mp hr
  rfl

/-- A reader with a key that was filled without rows. -/
def noRows : WriteHandle := ⟨[0], (∅ : AssocMap Row (List Row)).insert [.int 5] [], 0⟩

theorem noRows_reached : ReaderReached noRows := .mark_filled (.new [0]) [.int 5] rfl

/-- The loop frees the forty bytes. -/
theorem oneRow_ends : (evictTargets true none 40 [(1, 50)]).isSome = true ∧
    NodeEnds (fun _ _ (d : Unit) => some d) (inTurn 0) 40 oneRow () := by
  have hdown : ∀ (columns : List Nat) (keys : List Row) (d : Unit), ∃ d', some d = some d' :=
    fun _ _ d => ⟨d, rfl⟩
  obtain ⟨hchosen, hends⟩ := eviction_ends_iff hdown () (t := .node oneRow) oneRow_reached
    (show 40 < 2 ^ 64 by decide) true none [(1, 50)]
  have hgood : NodeGood 40 oneRow := .inr (.inl ⟨rfl, by decide⟩)
  refine ⟨hchosen.mpr (by decide), ?_⟩
  exact (hends [(1, 40)] rfl (1, 40) (by simp)).mpr hgood
    ⟨inTurn 0, fun _ => rowsFirst, fun _ => rowsFirst_random⟩ (fair_inTurn 0 _)

/-- **Loops without end**: a node that is asked for more than it has, and a
    reader with a key but no rows. -/
theorem evictions_without_end :
    (Reached oneRow ∧ ∀ rng fuel,
      evictNode (fun _ _ (d : Unit) => some d) rng 1000 fuel 0 0 oneRow () = .error ()) ∧
    (ReaderReached noRows ∧ ∀ fuel,
      evictReader (fun _ => rowsFirst) 1 fuel 0 0 noRows = .error ()) := by
  refine ⟨⟨oneRow_reached, fun rng fuel => ?_⟩, noRows_reached, fun fuel => ?_⟩
  · exact evictNode_forever (fun _ _ d => ⟨d, rfl⟩) oneRow_reached.sound rfl (by decide) fuel 0 ()
  · have hmany : ¬FewEmpty noRows := by
      unfold FewEmpty
      decide
    exact evictReader_forever noRows_reached.accounted (by decide) hmany fuel 0

/-- **The bytes that are reported are those that are gone**, for every content that a history leads
    to and whatever is drawn: also where indices share rows. -/
theorem evictions_report_freed {δ : Type} {down : List Nat → List Row → δ → Option δ}
    (hdown : ∀ columns keys d, ∃ d', down columns keys d = some d') (draws : Draws)
    (num_bytes fuel : Nat) :
    (∀ s d freed s' d', Reached s →
      evictNode down draws.node num_bytes fuel 0 0 s d = .ok (freed, s', d') →
      freed + s'.bytes = s.bytes) ∧
    ∀ w freed w', ReaderReached w →
      evictReader draws.reader num_bytes fuel 0 0 w = .ok (freed, w') →
      freed + total bytesOf w'.rows = total bytesOf w.rows := by
  constructor
  · intro s d freed s' d' hs hrun
    rw [evictNode_freed hdown hs.sound hrun, Nat.zero_add]
  · intro w freed w' hw hrun
    obtain ⟨hw', hfreed⟩ := evictReader_freed hw.accounted draws.random hrun
    rw [← hw', hfreed, Nat.zero_add]
    exact hw.accounted

theorem oneRow_report : ∃ freed s', evictNode (fun _ _ (d : Unit) => some d) (inTurn 0) 40 2 0 0
    oneRow () = .ok (freed, s', ()) ∧ freed + s'.bytes = oneRow.bytes := by
  refine ⟨_, _, rfl, ?_⟩
  exact (evictions_report_freed (fun _ _ d => ⟨d, rfl⟩)
    ⟨inTurn 0, fun _ => rowsFirst, fun _ => rowsFirst_random⟩ 40 2).1 _ () _ _ () oneRow_reached rfl

end Server.Domain

end Noria

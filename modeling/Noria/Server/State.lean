import Noria.Framework.AssocMap
import Noria.Framework.Loop
import Noria.Sqlite.Record

/-! # Materialized state of the server

  `SingleState` is one index over the rows of a node, and `MemoryState` has any number of them
  (`dataflow/src/state`). An index may be partial: the keys it has no entry for are holes, which a
  lookup reports as missing and which records do not fill.

  The bags of equal rows that the source keeps for a key are lists here, in the order in which the
  rows came; the results read them as multisets. The six key types of `KeyedState`, for one to six
  columns, are one: a list of values. Byte counts are left out.

  `Holds` says what an index knows about a bag of rows, and the lemmas
  about `insert_row` and `remove_row` say how it moves with the bag.
-/

namespace Noria.Server

open Bag List
open Noria.Sqlite (Record Records)

/-! ## One index -/

abbrev Tag := UInt32

/-- The lengths of compound keys: `KeyType::from` and the conversion of
    columns to a `KeyedState` panic on all others. -/
def keyLength (n : Nat) : Bool := 1 ≤ n && n ≤ 6

inductive LookupResult where
  | some (rows : List Row)
  | missing

structure SingleState where
  key : List Nat
  state : AssocMap Row (List Row)
  /-- The source's `partial`. -/
  partialIndex : Bool
  rows : Nat

/-- Taking a row out of a bag. The only row is taken without a look at it. -/
def do_remove (rs : List Row) (r : Row) : Option Row × List Row :=
  match rs with
  | [left] => (some left, [])
  | rs =>
    match rs.findIdx? (· == r) with
    | some pos => (rs[pos]?, rs.eraseIdx pos)
    | none => (none, rs)

namespace SingleState

def new (columns : List Nat) (isPartial : Bool) : Option SingleState :=
  if keyLength columns.length then some ⟨columns, ∅, isPartial, 0⟩ else none

/-- Inserts the given record, or returns false if a hole was encountered
    (and the record hence not inserted). -/
def insert_row (s : SingleState) (r : Row) : Option (Bool × SingleState) := do
  let key ← r.cols s.key
  match s.state.get? key with
  | some rs =>
    some (true, { s with state := s.state.insert key (rs ++ [r]), rows := s.rows + 1 })
  | none =>
    if s.partialIndex then some (false, s)
    else some (true, { s with state := s.state.insert key [r], rows := s.rows + 1 })

/-- Attempt to remove row `r`: the row removed, and whether its key was there. -/
def remove_row (s : SingleState) (r : Row) : Option (Option Row × Bool × SingleState) := do
  let key ← r.cols s.key
  match s.state.get? key with
  | none => some (none, false, s)
  | some rs =>
    let (rm, left) := do_remove rs r
    if rm.isSome then
      -- `checked_sub(1).unwrap()`
      if s.rows = 0 then none
      else some (rm, true, { s with state := s.state.insert key left, rows := s.rows - 1 })
    else some (rm, true, { s with state := s.state.insert key left })

/-- The key proper of a list of values: as many as the index has columns. -/
def keyOf (s : SingleState) (key : List DataType) : Option Row :=
  if key.length < s.key.length then none else some (key.take s.key.length)

def mark_filled (s : SingleState) (key : List DataType) : Option SingleState := do
  let key ← s.keyOf key
  match s.state.get? key with
  | some _ => none
  | none => some { s with state := s.state.insert key [] }

def mark_hole (s : SingleState) (key : List DataType) : Option SingleState := do
  let key ← s.keyOf key
  match s.state.get? key with
  | some _ => some { s with state := s.state.erase key }
  | none => none

def evict_keys (s : SingleState) (keys : List (List DataType)) : Option SingleState :=
  keys.foldlM (fun s key => do
    let key ← s.keyOf key
    some { s with state := s.state.erase key }) s

/-- A key of another length than the index has columns is `unreachable!`. -/
def lookup (s : SingleState) (key : List DataType) : Option LookupResult :=
  if key.length = s.key.length then
    match s.state.get? key with
    | some rs => some (.some rs)
    | none => if s.partialIndex then some .missing else some (.some [])
  else none

end SingleState

/-! ## All indices -/

structure MemoryState where
  state : List SingleState
  by_tag : AssocMap Tag Nat

namespace MemoryState

def default : MemoryState := ⟨[], ∅⟩

def state_for (st : MemoryState) (cols : List Nat) : Option Nat :=
  st.state.findIdx? fun s => s.key == cols

/-- What a new index starts with: one that is not partial gets the rows of
    the first index, which has to have them all. -/
def construct (tags : Option (List Tag)) (state : List SingleState) (new : SingleState) :
    Option SingleState :=
  match tags, state with
  | none, old :: _ =>
    if old.partialIndex then none
    else (old.state.entries.flatMap Prod.snd).foldlM
      (fun s r => (s.insert_row r).map Prod.snd) new
  | _, _ => some new

/-- Add an index, or tags to the index there is. -/
def add_key (st : MemoryState) (columns : List Nat) (tags : Option (List Tag)) :
    Option MemoryState :=
  let i := (st.state_for columns).getD st.state.length
  let by_tag := (tags.getD []).foldl (fun m tag => m.insert tag i) st.by_tag
  match st.state_for columns with
  | some _ => some { st with by_tag }
  | none => do
    let new ← SingleState.new columns tags.isSome
    let new ← construct tags st.state new
    some ⟨st.state ++ [new], by_tag⟩

def keys (st : MemoryState) : List (List Nat) := st.state.map SingleState.key

def is_partial (st : MemoryState) : Bool := st.state.any SingleState.partialIndex

/-- Run an operation on every index; the result is whether one of them was hit. -/
def onAll (f : SingleState → Option (Bool × SingleState)) :
    List SingleState → Option (Bool × List SingleState)
  | [] => some (false, [])
  | s :: rest => do
    let (hit, s) ← f s
    let (hits, rest) ← onAll f rest
    some (hit || hits, s :: rest)

/-- A tagged row goes to the index of its tag, any other to all of them. -/
def insert (st : MemoryState) (r : Row) (partial_tag : Option Tag) :
    Option (Bool × MemoryState) :=
  match partial_tag with
  | some tag =>
    match st.by_tag.get? tag with
    | none => some (true, st)
    | some i => do
      let s ← st.state[i]?
      let (hit, s) ← s.insert_row r
      some (hit, { st with state := st.state.set i s })
  | none => do
    let (hit, state) ← onAll (·.insert_row r) st.state
    some (hit, { st with state })

def remove (st : MemoryState) (r : Row) : Option (Bool × MemoryState) := do
  let (hit, state) ← onAll (fun s => (s.remove_row r).map Prod.snd) st.state
  some (hit, { st with state })

def process_record (st : MemoryState) (partial_tag : Option Tag) :
    Record → Option (Bool × MemoryState)
  | .positive r => st.insert r partial_tag
  | .negative r => st.remove r

def retainHits (partial_tag : Option Tag) :
    MemoryState → Records → Option (Records × MemoryState)
  | st, [] => some ([], st)
  | st, r :: rs => do
    let (hit, st) ← st.process_record partial_tag r
    let (kept, st) ← retainHits partial_tag st rs
    some (if hit then r :: kept else kept, st)

/-- Inserts or removes each record; records that miss all indices of a
    partial state are removed from the batch. -/
def process_records (st : MemoryState) (records : Records) (partial_tag : Option Tag) :
    Option (Records × MemoryState) :=
  if st.is_partial then retainHits partial_tag st records
  else do
    let (_, st) ← retainHits none st records
    some (records, st)

def mark_filled (st : MemoryState) (key : List DataType) (tag : Tag) : Option MemoryState := do
  let i ← st.by_tag.get? tag
  let s ← st.state[i]?
  let s ← s.mark_filled key
  some { st with state := st.state.set i s }

def mark_hole (st : MemoryState) (key : List DataType) (tag : Tag) : Option MemoryState := do
  let i ← st.by_tag.get? tag
  let s ← st.state[i]?
  let s ← s.mark_hole key
  some { st with state := st.state.set i s }

/-- An eviction for a tag that is not known yet does nothing. -/
def evict_keys (st : MemoryState) (tag : Tag) (keys : List (List DataType)) :
    Option MemoryState :=
  match st.by_tag.get? tag with
  | none => some st
  | some i => do
    let s ← st.state[i]?
    let s ← s.evict_keys keys
    some { st with state := st.state.set i s }

def lookup (st : MemoryState) (columns : List Nat) (key : List DataType) :
    Option LookupResult := do
  let i ← st.state_for columns
  let s ← st.state[i]?
  s.lookup key

end MemoryState

/-! ## What an index knows -/

variable {cols columns : List Nat} {isPartial : Bool} {st st' : MemoryState} {m m' : Multiset VRow}
  {s s' : SingleState} {key k r : Row} {records : Records} {rs : List Row}

/-- The rows of a bag with a given key. -/
def rowsOf (cols : List Nat) (k : VRow) (m : Multiset VRow) : Multiset VRow :=
  m.filter fun v => VRow.proj cols v = k

namespace SingleState

def filled (s : SingleState) (k : VRow) : Bool := s.state.entries.any fun e => Row.val e.1 = k

/-- Does a row get into the index? -/
def hits (s : SingleState) (v : VRow) : Bool := !s.partialIndex || s.filled (VRow.proj s.key v)

/-- The index against the bag of all rows: an entry has all rows of its
    key, and only a partial index has keys without an entry. The counter
    never undercounts, so that it can always be decremented. -/
structure Holds (s : SingleState) (m : Multiset VRow) : Prop where
  found : ∀ k rs, s.state.get? k = some rs →
    (rs.map Row.val : Multiset VRow) = rowsOf s.key (Row.val k) m
  absent : s.partialIndex = false → ∀ k, s.state.get? k = none →
    rowsOf s.key (Row.val k) m = 0
  counted : s.state.total List.length ≤ s.rows

/-- What records leave as it is: the columns of an index, and which keys of
    a partial index are filled. -/
structure Alike (s s' : SingleState) : Prop where
  key : s'.key = s.key
  partialIndex : s'.partialIndex = s.partialIndex
  filled : s.partialIndex = true → ∀ k, s'.filled k = s.filled k

theorem Alike.refl (s : SingleState) : s.Alike s := ⟨rfl, rfl, fun _ _ => rfl⟩

theorem Alike.trans {t u : SingleState} (h : s.Alike t) (h' : t.Alike u) : s.Alike u where
  key := h'.key.trans h.key
  partialIndex := h'.partialIndex.trans h.partialIndex
  filled hp k := (h'.filled (h.partialIndex.trans hp) k).trans (h.filled hp k)

theorem Alike.hits (h : s.Alike s') (v : VRow) : s'.hits v = s.hits v := by
  unfold SingleState.hits
  rw [h.key, h.partialIndex]
  cases hp : s.partialIndex with
  | false => rfl
  | true => rw [h.filled hp]

theorem filled_val (s : SingleState) (k : Row) :
    s.filled (Row.val k) = (s.state.get? k).isSome := by
  rw [Bool.eq_iff_iff, AssocMap.get?, Option.isSome_map, find?_isSome]
  unfold filled
  simp only [any_eq_true, decide_eq_true_eq, Row.beq_iff_val]

theorem filled_iff (s : SingleState) (k : VRow) :
    s.filled k = true ↔ ∃ key, Row.val key = k ∧ (s.state.get? key).isSome = true := by
  constructor
  · intro h
    simp only [filled, any_eq_true, decide_eq_true_eq] at h
    obtain ⟨e, he, rfl⟩ := h
    exact ⟨e.1, rfl, by rw [s.state.get?_of_mem he]; rfl⟩
  · rintro ⟨key, rfl, h⟩
    rwa [filled_val]

theorem filled_congr (h : ∀ k, (s'.state.get? k).isSome = (s.state.get? k).isSome) (k : VRow) :
    s'.filled k = s.filled k := by
  rw [Bool.eq_iff_iff, filled_iff, filled_iff]
  simp only [h]

/-- Replacing the entry of a key that is there fills nothing new. -/
theorem isSome_get?_insert {m : AssocMap Row (List Row)} (h : m.get? key = some rs) (rs' : List Row)
    (k : Row) : ((m.insert key rs').get? k).isSome = (m.get? k).isSome := by
  rw [AssocMap.get?_insert]
  split
  · rename_i hk
    rw [← m.get?_congr hk, h]
    rfl
  · rfl

theorem rowsOf_cons_self (h : r.cols cols = some key) (hk : (key == k) = true) (m : Multiset VRow) :
    rowsOf cols (Row.val k) (Row.val r ::ₘ m) = Row.val r ::ₘ rowsOf cols (Row.val k) m := by
  refine Multiset.filter_cons_of_pos _ ?_
  rw [← Row.val_cols h]
  exact (Row.beq_iff_val key k).mp hk

theorem rowsOf_cons_other (h : r.cols cols = some key) (hk : (key == k) = false)
    (m : Multiset VRow) :
    rowsOf cols (Row.val k) (Row.val r ::ₘ m) = rowsOf cols (Row.val k) m := by
  refine Multiset.filter_cons_of_neg _ ?_
  rw [← Row.val_cols h]
  exact fun heq => Bool.eq_false_iff.mp hk ((Row.beq_iff_val key k).mpr heq)

theorem Holds.replace (hs : s.Holds m) {n : Nat}
    (hrs : (rs.map Row.val : Multiset VRow) = rowsOf s.key (Row.val key) m')
    (hother : ∀ k, (key == k) = false → rowsOf s.key (Row.val k) m' = rowsOf s.key (Row.val k) m)
    (hn : (s.state.insert key rs).total List.length ≤ n) :
    ({ s with state := s.state.insert key rs, rows := n } : SingleState).Holds m' := by
  refine ⟨fun k rs' hk => ?_, fun hp k hk => ?_, hn⟩
  · simp only [AssocMap.get?_insert] at hk
    split at hk
    · rename_i hkk
      cases hk
      rw [hrs, (Row.beq_iff_val key k).mp hkk]
    · rename_i hkk
      exact (hs.found k rs' hk).trans (hother k (Bool.eq_false_iff.mpr hkk)).symm
  · simp only [AssocMap.get?_insert] at hk
    split at hk
    · cases hk
    · rename_i hkk
      exact (hother k (Bool.eq_false_iff.mpr hkk)).trans (hs.absent hp k hk)

/-- The bag changes in the rows of a hole, where nobody looks. -/
theorem Holds.hole (hs : s.Holds m) (hp : s.partialIndex = true) (hg : s.state.get? key = none)
    (hother : ∀ k, (key == k) = false → rowsOf s.key (Row.val k) m' = rowsOf s.key (Row.val k) m) :
    s.Holds m' := by
  refine ⟨fun k rs hk => ?_, fun hp' => ?_, hs.counted⟩
  · have hkk : (key == k) = false := by
      rw [Bool.eq_false_iff]
      intro hkk
      rw [← s.state.get?_congr hkk, hg] at hk
      cases hk
    exact (hs.found k rs hk).trans (hother k hkk).symm
  · rw [hp] at hp'
    cases hp'

/-- Whether a row gets in, in terms of the entry of its key. -/
theorem hits_of_cols (h : r.cols s.key = some key) :
    s.hits (Row.val r) = (!s.partialIndex || (s.state.get? key).isSome) := by
  rw [hits, ← Row.val_cols h, filled_val]

theorem insert_row_holds (hs : s.Holds m) (hr : ∀ c ∈ s.key, c < r.length) :
    ∃ s', s.insert_row r = some (s.hits (Row.val r), s') ∧ s'.Holds (Row.val r ::ₘ m) ∧
      s.Alike s' := by
  obtain ⟨key, hkey⟩ := Row.cols_isSome hr
  have hother := fun k hk => rowsOf_cons_other (k := k) hkey hk m
  have hself := rowsOf_cons_self hkey BEq.rfl m
  unfold insert_row
  rw [hkey, hits_of_cols hkey]
  cases hg : s.state.get? key with
  | some rs =>
    have htotal := AssocMap.total_insert_of_some List.length hg (rs ++ [r])
    rw [length_append, length_singleton] at htotal
    have hcount := hs.counted
    refine ⟨{ s with state := s.state.insert key (rs ++ [r]), rows := s.rows + 1 }, by simp [hg],
      hs.replace ?_ hother (by omega), rfl, rfl, fun _ => filled_congr (isSome_get?_insert hg _)⟩
    rw [hself, ← hs.found key rs hg, map_append, Multiset.cons_coe, Multiset.coe_eq_coe]
    exact perm_append_singleton _ _
  | none =>
    cases hp : s.partialIndex with
    | true => exact ⟨s, by simp [hg], hs.hole hp hg hother, .refl s⟩
    | false =>
      have htotal := AssocMap.total_insert_of_none List.length hg [r]
      rw [length_singleton] at htotal
      have hcount := hs.counted
      refine ⟨{ s with state := s.state.insert key [r], rows := s.rows + 1 }, by simp [hg, hp],
        hs.replace ?_ hother (by omega), rfl, rfl, fun hp' => ?_⟩
      · rw [hself, hs.absent hp key hg]
        rfl
      · rw [hp] at hp'
        cases hp'

theorem do_remove_of_mem (h : (rs.map Row.val : Multiset VRow) = Row.val r ::ₘ m) :
    ∃ left rs', do_remove rs r = (some left, rs') ∧ (rs'.map Row.val : Multiset VRow) = m ∧
      rs'.length + 1 = rs.length := by
  unfold do_remove
  split
  · rename_i left
    refine ⟨left, [], rfl, ?_, rfl⟩
    have hcard := congrArg Multiset.card h
    simp only [map_cons, map_nil, Multiset.coe_card, length_singleton,
      Multiset.card_cons] at hcard
    exact (Multiset.card_eq_zero.mp (by omega)).symm
  · have hmem : Row.val r ∈ rs.map Row.val := by
      rw [← Multiset.mem_coe, h]
      exact Multiset.mem_cons_self _ _
    obtain ⟨r₀, hr₀, hv⟩ := mem_map.mp hmem
    cases hf : rs.findIdx? (· == r) with
    | none =>
      rw [findIdx?_eq_none_iff] at hf
      have hne := hf r₀ hr₀
      rw [(Row.beq_iff_val r₀ r).mpr hv] at hne
      cases hne
    | some pos =>
      obtain ⟨hlt, heq, -⟩ := findIdx?_eq_some_iff_getElem.mp hf
      rw [Row.beq_iff_val] at heq
      have hp := (getElem_cons_eraseIdx_perm hlt).map Row.val
      rw [map_cons, heq] at hp
      refine ⟨rs[pos], rs.eraseIdx pos, by simp [getElem?_eq_getElem hlt], ?_, ?_⟩
      · rw [← Multiset.coe_eq_coe, ← Multiset.cons_coe, h] at hp
        exact (Multiset.cons_inj_right _).mp hp
      · rw [length_eraseIdx_of_lt hlt]
        omega

/-- A row that is there leaves the index, if its key is there. -/
theorem remove_row_holds (hs : s.Holds (Row.val r ::ₘ m)) (hr : ∀ c ∈ s.key, c < r.length) :
    ∃ rm s', s.remove_row r = some (rm, s.hits (Row.val r), s') ∧ s'.Holds m ∧ s.Alike s' := by
  obtain ⟨key, hkey⟩ := Row.cols_isSome hr
  have hother := fun k hk => (rowsOf_cons_other (k := k) hkey hk m).symm
  have hself := rowsOf_cons_self hkey BEq.rfl m
  unfold remove_row
  rw [hkey, hits_of_cols hkey]
  cases hg : s.state.get? key with
  | none =>
    -- an index that has all keys would have an entry with `r` in it
    have hp : s.partialIndex = true := by
      cases hp : s.partialIndex with
      | true => rfl
      | false =>
        have hnone := hs.absent hp key hg
        exact absurd (hself.symm.trans hnone) Multiset.cons_ne_zero
    exact ⟨none, s, by simp [hg, hp], hs.hole hp hg hother, .refl s⟩
  | some rs =>
    obtain ⟨left, rs', hrm, hleft, hlen⟩ := do_remove_of_mem ((hs.found key rs hg).trans hself)
    have htotal := AssocMap.total_insert_of_some List.length hg rs'
    have hcount := hs.counted
    have hrows : s.rows ≠ 0 := by omega
    refine ⟨some left, { s with state := s.state.insert key rs', rows := s.rows - 1 },
      by simp [hg, hrm, hrows], hs.replace hleft hother (by omega), rfl, rfl,
      fun _ => filled_congr (isSome_get?_insert hg _)⟩

/-- All rows of an index. -/
def content (s : SingleState) : Multiset VRow :=
  ((s.state.entries.flatMap Prod.snd).map Row.val : List VRow)

theorem Holds.content_eq (hs : s.Holds m) (hp : s.partialIndex = false)
    (hm : ∀ v ∈ m, ∃ k, Row.val k = VRow.proj s.key v) : s.content = m := by
  have hentry : ∀ e ∈ s.state.entries, ∀ r ∈ e.2,
      VRow.proj s.key (Row.val r) = Row.val e.1 := by
    intro e he r hr
    have hmem : Row.val r ∈ rowsOf s.key (Row.val e.1) m := by
      rw [← hs.found e.1 e.2 (s.state.get?_of_mem he)]
      exact mem_map.mpr ⟨r, hr, rfl⟩
    exact (Multiset.mem_filter.mp hmem).2
  have hmem : ∀ {l : List (Row × List Row)}, l ⊆ s.state.entries → ∀ {v},
      v ∈ (l.flatMap Prod.snd).map Row.val → ∃ e ∈ l, Row.val e.1 = VRow.proj s.key v := by
    intro l hl v hv
    obtain ⟨r, hr, rfl⟩ := mem_map.mp hv
    obtain ⟨e, he, hr⟩ := mem_flatMap.mp hr
    exact ⟨e, he, (hentry e (hl he) r hr).symm⟩
  ext v
  by_cases hv : ∃ k rs, Row.val k = VRow.proj s.key v ∧ s.state.get? k = some rs
  · -- The other entries have no row of this key.
    obtain ⟨k, rs, hk, hget⟩ := hv
    obtain ⟨k₀, rest, -, hrest, hperm, -⟩ := s.state.exists_split hget
    have hnot : v ∉ (rest.flatMap Prod.snd).map Row.val := by
      intro hv
      obtain ⟨e, he, heq⟩ := hmem (fun e he => hperm.mem_iff.mpr (mem_cons_of_mem _ he)) hv
      have hne := hrest e he
      rw [(Row.beq_iff_val e.1 k).mpr (heq.trans hk.symm)] at hne
      cases hne
    have hcontent : s.content =
        (rs.map Row.val : List VRow) + ((rest.flatMap Prod.snd).map Row.val : List VRow) := by
      rw [Multiset.coe_add, ← map_append, ← flatMap_cons (f := Prod.snd) (x := (k₀, rs))]
      exact Multiset.coe_eq_coe.mpr ((hperm.flatMap_right Prod.snd).map Row.val)
    have hzero : Multiset.count v ((rest.flatMap Prod.snd).map Row.val : List VRow) = 0 :=
      Multiset.count_eq_zero.mpr hnot
    rw [hcontent, Multiset.count_add, hzero, Nat.add_zero, hs.found k rs hget]
    exact Multiset.count_filter_of_pos hk.symm
  · rw [Multiset.count_eq_zero.mpr, Multiset.count_eq_zero.mpr]
    · intro hvm
      obtain ⟨k, hk⟩ := hm v hvm
      have hnone : s.state.get? k = none := by
        rw [Option.eq_none_iff_forall_ne_some]
        exact fun rs hget => hv ⟨k, rs, hk, hget⟩
      have hzero := hs.absent hp k hnone
      rw [rowsOf, Multiset.filter_eq_nil] at hzero
      exact hzero v hvm hk.symm
    · intro hv'
      obtain ⟨e, he, heq⟩ := hmem (fun _ he => he) hv'
      exact hv ⟨e.1, e.2, heq, s.state.get?_of_mem he⟩

theorem foldlM_insert_row (hs : s.Holds m) {rows : List Row}
    (hrows : ∀ r ∈ rows, ∀ c ∈ s.key, c < r.length) :
    ∃ s', rows.foldlM (fun s r => (s.insert_row r).map Prod.snd) s = some s' ∧
      s'.Holds ((rows.map Row.val : List VRow) + m) ∧ s.Alike s' := by
  induction rows generalizing s m with
  | nil => exact ⟨s, rfl, by simpa using hs, .refl s⟩
  | cons r rows ih =>
    obtain ⟨s₁, hs₁, hholds₁, halike₁⟩ := insert_row_holds hs (hrows r mem_cons_self)
    obtain ⟨s', hs', hholds', halike'⟩ := ih hholds₁
      (by rw [halike₁.key]; exact (forall_mem_cons.mp hrows).2)
    refine ⟨s', ?_, ?_, halike₁.trans halike'⟩
    · rw [foldlM_cons, hs₁]
      exact hs'
    · rwa [Multiset.add_cons, ← Multiset.cons_add, Multiset.cons_coe] at hholds'

end SingleState

/-! ## What all indices know -/

namespace MemoryState

def Holds (st : MemoryState) (m : Multiset VRow) : Prop := ∀ s ∈ st.state, s.Holds m

/-- Does a row get into one of the indices? -/
def hits (st : MemoryState) (v : VRow) : Bool := st.state.any fun s => s.hits v

/-- Do the rows of the records have all columns that are indexed? -/
def Fits (st : MemoryState) (records : Records) : Prop :=
  ∀ r ∈ records, ∀ s ∈ st.state, ∀ c ∈ s.key, c < r.row.length

instance (st : MemoryState) (records : Records) : Decidable (st.Fits records) :=
  inferInstanceAs (Decidable (∀ r ∈ records, ∀ s ∈ st.state, ∀ c ∈ s.key, c < r.row.length))

structure Alike (st st' : MemoryState) : Prop where
  state : List.Forall₂ SingleState.Alike st.state st'.state
  by_tag : st'.by_tag = st.by_tag

theorem Alike.refl (st : MemoryState) : st.Alike st :=
  ⟨forall₂_same.mpr fun s _ => SingleState.Alike.refl s, rfl⟩

theorem Alike.trans {st₁ st₂ : MemoryState} (h : st.Alike st₁) (h' : st₁.Alike st₂) :
    st.Alike st₂ := by
  refine ⟨?_, h'.by_tag.trans h.by_tag⟩
  have hstate := h.state
  have hstate' := h'.state
  generalize st.state = l at hstate
  generalize st₁.state = l₁ at hstate hstate'
  generalize st₂.state = l₂ at hstate'
  induction hstate generalizing l₂ with
  | nil =>
    cases hstate'
    exact .nil
  | cons hs _ ih =>
    cases hstate' with
    | cons hs' hrest => exact .cons (hs.trans hs') (ih _ hrest)

theorem Alike.keys (h : st.Alike st') : st'.keys = st.keys :=
  map_eq_of_forall₂ (h.state.imp fun _ _ hs => hs.key)

theorem Alike.hits (h : st.Alike st') (v : VRow) : st'.hits v = st.hits v := by
  have hmap : st'.state.map (·.hits v) = st.state.map (·.hits v) :=
    map_eq_of_forall₂ (h.state.imp fun _ _ hs => hs.hits v)
  show st'.state.any (id ∘ (·.hits v)) = st.state.any (id ∘ (·.hits v))
  rw [← any_map, ← any_map, hmap]

theorem Alike.exists_of_mem (h : st.Alike st') (hs' : s' ∈ st'.state) :
    ∃ s ∈ st.state, s.Alike s' := by
  obtain ⟨i, hi, rfl⟩ := mem_iff_getElem.mp hs'
  have hlt : i < st.state.length := h.state.length_eq ▸ hi
  exact ⟨st.state[i], getElem_mem hlt, h.state.get hlt hi⟩

theorem Alike.fits (h : st.Alike st') (hfits : st.Fits records) : st'.Fits records := by
  intro r hr s' hs'
  obtain ⟨s, hs, halike⟩ := h.exists_of_mem hs'
  rw [halike.key]
  exact hfits r hr s hs

theorem onAll_holds {f : SingleState → Option (Bool × SingleState)} {v : VRow}
    {l : List SingleState}
    (h : ∀ s ∈ l, ∃ s', f s = some (s.hits v, s') ∧ s'.Holds m' ∧ s.Alike s') :
    ∃ l', onAll f l = some (l.any fun s => s.hits v, l') ∧ (∀ s' ∈ l', s'.Holds m') ∧
      List.Forall₂ SingleState.Alike l l' := by
  induction l with
  | nil => exact ⟨[], rfl, by simp, .nil⟩
  | cons s l ih =>
    obtain ⟨s', hs', hholds, halike⟩ := h s mem_cons_self
    obtain ⟨l', hl', hholds', halike'⟩ := ih (forall_mem_cons.mp h).2
    refine ⟨s' :: l', ?_, ?_, .cons halike halike'⟩
    · simp [onAll, hs', hl']
    · exact forall_mem_cons.mpr ⟨hholds, hholds'⟩

/-- **What an untagged record does**: every index follows the change, and
    the record is kept if it got into one of them. -/
theorem process_record_holds (hst : st.Holds m) {record : Record} (hfits : st.Fits [record])
    (happ : Applies m [record.change] m') :
    ∃ st', st.process_record none record = some (st.hits (Row.val record.row), st') ∧
      st'.Holds m' ∧ st.Alike st' := by
  have hfits := hfits record mem_cons_self
  cases record with
  | positive r =>
    rw [Record.change_positive, Applies.ins_iff, Applies.nil_iff] at happ
    subst happ
    obtain ⟨l, hl, hholds, halike⟩ := onAll_holds fun s hs =>
      SingleState.insert_row_holds (r := r) (hst s hs) (hfits s hs)
    refine ⟨{ st with state := l }, ?_, hholds, halike, rfl⟩
    simp [process_record, insert, hl, hits]
  | negative r =>
    rw [Record.change_negative, Applies.del_iff] at happ
    obtain ⟨m₀, rfl, happ⟩ := happ
    rw [Applies.nil_iff] at happ
    subst happ
    have hremove : ∀ s ∈ st.state, ∃ s', (s.remove_row r).map Prod.snd =
        some (s.hits (Row.val r), s') ∧ s'.Holds m₀ ∧ s.Alike s' := by
      intro s hs
      obtain ⟨rm, s', hs', hrest⟩ := SingleState.remove_row_holds (hst s hs) (hfits s hs)
      exact ⟨s', by rw [hs']; rfl, hrest⟩
    obtain ⟨l, hl, hholds, halike⟩ := onAll_holds hremove
    refine ⟨{ st with state := l }, ?_, hholds, halike, rfl⟩
    simp [process_record, remove, hl, hits]

theorem retainHits_holds (hst : st.Holds m) (hfits : st.Fits records)
    (happ : Applies m (Records.changes records) m') :
    ∃ st', retainHits none st records =
        some (records.filter fun r => st.hits (Row.val r.row), st') ∧
      st'.Holds m' ∧ st.Alike st' := by
  induction records generalizing st m with
  | nil =>
    rw [Records.changes_nil, Applies.nil_iff] at happ
    subst happ
    exact ⟨st, rfl, hst, .refl st⟩
  | cons r rs ih =>
    rw [Records.changes_cons, ← singleton_append, Applies.append_iff] at happ
    obtain ⟨m₁, hfirst, hrest⟩ := happ
    obtain ⟨st₁, hst₁, hholds₁, halike₁⟩ := process_record_holds hst
      (fun r' hr' => hfits r' (by simp_all)) hfirst
    obtain ⟨st', hst', hholds', halike'⟩ := ih hholds₁
      (halike₁.fits (forall_mem_cons.mp hfits).2) hrest
    refine ⟨st', ?_, hholds', halike₁.trans halike'⟩
    simp only [retainHits, hst₁, hst', Option.bind_eq_bind, Option.bind_some,
      filter_cons, halike₁.hits]

/-! ### Indices as they are built -/

/-- Indices without any entry, all partial or all complete, and pairwise on different columns. -/
structure Unfilled (isPartial : Bool) (st : MemoryState) : Prop where
  all_indices : ∀ s ∈ st.state, s.partialIndex = isPartial
  no_entry : ∀ s ∈ st.state, s.state = ∅
  distinct : st.keys.Nodup
  lengths : ∀ key ∈ st.keys, keyLength key.length = true

theorem unfilled_default (isPartial : Bool) : default.Unfilled isPartial :=
  ⟨(by simp [default]), (by simp [default]), nodup_nil, (by simp [keys, default])⟩

theorem unfilled_add_key {tags : Option (List Tag)} (h : st.Unfilled isPartial)
    (hadd : st.add_key columns tags = some st') (htags : tags.isSome = isPartial) :
    st'.Unfilled isPartial ∧ ∀ key, key ∈ st'.keys ↔ key ∈ st.keys ∨ key = columns := by
  unfold add_key at hadd
  split at hadd
  · rename_i i hi
    cases hadd
    obtain ⟨hlt, hkey, -⟩ := findIdx?_eq_some_iff_getElem.mp hi
    refine ⟨⟨h.all_indices, h.no_entry, h.distinct, h.lengths⟩, fun key => ⟨.inl, ?_⟩⟩
    rintro (hold | rfl)
    · exact hold
    · exact mem_map.mpr ⟨st.state[i], getElem_mem hlt, beq_iff_eq.mp hkey⟩
  · rename_i hnone
    simp only [Option.bind_eq_bind, Option.bind_eq_some_iff] at hadd
    obtain ⟨new, hnew, new', hnew', hadd⟩ := hadd
    cases hadd
    -- the first index has no rows to fill the new one with
    have hsame : new' = new := by
      unfold construct at hnew'
      split at hnew'
      · rename_i hst
        split at hnew'
        · cases hnew'
        · rw [h.no_entry _ (by rw [hst]; exact mem_cons_self)] at hnew'
          cases hnew'
          rfl
      · cases hnew'
        rfl
    subst hsame
    unfold SingleState.new at hnew
    split at hnew
    · rename_i hlength
      cases hnew
      refine ⟨⟨?_, ?_, ?_, ?_⟩, fun key => ?_⟩
      · simpa [or_imp, forall_and, htags] using h.all_indices
      · simpa [or_imp, forall_and] using h.no_entry
      · show (List.map SingleState.key _).Nodup
        rw [map_append, nodup_append]
        refine ⟨h.distinct, by simp, ?_⟩
        intro key hkey key' hkey' heq
        obtain ⟨s, hs, rfl⟩ := mem_map.mp hkey
        simp only [map_cons, map_nil, mem_singleton] at hkey'
        unfold state_for at hnone
        rw [findIdx?_eq_none_iff] at hnone
        have hne := hnone s hs
        rw [heq, hkey'] at hne
        simp at hne
      · intro key hkey
        simp only [keys, map_append, map_cons, map_nil, mem_append,
          mem_singleton] at hkey
        rcases hkey with hkey | rfl
        · exact h.lengths key hkey
        · exact hlength
      · simp [keys]
    · cases hnew

theorem Unfilled.holds (h : st.Unfilled isPartial) (hm : isPartial = true ∨ m = 0) :
    st.Holds m := by
  refine fun s hs => ⟨?_, fun hp k _ => ?_, ?_⟩
  · rw [h.no_entry s hs]
    intro k rs hk
    cases hk
  · rcases hm with rfl | rfl
    · rw [h.all_indices s hs] at hp
      cases hp
    · rfl
  · rw [h.no_entry s hs]
    exact Nat.zero_le _

/-! ### Batches -/

/-- **An untagged batch**: every index follows the changes. A partial state
    keeps the records that got into one of its indices. -/
theorem process_records_holds (hst : st.Holds m) (hfits : st.Fits records)
    (happ : Applies m (Records.changes records) m') :
    ∃ st', st.process_records records none =
        some (if st.is_partial then records.filter fun r => st.hits (Row.val r.row) else records,
          st') ∧ st'.Holds m' ∧ st.Alike st' := by
  obtain ⟨st', hst', hrest⟩ := retainHits_holds hst hfits happ
  refine ⟨st', ?_, hrest⟩
  unfold process_records
  rw [hst']
  split <;> rfl

/-! ## Complete state -/

/-- A state without partial indices, for the given columns. -/
def withKeys (keys : List (List Nat)) : Option MemoryState :=
  keys.foldlM (fun st key => st.add_key key none) default

/-- All indices have all rows. -/
structure Complete (st : MemoryState) (m : Multiset VRow) : Prop where
  holds : st.Holds m
  all_indices : ∀ s ∈ st.state, s.partialIndex = false

theorem foldlM_add_key {ks : List (List Nat)} (hst : st.Unfilled false)
    (h : ks.foldlM (fun st key => st.add_key key none) st = some st') :
    st'.Unfilled false ∧ ∀ key, key ∈ st'.keys ↔ key ∈ st.keys ∨ key ∈ ks := by
  induction ks generalizing st with
  | nil =>
    cases h
    exact ⟨hst, fun key => by simp⟩
  | cons k ks ih =>
    simp only [foldlM_cons, Option.bind_eq_bind, Option.bind_eq_some_iff] at h
    obtain ⟨st₁, h₁, h₂⟩ := h
    obtain ⟨hst₁, hkeys₁⟩ := unfilled_add_key hst h₁ rfl
    obtain ⟨hst', hkeys'⟩ := ih hst₁ h₂
    refine ⟨hst', fun key => ?_⟩
    rw [hkeys', hkeys₁, mem_cons, or_assoc]

theorem withKeys_complete {keys : List (List Nat)} (h : withKeys keys = some st) :
    st.Complete 0 ∧ (∀ key, key ∈ st.keys ↔ key ∈ keys) ∧
      ∀ key ∈ st.keys, keyLength key.length = true := by
  obtain ⟨hst, hkeys⟩ := foldlM_add_key (unfilled_default false) h
  refine ⟨⟨hst.holds (.inr rfl), hst.all_indices⟩, fun key => (hkeys key).trans ?_, hst.lengths⟩
  simp [MemoryState.keys, default]

theorem Complete.lookup (hst : st.Complete m) (hcolumns : columns ∈ st.keys) {key : List DataType}
    (hkey : key.length = columns.length) :
    ∃ rs, st.lookup columns key = some (.some rs) ∧
      (rs.map Row.val : Multiset VRow) = rowsOf columns (Row.val key) m := by
  have hfound : ∃ i, st.state_for columns = some i := by
    unfold state_for
    rw [← Option.isSome_iff_exists, findIdx?_isSome, any_eq_true]
    obtain ⟨s, hs, rfl⟩ := mem_map.mp hcolumns
    exact ⟨s, hs, beq_self_eq_true _⟩
  obtain ⟨i, hi⟩ := hfound
  obtain ⟨hlt, heq, -⟩ := findIdx?_eq_some_iff_getElem.mp hi
  have hmem := getElem_mem hlt
  rw [beq_iff_eq] at heq
  subst heq
  have hholds := hst.holds _ hmem
  unfold MemoryState.lookup
  simp only [hi, Option.bind_eq_bind, Option.bind_some, getElem?_eq_getElem hlt,
    SingleState.lookup, hkey, if_true]
  cases hget : st.state[i].state.get? key with
  | some rs => exact ⟨rs, rfl, hholds.found key rs hget⟩
  | none =>
    have hfull := hst.all_indices _ hmem
    refine ⟨[], by simp [hfull], ?_⟩
    rw [hholds.absent hfull key hget]
    rfl

theorem Complete.process_records (hst : st.Complete m) (hfits : st.Fits records)
    (happ : Applies m (Records.changes records) m') :
    ∃ st', st.process_records records none = some (records, st') ∧ st'.Complete m' ∧
      st'.keys = st.keys := by
  obtain ⟨st', hst', hholds, halike⟩ := process_records_holds hst.holds hfits happ
  have hfull : st.is_partial = false :=
    any_eq_false.mpr fun s hs => by simp [hst.all_indices s hs]
  rw [hfull] at hst'
  refine ⟨st', hst', ⟨hholds, fun s' hs' => ?_⟩, halike.keys⟩
  obtain ⟨s, hs, hss⟩ := halike.exists_of_mem hs'
  rw [hss.partialIndex]
  exact hst.all_indices s hs

/-! ## Indices added late -/

/-- A call on a state without partial indices. -/
inductive Call where
  | addKey (columns : List Nat)
  | batch (records : Records)

namespace Call

def run (st : MemoryState) : Call → Option MemoryState
  | .addKey columns => st.add_key columns none
  | .batch records => (st.process_records records none).map Prod.snd

def changes : Call → List (Change VRow)
  | .addKey _ => []
  | .batch records => Records.changes records

/-- Rows have `w` columns, and indices are on one to six of them. -/
def Fits (w : Nat) : Call → Prop
  | .addKey columns => keyLength columns.length = true ∧ ∀ c ∈ columns, c < w
  | .batch records => ∀ r ∈ records, r.row.length = w

/-- There are no records before the first index. -/
def IndexFirst : List Call → Prop
  | .batch records :: calls => records = [] ∧ IndexFirst calls
  | _ => True

end Call

/-- All indices have all rows, which have `w` columns, and rows are kept. -/
structure Full (w : Nat) (st : MemoryState) (m : Multiset VRow) : Prop extends st.Complete m where
  rows : ∀ v ∈ m, ∃ r : Row, Row.val r = v ∧ r.length = w
  columns : ∀ key ∈ st.keys, ∀ c ∈ key, c < w
  kept : st.state = [] → m = 0

theorem Full.content_eq {w : Nat} (h : st.Full w m) (hs : s ∈ st.state) : s.content = m := by
  refine (h.holds s hs).content_eq (h.all_indices s hs) fun v hv => ?_
  obtain ⟨r, rfl, rfl⟩ := h.rows v hv
  obtain ⟨k, hk⟩ := Row.cols_isSome (h.columns s.key (mem_map_of_mem hs))
  exact ⟨k, Row.val_cols hk⟩

theorem Full.add_key {w : Nat} (h : st.Full w m) (hfits : (Call.addKey columns).Fits w) :
    ∃ st', st.add_key columns none = some st' ∧ st'.Full w m ∧
      ∀ key, key ∈ st'.keys ↔ key ∈ st.keys ∨ key = columns := by
  unfold MemoryState.add_key
  cases hi : st.state_for columns with
  | some i =>
    obtain ⟨hlt, hkey, -⟩ := findIdx?_eq_some_iff_getElem.mp hi
    refine ⟨st, rfl, h, fun key => ⟨.inl, ?_⟩⟩
    rintro (hold | rfl)
    · exact hold
    · exact mem_map.mpr ⟨st.state[i], getElem_mem hlt, beq_iff_eq.mp hkey⟩
  | none =>
    obtain ⟨new, hnew, hholds, halike⟩ : ∃ new, construct none st.state ⟨columns, ∅, false, 0⟩ =
        some new ∧ new.Holds m ∧ SingleState.Alike ⟨columns, ∅, false, 0⟩ new := by
      have hempty : SingleState.Holds ⟨columns, ∅, false, 0⟩ 0 :=
        ⟨(by intro k rs hk; cases hk), fun _ _ _ => rfl, le_refl 0⟩
      cases hst : st.state with
      | nil => exact ⟨_, rfl, h.kept hst ▸ hempty, .refl _⟩
      | cons old rest =>
        have hold : old ∈ st.state := hst ▸ mem_cons_self
        have hcontent := h.content_eq hold
        have hwide : ∀ r ∈ old.state.entries.flatMap Prod.snd, ∀ c ∈ columns, c < r.length := by
          intro r hr c hc
          have hmem : Row.val r ∈ m := hcontent ▸ mem_map_of_mem hr
          obtain ⟨r', hr', hlen⟩ := h.rows _ hmem
          rw [← Row.length_val, ← hr', Row.length_val, hlen]
          exact hfits.2 c hc
        obtain ⟨new, hnew, hholds, halike⟩ := SingleState.foldlM_insert_row hempty hwide
        refine ⟨new, ?_, by rwa [add_zero, ← SingleState.content, hcontent] at hholds, halike⟩
        rw [construct, h.all_indices old hold]
        exact hnew
    refine ⟨⟨st.state ++ [new], st.by_tag⟩, ?_, ⟨⟨?_, ?_⟩, h.rows, ?_, by simp⟩, fun key => ?_⟩
    · simp [SingleState.new, hfits.1, hnew]
    · exact forall_mem_append.mpr ⟨h.holds, by simpa using hholds⟩
    · exact forall_mem_append.mpr ⟨h.all_indices, by simpa using halike.partialIndex⟩
    · simp only [keys, map_append, map_cons, map_nil, halike.key]
      exact forall_mem_append.mpr ⟨h.columns, by simpa using hfits.2⟩
    · simp [keys, halike.key]

theorem keys_eq_nil_iff : st.keys = [] ↔ st.state = [] := map_eq_nil_iff

theorem Full.batch {w : Nat} (h : st.Full w m) (hfits : (Call.batch records).Fits w)
    (hfirst : st.state = [] → records = []) (happ : Applies m (Records.changes records) m') :
    ∃ st', (Call.batch records).run st = some st' ∧ st'.Full w m' ∧ st'.keys = st.keys := by
  have hwide : st.Fits records := by
    intro r hr s hs c hc
    rw [hfits r hr]
    exact h.columns s.key (mem_map_of_mem hs) c hc
  obtain ⟨st', hst', hcomplete, hkeys⟩ := h.toComplete.process_records hwide happ
  refine ⟨st', by rw [Call.run, hst']; rfl,
    ⟨hcomplete, ?_, hkeys ▸ h.columns, fun hnil => ?_⟩, hkeys⟩
  · refine happ.forall_mem h.rows fun c hc => ?_
    obtain ⟨r, hr, rfl⟩ := mem_map.mp hc
    exact ⟨r.row, (Record.elem_change r).symm, hfits r hr⟩
  · rw [← keys_eq_nil_iff, hkeys, keys_eq_nil_iff] at hnil
    rw [hfirst hnil, Records.changes_nil, Applies.nil_iff] at happ
    exact happ ▸ h.kept hnil

theorem Full.run {w : Nat} {calls : List Call} (h : st.Full w m) (hfits : ∀ c ∈ calls, c.Fits w)
    (hfirst : st.state = [] → Call.IndexFirst calls)
    (happ : Applies m (calls.flatMap Call.changes) m') :
    ∃ st', calls.foldlM Call.run st = some st' ∧ st'.Full w m' ∧
      ∀ key, key ∈ st'.keys ↔ key ∈ st.keys ∨ .addKey key ∈ calls := by
  induction calls generalizing st m with
  | nil =>
    rw [flatMap_nil, Applies.nil_iff] at happ
    exact ⟨st, rfl, happ ▸ h, by simp⟩
  | cons call calls ih =>
    rw [forall_mem_cons] at hfits
    cases call with
    | addKey columns =>
      obtain ⟨st₁, hst₁, hfull₁, hkeys₁⟩ := h.add_key hfits.1
      obtain ⟨st', hst', hfull', hkeys'⟩ := ih hfull₁ hfits.2
        (fun hnil => absurd ((hkeys₁ columns).mpr (.inr rfl)) (by simp [keys, hnil])) happ
      refine ⟨st', ?_, hfull', fun key => ?_⟩
      · rw [foldlM_cons, Call.run, hst₁]
        exact hst'
      · rw [hkeys', hkeys₁, mem_cons, or_assoc, Call.addKey.injEq]
    | batch records =>
      rw [flatMap_cons, Applies.append_iff] at happ
      obtain ⟨m₁, happ₁, happ⟩ := happ
      obtain ⟨st₁, hst₁, hfull₁, hkeys₁⟩ :=
        h.batch hfits.1 (fun hnil => (hfirst hnil).1) happ₁
      obtain ⟨st', hst', hfull', hkeys'⟩ := ih hfull₁ hfits.2
        (fun hnil => by
          rw [← keys_eq_nil_iff, hkeys₁, keys_eq_nil_iff] at hnil
          exact (hfirst hnil).2) happ
      refine ⟨st', ?_, hfull', fun key => ?_⟩
      · rw [foldlM_cons, hst₁]
        exact hst'
      · rw [hkeys', hkeys₁, mem_cons]
        simp

theorem full_default (w : Nat) : default.Full w 0 :=
  ⟨⟨by simp [MemoryState.Holds, default], by simp [default]⟩, by simp, by simp [keys, default],
    fun _ => rfl⟩

/-- **All indices have the net history**, whenever they were added, if there
    was an index before the first record. -/
theorem full_indices_agree {w : Nat} {calls : List Call} (hfits : ∀ c ∈ calls, c.Fits w)
    (hfirst : Call.IndexFirst calls) (happ : Applies 0 (calls.flatMap Call.changes) m) :
    ∃ st, calls.foldlM Call.run default = some st ∧
      (∀ columns, columns ∈ st.keys ↔ .addKey columns ∈ calls) ∧
      (∀ s ∈ st.state, s.content = m) ∧
      ∀ columns ∈ st.keys, ∀ key : List DataType, key.length = columns.length →
        ∃ rs, st.lookup columns key = some (.some rs) ∧
          (rs.map Row.val : Multiset VRow) = rowsOf columns (Row.val key) m := by
  obtain ⟨st, hst, hfull, hkeys⟩ := (full_default w).run hfits (fun _ => hfirst) happ
  refine ⟨st, hst, fun columns => (hkeys columns).trans (by simp [keys, default]),
    fun s hs => hfull.content_eq hs, fun columns hcolumns key hkey => ?_⟩
  exact hfull.toComplete.lookup hcolumns hkey

theorem full_indices_agree_late :
    ∃ st, [.addKey [0], .batch [.positive [.int 1, .int 2]], .addKey [1]].foldlM Call.run default =
      some st ∧ ∀ s ∈ st.state, s.content = {Row.val [.int 1, .int 2]} := by
  have hfits : ∀ c ∈ [.addKey [0], .batch [.positive [.int 1, .int 2]], .addKey [1]],
      Call.Fits 2 c := by simp [Call.Fits, keyLength]
  obtain ⟨st, hst, -, hcontent, -⟩ := full_indices_agree hfits trivial (.ins (.nil _))
  exact ⟨st, hst, hcontent⟩

/-- A record that comes before the first index is in no index. -/
theorem record_before_index :
    Applies 0 ([.batch [.positive [.int 1]], .addKey [0]].flatMap Call.changes)
        {Row.val [.int 1]} ∧
      ∃ st, [.batch [.positive [.int 1]], .addKey [0]].foldlM Call.run default = some st ∧
        ∃ s ∈ st.state, s.content = 0 :=
  ⟨.ins (.nil _), _, rfl, _, mem_cons_self, rfl⟩

end MemoryState

end Noria.Server

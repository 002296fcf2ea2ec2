import Noria.Server.State

/-! # Partial state against its source

  A partial state is a cache of its source: a key is filled with the rows that the source has for
  it, follows the changes of the source from then on, and may be dropped at any time.

  `Source` is what the state is a cache of, together with the keys that
  are filled, and `PartialOp.Follows` says which operation is in order
  there and what it does. `filled_keys_follow_source` is the law: after any
  run of operations in order the state agrees with the source.
-/

namespace Noria.Server

open Bag List AssocMap
open Noria.Sqlite (Record Records)

/-! ## Operations -/

/-- What a domain does to a partial state. -/
inductive PartialOp where
  /-- `mark_filled`, and then one batch with the rows of the key. -/
  | fill (tag : Tag) (key : List DataType) (rows : List Row)
  | change (records : Records)
  | mark_hole (tag : Tag) (key : List DataType)
  | evict_keys (tag : Tag) (keys : List (List DataType))

namespace MemoryState

def perform (st : MemoryState) : PartialOp → Option MemoryState
  | .fill tag key rows => do
    let st ← st.mark_filled key tag
    let (_, st) ← st.process_records (rows.map .positive) (some tag)
    some st
  | .change records => (st.process_records records none).map Prod.snd
  | .mark_hole tag key => st.mark_hole key tag
  | .evict_keys tag keys => st.evict_keys tag keys

/-- A state with the given partial indices, each with its tags. -/
def withPartialKeys (keys : List (List Nat × List Tag)) : Option MemoryState :=
  keys.foldlM (fun st k => st.add_key k.1 (some k.2)) default

end MemoryState

/-! ## The source -/

/-- The current rows of the source, and the keys filled in each index. -/
structure Source where
  rows : Multiset VRow
  filled : Set (Nat × VRow)

/-- An operation in order, and what it does to the source. The state `st` only says what the indices
    and their tags are. A key is filled when it is a hole, with the rows the source has; a key is
    marked as a hole when it is filled. An eviction may be for a tag that is not known yet. -/
inductive PartialOp.Follows (st : MemoryState) : Source → PartialOp → Source → Prop where
  | fill {src : Source} {tag : Tag} {i : Nat} {s : SingleState} {key : List DataType}
      {rows : List Row} (htag : st.by_tag.get? tag = some i) (hi : st.state[i]? = some s)
      (hkey : key.length = s.key.length) (hhole : (i, Row.val key) ∉ src.filled)
      (hfits : st.Fits (rows.map .positive))
      (hrows : (rows.map Row.val : Multiset VRow) = rowsOf s.key (Row.val key) src.rows) :
      Follows st src (.fill tag key rows)
        { src with filled := src.filled ∪ {(i, Row.val key)} }
  | change {src : Source} {records : Records} {rows : Multiset VRow}
      (hfits : st.Fits records) (happ : Applies src.rows (Records.changes records) rows) :
      Follows st src (.change records) { src with rows }
  | mark_hole {src : Source} {tag : Tag} {i : Nat} {s : SingleState} {key : List DataType}
      (htag : st.by_tag.get? tag = some i) (hi : st.state[i]? = some s)
      (hkey : key.length = s.key.length) (hfilled : (i, Row.val key) ∈ src.filled) :
      Follows st src (.mark_hole tag key)
        { src with filled := src.filled \ {(i, Row.val key)} }
  | evict_keys {src : Source} {tag : Tag} {i : Nat} {s : SingleState}
      {keys : List (List DataType)} (htag : st.by_tag.get? tag = some i)
      (hi : st.state[i]? = some s) (hkeys : ∀ key ∈ keys, key.length = s.key.length) :
      Follows st src (.evict_keys tag keys)
        { src with filled := src.filled \ {e | ∃ key ∈ keys, e = (i, Row.val key)} }
  | evict_unknown {src : Source} {tag : Tag} {keys : List (List DataType)}
      (htag : st.by_tag.get? tag = none) : Follows st src (.evict_keys tag keys) src

/-- A run of operations in order. -/
inductive PartialOp.Run (st : MemoryState) : Source → List PartialOp → Source → Prop where
  | nil (src : Source) : Run st src [] src
  | snoc {src src₁ src₂ : Source} {ops : List PartialOp} {op : PartialOp} :
      Run st src ops src₁ → op.Follows st src₁ src₂ → Run st src (ops ++ [op]) src₂

/-! ## Agreement -/

variable {st st' : MemoryState} {s s' : SingleState} {i : Nat} {src : Source} {key : List DataType}
  {tag : Tag}

namespace SingleState

/-- What no operation on a partial state changes. -/
def shape (s : SingleState) : List Nat × Bool := (s.key, s.partialIndex)

theorem shape_eq_iff :
    s'.shape = s.shape ↔ s'.key = s.key ∧ s'.partialIndex = s.partialIndex := Prod.mk_inj

theorem keyOf_eq (h : key.length = s.key.length) : s.keyOf key = some key := by
  unfold keyOf
  rw [if_neg (by omega), ← h, take_length]

end SingleState

namespace MemoryState

/-- Two states with the same indices and tags. -/
structure SameKeys (st st' : MemoryState) : Prop where
  state : st'.state.map SingleState.shape = st.state.map SingleState.shape
  by_tag : st'.by_tag = st.by_tag

theorem SameKeys.refl (st : MemoryState) : st.SameKeys st := ⟨rfl, rfl⟩

theorem SameKeys.trans {st₁ st₂ : MemoryState} (h : st.SameKeys st₁) (h' : st₁.SameKeys st₂) :
    st.SameKeys st₂ := ⟨h'.state.trans h.state, h'.by_tag.trans h.by_tag⟩

theorem Alike.sameKeys (h : st.Alike st') : st.SameKeys st' := by
  refine ⟨map_eq_of_forall₂ (h.state.imp fun _ _ hs => ?_), h.by_tag⟩
  exact SingleState.shape_eq_iff.mpr ⟨hs.key, hs.partialIndex⟩

theorem SameKeys.get (h : st.SameKeys st') (hi : st.state[i]? = some s) :
    ∃ s', st'.state[i]? = some s' ∧ s'.key = s.key ∧ s'.partialIndex = s.partialIndex := by
  have hshape := congrArg (·[i]?) h.state
  simp only [getElem?_map, hi, Option.map_some, Option.map_eq_some_iff] at hshape
  obtain ⟨s', hs', heq⟩ := hshape
  exact ⟨s', hs', SingleState.shape_eq_iff.mp heq⟩

theorem SameKeys.symm (h : st.SameKeys st') : st'.SameKeys st := ⟨h.state.symm, h.by_tag.symm⟩

theorem SameKeys.fits (h : st.SameKeys st') {records : Records} (hfits : st.Fits records) :
    st'.Fits records := by
  intro r hr s' hs'
  obtain ⟨i, hi⟩ := mem_iff_getElem?.mp hs'
  obtain ⟨s, hs, hkey, -⟩ := h.symm.get hi
  rw [← hkey]
  exact hfits r hr s (mem_of_getElem? hs)

theorem SameKeys.set (hi : st.state[i]? = some s) (hshape : s'.shape = s.shape) :
    st.SameKeys { st with state := st.state.set i s' } := by
  refine ⟨?_, rfl⟩
  rw [map_set, hshape]
  obtain ⟨hlt, rfl⟩ := List.getElem?_eq_some_iff.mp hi
  rw [← getElem_map SingleState.shape, set_getElem_self]
  simpa using hlt

/-- The state agrees with its source: every filled key has exactly the rows
    of the source, and exactly the filled keys have an entry. -/
structure Agrees (st : MemoryState) (src : Source) : Prop where
  holds : st.Holds src.rows
  all_partial : ∀ s ∈ st.state, s.partialIndex = true
  filled : ∀ i s, st.state[i]? = some s → ∀ k, s.filled k = true ↔ (i, k) ∈ src.filled

theorem Agrees.set (h : st.Agrees src) (hi : st.state[i]? = some s) (hshape : s'.shape = s.shape)
    (hs' : s'.Holds src.rows) {filled : Set (Nat × VRow)}
    (hfilled : ∀ k, s'.filled k = true ↔ (i, k) ∈ filled)
    (hother : ∀ j k, j ≠ i → ((j, k) ∈ filled ↔ (j, k) ∈ src.filled)) :
    ({ st with state := st.state.set i s' } : MemoryState).Agrees { src with filled } := by
  obtain ⟨hlt, -⟩ := List.getElem?_eq_some_iff.mp hi
  refine ⟨fun t ht => ?_, fun t ht => ?_, fun j t ht k => ?_⟩
  · rcases mem_or_eq_of_mem_set ht with ht | rfl
    · exact h.holds t ht
    · exact hs'
  · rcases mem_or_eq_of_mem_set ht with ht | rfl
    · exact h.all_partial t ht
    · exact (SingleState.shape_eq_iff.mp hshape).2.trans (h.all_partial s (mem_of_getElem? hi))
  · by_cases hj : j = i
    · subst hj
      simp only [getElem?_set_self hlt, Option.some.injEq] at ht
      subst ht
      exact hfilled k
    · simp only [getElem?_set_ne (Ne.symm hj)] at ht
      rw [h.filled j t ht k]
      exact (hother j k hj).symm

/-! ### Filling a key -/

theorem retainHits_tagged (htag : st.by_tag.get? tag = some i) (hi : st.state[i]? = some s)
    {key : Row} {rs rows : List Row} (hkey : s.state.get? key = some rs)
    (hrows : ∀ r ∈ rows, ∃ k, r.cols s.key = some k ∧ (k == key) = true) :
    ∃ kept s', retainHits (some tag) st (rows.map .positive) =
        some (kept, { st with state := st.state.set i s' }) ∧
      s'.shape = s.shape ∧
      (∀ k, s'.state.get? k = if key == k then some (rs ++ rows) else s.state.get? k) ∧
      (s.state.total List.length ≤ s.rows → s'.state.total List.length ≤ s'.rows) := by
  induction rows generalizing st s rs with
  | nil =>
    obtain ⟨hlt, rfl⟩ := List.getElem?_eq_some_iff.mp hi
    refine ⟨[], st.state[i], ?_, rfl, fun k => ?_, id⟩
    · rw [set_getElem_self]
      rfl
    · split
      · rename_i hk
        rw [← get?_congr _ hk, hkey, append_nil]
      · rfl
  | cons r rows ih =>
    obtain ⟨k, hk, hkk⟩ := hrows r mem_cons_self
    have hlt := (List.getElem?_eq_some_iff.mp hi).1
    have hget : s.state.get? k = some rs := (s.state.get?_congr hkk).trans hkey
    -- the index after the first row
    let s₁ : SingleState := { s with state := s.state.insert k (rs ++ [r]), rows := s.rows + 1 }
    have hins : s.insert_row r = some (true, s₁) := by
      unfold SingleState.insert_row
      rw [hk]
      simp [hget, s₁]
    have hstep : st.process_record (some tag) (.positive r) =
        some (true, { st with state := st.state.set i s₁ }) := by
      simp [process_record, insert, htag, hi, hins]
    have hkey₁ : s₁.state.get? key = some (rs ++ [r]) := by
      simp only [s₁, get?_insert, hkk, if_true]
    let st₁ : MemoryState := { st with state := st.state.set i s₁ }
    have htag₁ : st₁.by_tag.get? tag = some i := htag
    have hi₁ : st₁.state[i]? = some s₁ := getElem?_set_self hlt
    obtain ⟨kept, s', hrun, hshape, hget', htotal⟩ := ih htag₁ hi₁ hkey₁ fun r' hr' =>
      hrows r' (mem_cons_of_mem _ hr')
    refine ⟨.positive r :: kept, s', ?_, hshape, fun k' => ?_, fun hcount => htotal ?_⟩
    · simp only [st₁, set_set] at hrun
      simp [retainHits, hstep, hrun]
    · rw [hget' k']
      split
      · rw [append_assoc, singleton_append]
      · rename_i hne
        simp only [s₁, get?_insert]
        rw [if_neg]
        exact fun h => hne (BEq.trans (BEq.symm hkk) h)
    · have hins := total_insert_of_some List.length hget (rs ++ [r])
      rw [length_append, length_singleton] at hins
      show (s.state.insert k (rs ++ [r])).total List.length ≤ s.rows + 1
      omega

theorem fill_agrees (h : st.Agrees src) {rows : List Row} (htag : st.by_tag.get? tag = some i)
    (hi : st.state[i]? = some s) (hkey : key.length = s.key.length)
    (hhole : (i, Row.val key) ∉ src.filled) (hfits : st.Fits (rows.map .positive))
    (hrows : (rows.map Row.val : Multiset VRow) = rowsOf s.key (Row.val key) src.rows) :
    ∃ st', st.perform (.fill tag key rows) = some st' ∧ st.SameKeys st' ∧
      st'.Agrees { src with filled := src.filled ∪ {(i, Row.val key)} } := by
  have hmem := List.mem_of_getElem? hi
  have hlt := (List.getElem?_eq_some_iff.mp hi).1
  have hnone : s.state.get? key = none := by
    rw [← h.filled i s hi, SingleState.filled_val] at hhole
    simpa using hhole
  -- `mark_filled` makes an empty entry
  let s₁ : SingleState := { s with state := s.state.insert key [] }
  have hmark : st.mark_filled key tag = some { st with state := st.state.set i s₁ } := by
    simp [mark_filled, htag, hi, SingleState.mark_filled, SingleState.keyOf_eq hkey, hnone, s₁]
  have hi₁ : (st.state.set i s₁)[i]? = some s₁ := getElem?_set_self hlt
  have hcols : ∀ r ∈ rows, ∃ k, r.cols s₁.key = some k ∧ (k == key) = true := by
    intro r hr
    obtain ⟨k, hk⟩ := Row.cols_isSome (hfits (.positive r) (mem_map_of_mem hr) s hmem)
    refine ⟨k, hk, (Row.beq_iff_val k key).mpr ?_⟩
    have hin : Row.val r ∈ (rows.map Row.val : Multiset VRow) :=
      Multiset.mem_coe.mpr (mem_map_of_mem hr)
    rw [hrows, rowsOf, Multiset.mem_filter] at hin
    exact (Row.val_cols hk).trans hin.2
  -- and the tagged rows go into it
  obtain ⟨kept, s', hrun, hshape, hget, htotal⟩ :=
    @retainHits_tagged { st with state := st.state.set i s₁ } _ _ _ htag hi₁ _ _ _
      (get?_insert_self ..) hcols
  have hwith : MemoryState.is_partial { st with state := st.state.set i s₁ } = true :=
    any_eq_true.mpr ⟨s₁, mem_of_getElem? hi₁, h.all_partial s hmem⟩
  have hget' : ∀ k, s'.state.get? k = if key == k then some rows else s.state.get? k := by
    intro k
    rw [hget k]
    split
    · rfl
    · rename_i hk
      simp only [s₁, get?_insert, hk]
      rfl
  have hshape' : s'.shape = s.shape := hshape
  have hkeys := (SingleState.shape_eq_iff.mp hshape').1
  refine ⟨{ st with state := st.state.set i s' }, ?_, .set hi hshape',
    h.set hi hshape' ⟨fun k rs hk => ?_, fun hp => ?_, htotal ?_⟩ (fun k => ?_) fun j k hj => ?_⟩
  · simp only [perform, hmark, process_records, hwith, if_true, hrun, Option.bind_eq_bind,
      Option.bind_some, set_set]
  · rw [hget' k] at hk
    rw [hkeys]
    split at hk
    · rename_i hkk
      cases hk
      rw [hrows, (Row.beq_iff_val key k).mp hkk]
    · exact (h.holds s hmem).found k rs hk
  · rw [(SingleState.shape_eq_iff.mp hshape').2, h.all_partial s hmem] at hp
    cases hp
  · have hins := total_insert_of_none List.length hnone []
    have hcount := (h.holds s hmem).counted
    simpa [s₁, hins] using hcount
  · rw [Set.mem_union, Set.mem_singleton_iff, Prod.mk_inj, ← h.filled i s hi,
      SingleState.filled_iff, SingleState.filled_iff]
    constructor
    · rintro ⟨k₀, rfl, hk₀⟩
      rw [hget' k₀] at hk₀
      split at hk₀
      · rename_i hkk
        exact .inr ⟨rfl, ((Row.beq_iff_val key k₀).mp hkk).symm⟩
      · exact .inl ⟨k₀, rfl, hk₀⟩
    · rintro (⟨k₀, rfl, hk₀⟩ | ⟨-, rfl⟩)
      · refine ⟨k₀, rfl, ?_⟩
        rw [hget' k₀]
        split
        · rfl
        · exact hk₀
      · exact ⟨key, rfl, by simp [hget']⟩
  · simp [hj]

/-! ### Dropping keys -/

theorem Agrees.drop (h : st.Agrees src) (hi : st.state[i]? = some s) (hshape : s'.shape = s.shape)
    {keys : List Row}
    (hget : ∀ k, s'.state.get? k = if keys.any (· == k) then none else s.state.get? k)
    (hcount : s'.state.total List.length ≤ s'.rows) :
    ({ st with state := st.state.set i s' } : MemoryState).Agrees
      { src with filled := src.filled \ {e | ∃ key ∈ keys, e = (i, Row.val key)} } := by
  have hmem := mem_of_getElem? hi
  obtain ⟨hkeys, hpart⟩ := SingleState.shape_eq_iff.mp hshape
  have hany : ∀ k : Row, keys.any (· == k) = true ↔ ∃ key ∈ keys, Row.val key = Row.val k := by
    intro k
    simp only [any_eq_true, Row.beq_iff_val]
  refine h.set hi hshape ⟨fun k rs hk => ?_, fun hp => ?_, hcount⟩ (fun k => ?_) fun j k hj => ?_
  · rw [hget k] at hk
    rw [hkeys]
    split at hk
    · cases hk
    · exact (h.holds s hmem).found k rs hk
  · rw [hpart, h.all_partial s hmem] at hp
    cases hp
  · rw [Set.mem_sdiff, ← h.filled i s hi, SingleState.filled_iff, SingleState.filled_iff]
    constructor
    · rintro ⟨k₀, rfl, hk₀⟩
      rw [hget k₀] at hk₀
      split at hk₀
      · cases hk₀
      · rename_i hne
        refine ⟨⟨k₀, rfl, hk₀⟩, ?_⟩
        rintro ⟨key, hkey, heq⟩
        exact hne ((hany k₀).mpr ⟨key, hkey, (Prod.mk_inj.mp heq).2.symm⟩)
    · rintro ⟨⟨k₀, rfl, hk₀⟩, hne⟩
      refine ⟨k₀, rfl, ?_⟩
      rw [hget k₀, if_neg]
      · exact hk₀
      · intro hin
        obtain ⟨key, hkey, heq⟩ := (hany k₀).mp hin
        exact hne ⟨key, hkey, by rw [heq]⟩
  · simp [hj]

theorem mark_hole_agrees (h : st.Agrees src) (htag : st.by_tag.get? tag = some i)
    (hi : st.state[i]? = some s) (hkey : key.length = s.key.length)
    (hfilled : (i, Row.val key) ∈ src.filled) :
    ∃ st', st.mark_hole key tag = some st' ∧ st.SameKeys st' ∧
      st'.Agrees { src with filled := src.filled \ {(i, Row.val key)} } := by
  rw [← h.filled i s hi, SingleState.filled_val, Option.isSome_iff_exists] at hfilled
  obtain ⟨rs, hrs⟩ := hfilled
  let s' : SingleState := { s with state := s.state.erase key }
  have hget : ∀ k, s'.state.get? k = if [key].any (· == k) then none else s.state.get? k := by
    intro k
    simp [s', get?_erase]
  have hcount : s'.state.total List.length ≤ s'.rows :=
    (total_erase_le ..).trans (h.holds s (mem_of_getElem? hi)).counted
  have hshape : s'.shape = s.shape := rfl
  have hdrop := h.drop hi hshape hget hcount
  refine ⟨{ st with state := st.state.set i s' }, ?_, .set hi rfl, ?_⟩
  · simp [mark_hole, htag, hi, SingleState.mark_hole, SingleState.keyOf_eq hkey, hrs, s']
  · simpa using hdrop

theorem evict_keys_single {keys : List (List DataType)}
    (hkeys : ∀ key ∈ keys, key.length = s.key.length) :
    ∃ s', s.evict_keys keys = some s' ∧ s'.shape = s.shape ∧ s'.rows = s.rows ∧
      s'.state.total List.length ≤ s.state.total List.length ∧
      ∀ k, s'.state.get? k = if keys.any (· == k) then none else s.state.get? k := by
  induction keys generalizing s with
  | nil => exact ⟨s, rfl, rfl, rfl, Nat.le_refl _, fun k => rfl⟩
  | cons key keys ih =>
    let s₁ : SingleState := { s with state := s.state.erase key }
    obtain ⟨s', hs', hshape, hrows, htotal, hget⟩ := ih (s := s₁) (forall_mem_cons.mp hkeys).2
    refine ⟨s', ?_, hshape, hrows, htotal.trans (total_erase_le ..), fun k => ?_⟩
    · unfold SingleState.evict_keys at hs' ⊢
      rw [foldlM_cons, SingleState.keyOf_eq (hkeys key mem_cons_self)]
      exact hs'
    · rw [hget k, any_cons]
      simp only [s₁, get?_erase]
      by_cases hk : (key == k) = true <;> simp [hk]

theorem evict_keys_agrees (h : st.Agrees src) {keys : List (List DataType)}
    (htag : st.by_tag.get? tag = some i) (hi : st.state[i]? = some s)
    (hkeys : ∀ key ∈ keys, key.length = s.key.length) :
    ∃ st', st.evict_keys tag keys = some st' ∧ st.SameKeys st' ∧
      st'.Agrees { src with filled := src.filled \ {e | ∃ key ∈ keys, e = (i, Row.val key)} } := by
  obtain ⟨s', hs', hshape, hrows, htotal, hget⟩ := evict_keys_single hkeys
  refine ⟨{ st with state := st.state.set i s' }, ?_, .set hi hshape, h.drop hi hshape hget ?_⟩
  · simp [evict_keys, htag, hi, hs']
  · rw [hrows]
    exact htotal.trans (h.holds s (mem_of_getElem? hi)).counted

/-! ### Changes and runs -/

theorem change_agrees (h : st.Agrees src) {records : Records} {rows : Multiset VRow}
    (hfits : st.Fits records) (happ : Applies src.rows (Records.changes records) rows) :
    ∃ kept st', st.process_records records none = some (kept, st') ∧ st.SameKeys st' ∧
      st'.Agrees { src with rows } := by
  obtain ⟨st', hst', hholds, halike⟩ := process_records_holds h.holds hfits happ
  refine ⟨_, st', hst', halike.sameKeys, hholds, ?_, ?_⟩
  · intro s' hs'
    obtain ⟨i, hi'⟩ := mem_iff_getElem?.mp hs'
    obtain ⟨s, hi, -, hpart⟩ := halike.sameKeys.symm.get hi'
    rw [← hpart]
    exact h.all_partial s (mem_of_getElem? hi)
  · intro i s' hi' k
    obtain ⟨s, hi, -, -⟩ := halike.sameKeys.symm.get hi'
    obtain ⟨hlt, rfl⟩ := List.getElem?_eq_some_iff.mp hi
    obtain ⟨hlt', rfl⟩ := List.getElem?_eq_some_iff.mp hi'
    have hsingle := (forall₂_iff_get.mp halike.state).2 i hlt hlt'
    simp only [get_eq_getElem] at hsingle
    rw [hsingle.filled (h.all_partial _ (getElem_mem hlt))]
    exact h.filled i _ hi k

/-- **One operation in order** succeeds and keeps the state in agreement. -/
theorem perform_agrees {st₀ : MemoryState} {src' : Source} {op : PartialOp}
    (hsame : st₀.SameKeys st) (h : st.Agrees src) (hop : op.Follows st₀ src src') :
    ∃ st', st.perform op = some st' ∧ st₀.SameKeys st' ∧ st'.Agrees src' := by
  cases hop with
  | fill htag hi hkey hhole hfits hrows =>
    obtain ⟨s, hs, hkeys, -⟩ := hsame.get hi
    rw [← hkeys] at hkey hrows
    obtain ⟨st', hst', hsame', hagrees⟩ := fill_agrees h (hsame.by_tag ▸ htag) hs hkey hhole
      (hsame.fits hfits) hrows
    exact ⟨st', hst', hsame.trans hsame', hagrees⟩
  | change hfits happ =>
    obtain ⟨kept, st', hst', hsame', hagrees⟩ := change_agrees h (hsame.fits hfits) happ
    exact ⟨st', by rw [perform, hst']; rfl, hsame.trans hsame', hagrees⟩
  | mark_hole htag hi hkey hfilled =>
    obtain ⟨s, hs, hkeys, -⟩ := hsame.get hi
    rw [← hkeys] at hkey
    obtain ⟨st', hst', hsame', hagrees⟩ := mark_hole_agrees h (hsame.by_tag ▸ htag) hs hkey hfilled
    exact ⟨st', hst', hsame.trans hsame', hagrees⟩
  | evict_keys htag hi hkeys =>
    obtain ⟨s, hs, hkeys', -⟩ := hsame.get hi
    rw [← hkeys'] at hkeys
    obtain ⟨st', hst', hsame', hagrees⟩ := evict_keys_agrees h (hsame.by_tag ▸ htag) hs hkeys
    exact ⟨st', hst', hsame.trans hsame', hagrees⟩
  | evict_unknown htag =>
    rw [← hsame.by_tag] at htag
    exact ⟨st, by simp [perform, evict_keys, htag], hsame, h⟩

/-- A run of operations in order succeeds and ends in agreement. -/
theorem run_agrees {src' : Source} {ops : List PartialOp} (h : st.Agrees src)
    (hrun : PartialOp.Run st src ops src') :
    ∃ st', ops.foldlM perform st = some st' ∧ st.SameKeys st' ∧ st'.Agrees src' := by
  induction hrun with
  | nil => exact ⟨st, rfl, .refl st, h⟩
  | snoc _ hop ih =>
    obtain ⟨st₁, hst₁, hsame₁, hagrees₁⟩ := ih
    obtain ⟨st₂, hst₂, hsame₂, hagrees₂⟩ := perform_agrees hsame₁ hagrees₁ hop
    refine ⟨st₂, ?_, hsame₂, hagrees₂⟩
    rw [foldlM_append, hst₁]
    simp [hst₂]

/-! ### The state as it is built -/

theorem withPartialKeys_unfilled {keys : List (List Nat × List Tag)}
    (h : withPartialKeys keys = some st) : st.Unfilled true := by
  refine foldlM_option_keeps (P := Unfilled true) ?_ (unfilled_default true) h
  intro st k st' _ hst hadd
  exact (unfilled_add_key hst hadd rfl).1

theorem withPartialKeys_ne_nil {keys : List (List Nat × List Tag)}
    (h : withPartialKeys keys = some st) (hkeys : keys ≠ []) : st.state ≠ [] := by
  -- the last key added leaves an index
  obtain ⟨init, k, rfl⟩ := eq_nil_or_concat keys |>.resolve_left hkeys
  unfold withPartialKeys at h
  rw [concat_eq_append, foldlM_append] at h
  simp only [Option.bind_eq_bind, Option.bind_eq_some_iff, foldlM_cons, foldlM_nil] at h
  obtain ⟨st₁, h₁, st₂, h₂, h₃⟩ := h
  cases h₃
  have hkey := ((unfilled_add_key (withPartialKeys_unfilled h₁) h₂ rfl).2 k.1).mpr (.inr rfl)
  obtain ⟨s, hs, -⟩ := mem_map.mp hkey
  exact ne_nil_of_mem hs

theorem Unfilled.agrees (h : st.Unfilled true) (rows : Multiset VRow) : st.Agrees ⟨rows, ∅⟩ := by
  refine ⟨h.holds (.inl rfl), h.all_indices, fun i s hi k => ?_⟩
  rw [SingleState.filled, h.no_entry s (mem_of_getElem? hi)]
  simp

theorem state_for_eq (h : st.keys.Nodup) (hi : st.state[i]? = some s) :
    st.state_for s.key = some i := by
  obtain ⟨hlt, rfl⟩ := List.getElem?_eq_some_iff.mp hi
  unfold state_for
  rw [findIdx?_eq_some_iff_getElem]
  refine ⟨hlt, beq_self_eq_true _, fun j hj heq => ?_⟩
  have hi' : i < (st.state.map SingleState.key).length := by simpa using hlt
  have hj' : j < (st.state.map SingleState.key).length := hj.trans hi'
  have hkeys : (st.state.map SingleState.key)[j] = (st.state.map SingleState.key)[i] := by
    simpa using heq
  have hji := h.getElem_inj_iff.mp hkeys
  omega

theorem Agrees.lookup (h : st.Agrees src) (hdistinct : st.keys.Nodup) (hi : st.state[i]? = some s)
    (hkey : key.length = s.key.length) : st.lookup s.key key = some (match s.state.get? key with
      | some rs => .some rs
      | none => .missing) := by
  unfold MemoryState.lookup
  rw [state_for_eq hdistinct hi]
  simp only [Option.bind_eq_bind, Option.bind_some, hi, SingleState.lookup, hkey, if_true,
    h.all_partial s (mem_of_getElem? hi)]
  cases s.state.get? key <;> rfl

end MemoryState

/-! ## The law of partial state -/

open MemoryState in
/-- **Filled keys follow the source.** For any partial indices, any source and any run of operations
    in order on a state with these indices: no operation panics; afterwards a filled key has exactly
    the rows of the source with that key, a hole has none and looking it up says so; and of an
    untagged batch those records go that hit a hole in every index. -/
theorem filled_keys_follow_source {keys : List (List Nat × List Tag)} {st₀ : MemoryState}
    (hbuilt : withPartialKeys keys = some st₀) (hsome : keys ≠ []) {rows : Multiset VRow}
    {ops : List PartialOp} {src : Source} (hrun : PartialOp.Run st₀ ⟨rows, ∅⟩ ops src) :
    ∃ st, ops.foldlM perform st₀ = some st ∧ st₀.SameKeys st ∧
      (∀ i s, st.state[i]? = some s → ∀ key : List DataType, key.length = s.key.length →
        ((i, Row.val key) ∈ src.filled → ∃ rs, st.lookup s.key key = some (.some rs) ∧
          (rs.map Row.val : Multiset VRow) = rowsOf s.key (Row.val key) src.rows) ∧
        ((i, Row.val key) ∉ src.filled → st.lookup s.key key = some .missing ∧
          s.state.get? key = none)) ∧
      ∀ records rows', st.Fits records → Applies src.rows (Records.changes records) rows' →
        ∃ keep : Record → Bool,
          (∀ r, keep r = false ↔ ∀ i s, st.state[i]? = some s →
            (i, VRow.proj s.key (Row.val r.row)) ∉ src.filled) ∧
          ∃ st', st.process_records records none = some (records.filter keep, st') := by
  have hunfilled := withPartialKeys_unfilled hbuilt
  obtain ⟨st, hst, hsame, hagrees⟩ := run_agrees (hunfilled.agrees rows) hrun
  have hdistinct : st.keys.Nodup := by
    have hkeys : st.keys = st₀.keys := by
      have hmap := congrArg (List.map Prod.fst) hsame.state
      rwa [map_map, map_map] at hmap
    rw [hkeys]
    exact hunfilled.distinct
  refine ⟨st, hst, hsame, fun i s hi key hkey => ⟨fun hin => ?_, fun hnin => ?_⟩, ?_⟩
  · rw [← hagrees.filled i s hi, SingleState.filled_val, Option.isSome_iff_exists] at hin
    obtain ⟨rs, hrs⟩ := hin
    refine ⟨rs, ?_, (hagrees.holds s (mem_of_getElem? hi)).found key rs hrs⟩
    rw [hagrees.lookup hdistinct hi hkey, hrs]
  · rw [← hagrees.filled i s hi, SingleState.filled_val, Option.not_isSome_iff_eq_none] at hnin
    refine ⟨?_, hnin⟩
    rw [hagrees.lookup hdistinct hi hkey, hnin]
  · intro records rows' hfits happ
    refine ⟨fun r => st.hits (Row.val r.row), fun r => ?_, ?_⟩
    · -- all indices are partial, so a row gets in where its key is filled
      unfold hits
      rw [any_eq_false]
      constructor
      · intro hmiss i s hi
        have hs := hmiss s (mem_of_getElem? hi)
        rw [SingleState.hits, hagrees.all_partial s (mem_of_getElem? hi)] at hs
        rw [← hagrees.filled i s hi]
        simpa using hs
      · intro hholes s hs
        obtain ⟨i, hi⟩ := mem_iff_getElem?.mp hs
        have hhole := hholes i s hi
        rw [← hagrees.filled i s hi] at hhole
        rw [SingleState.hits, hagrees.all_partial s hs]
        simpa using hhole
    · obtain ⟨st', hst', -⟩ := process_records_holds hagrees.holds hfits happ
      have hne : st.state ≠ [] := by
        intro hnil
        have hmap := hsame.state
        rw [hnil] at hmap
        exact withPartialKeys_ne_nil hbuilt hsome (map_eq_nil_iff.mp hmap.symm)
      obtain ⟨s, hs⟩ := exists_mem_of_ne_nil _ hne
      have hwith : st.is_partial = true := any_eq_true.mpr ⟨s, hs, hagrees.all_partial s hs⟩
      rw [hwith, if_pos rfl] at hst'
      exact ⟨st', hst'⟩

/-- Without any index the state does not count as partial, and keeps
    records that no index has a place for. -/
theorem no_index_keeps_records :
    MemoryState.withPartialKeys [] = some .default ∧
      PartialOp.Run .default ⟨0, ∅⟩ [] ⟨0, ∅⟩ ∧
      ¬ ∃ keep : Record → Bool,
        (∀ r, keep r = false ↔ ∀ i s, MemoryState.default.state[i]? = some s →
          (i, VRow.proj s.key (Row.val r.row)) ∉ (∅ : Set (Nat × VRow))) ∧
        ∃ st', MemoryState.default.process_records [.positive [.int 1]] none =
          some ([Record.positive [.int 1]].filter keep, st') := by
  refine ⟨rfl, .nil _, ?_⟩
  rintro ⟨keep, hkeep, st', hst'⟩
  have hdrop : keep (.positive [.int 1]) = false := (hkeep _).mpr fun _ _ _ => Set.notMem_empty _
  have hall : MemoryState.default.process_records [.positive [.int 1]] none =
      some ([.positive [.int 1]], .default) := rfl
  rw [hall, filter_cons, hdrop] at hst'
  cases hst'

def oneKey : MemoryState := ⟨[⟨[0], ∅, true, 0⟩], AssocMap.insert ∅ 1 0⟩

/-- A key is filled with the one row of the source, which gets another. -/
def fillAndChange : List PartialOp :=
  [.fill 1 [.int 1] [[.int 1, .int 5]], .change [.positive [.int 1, .int 6]]]

theorem oneKey_follows_source : ∃ st, fillAndChange.foldlM MemoryState.perform oneKey = some st ∧
    ∃ rs, st.lookup [0] [.int 1] = some (.some rs) ∧
      (rs.map Row.val : Multiset VRow) =
        rowsOf [0] [.int 1] {[.int 1, .int 6], [.int 1, .int 5]} := by
  have hbuilt : MemoryState.withPartialKeys [([0], [1])] = some oneKey := rfl
  have hfill : (PartialOp.fill 1 [.int 1] [[.int 1, .int 5]]).Follows oneKey
      ⟨{[.int 1, .int 5]}, ∅⟩ ⟨{[.int 1, .int 5]}, ∅ ∪ {(0, [.int 1])}⟩ :=
    .fill rfl rfl rfl (Set.notMem_empty _) (by decide) (by decide)
  have hchange : (PartialOp.change [.positive [.int 1, .int 6]]).Follows oneKey
      ⟨{[.int 1, .int 5]}, ∅ ∪ {(0, [.int 1])}⟩
      ⟨{[.int 1, .int 6], [.int 1, .int 5]}, ∅ ∪ {(0, [.int 1])}⟩ :=
    .change (by decide) (.ins (.nil _))
  have hrun : PartialOp.Run oneKey _ fillAndChange _ := .snoc (.snoc (.nil _) hfill) hchange
  obtain ⟨st, hst, hsame, hlookup, -⟩ := filled_keys_follow_source hbuilt (by decide) hrun
  obtain ⟨s, hs, hkey, -⟩ := hsame.get (i := 0) rfl
  have hkey : s.key = [0] := hkey
  obtain ⟨rs, hrs, hbag⟩ := (hlookup 0 s hs [.int 1] (by rw [hkey]; rfl)).1 (Or.inr rfl)
  rw [hkey] at hrs hbag
  exact ⟨st, hst, rs, hrs, hbag⟩

end Noria.Server

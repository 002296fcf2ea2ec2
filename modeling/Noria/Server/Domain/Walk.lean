import Noria.Framework.Returns
import Noria.Server.Domain.Eviction

/-! # Evictions along a path

  While an eviction goes on, keys only go away from indices and readers, and messages to other
  domains only accumulate (`Advances`). A node hands the keys on and has them no more if it is
  willing, and panics otherwise: a sharder has to split the eviction by its column, and a reader
  must not have to free more bytes than it counts (`Willing`). So a path is walked to its end
  exactly if all its nodes are willing (`walk_path_returns`).
-/

namespace Noria.Server.Domain

open Noria (bytesOf)
open List Option

/-! ## Progress of an eviction

  Keys only go away, and a reader is changed only to lose all the keys. -/

/-- An index after an eviction. -/
structure IndexShrinks (s s' : SingleState) : Prop where
  key : s'.key = s.key
  hole : ∀ k, s.state.get? k = none → s'.state.get? k = none

/-- The indices of a node after an eviction. -/
structure StateShrinks (st st' : MemoryState) : Prop where
  by_tag : st'.by_tag = st.by_tag
  indices : List.Forall₂ IndexShrinks st.state st'.state

/-- What a reader frees for the keys, a key that is given twice counted twice. -/
def WriteHandle.cost (w : WriteHandle) (keys : List Row) : Nat := (keys.map w.sizeAt).sum

/-- The reader `w` has lost the keys, and could pay for it. -/
structure Cleared (keys : List Row) (w w' : WriteHandle) : Prop where
  key : w'.key = w.key
  paid : w.cost keys ≤ w.mem_size
  hole : ∀ k, w.rows.get? k = none → w'.rows.get? k = none
  keys : ∀ k ∈ keys, w'.rows.get? k = none

/-- The reader `w` after an eviction of `keys`. -/
def WriterShrinks (keys : List Row) (w w' : WriteHandle) : Prop := w' = w ∨ Cleared keys w w'

/-- An eviction of `keys` has come from `s` to `s'`. -/
structure Advances {σ : Type} (keys : List Row) (s s' : Contents σ) : Prop where
  state : ∀ n, Option.Rel StateShrinks (s.state n) (s'.state n)
  writers : ∀ n, Option.Rel (WriterShrinks keys) (s.writers n) (s'.writers n)
  sent : ∀ m ∈ s.sent, m ∈ s'.sent
  passed : ∀ c ∈ s.passed, c ∈ s'.passed

section Progress

variable {σ : Type} {keys : List Row}

theorem IndexShrinks.refl (s : SingleState) : IndexShrinks s s := ⟨rfl, fun _ h => h⟩

theorem IndexShrinks.trans {s s₁ s₂ : SingleState} (h : IndexShrinks s s₁)
    (h' : IndexShrinks s₁ s₂) : IndexShrinks s s₂ :=
  ⟨h'.key.trans h.key, fun k hk => h'.hole k (h.hole k hk)⟩

theorem StateShrinks.refl (st : MemoryState) : StateShrinks st st :=
  ⟨rfl, forall₂_same.mpr fun s _ => .refl s⟩

theorem StateShrinks.trans {st st₁ st₂ : MemoryState} (h : StateShrinks st st₁)
    (h' : StateShrinks st₁ st₂) : StateShrinks st st₂ where
  by_tag := h'.by_tag.trans h.by_tag
  indices := by
    have htrans : ∀ {l l₁ l₂ : List SingleState}, List.Forall₂ IndexShrinks l l₁ →
        List.Forall₂ IndexShrinks l₁ l₂ → List.Forall₂ IndexShrinks l l₂ := by
      intro l l₁ l₂ hl hl'
      induction hl generalizing l₂ with
      | nil => exact hl'
      | cons hs _ ih =>
        cases hl' with
        | cons hs' hrest => exact .cons (hs.trans hs') (ih hrest)
    exact htrans h.indices h'.indices

theorem WriterShrinks.trans {w w₁ w₂ : WriteHandle} (h : WriterShrinks keys w w₁)
    (h' : WriterShrinks keys w₁ w₂) : WriterShrinks keys w w₂ := by
  rcases h' with rfl | h'
  · exact h
  · rcases h with rfl | h
    · exact .inr h'
    · exact .inr ⟨h'.key.trans h.key, h.paid, fun k hk => h'.hole k (h.hole k hk), h'.keys⟩

theorem WriterShrinks.hole {w w' : WriteHandle} (h : WriterShrinks keys w w') {k : Row}
    (hk : w.rows.get? k = none) : w'.rows.get? k = none := by
  rcases h with rfl | h
  · exact hk
  · exact h.hole k hk

theorem WriterShrinks.key {w w' : WriteHandle} (h : WriterShrinks keys w w') : w'.key = w.key := by
  rcases h with rfl | h
  · rfl
  · exact h.key

theorem optionRel_refl {α : Type} {R : α → α → Prop} (h : ∀ a, R a a) (x : Option α) :
    Option.Rel R x x := by
  cases x with
  | none => exact .none
  | some a => exact .some (h a)

theorem optionRel_trans {α : Type} {R : α → α → Prop} (h : ∀ a b c, R a b → R b c → R a c)
    {x y z : Option α} (hxy : Option.Rel R x y) (hyz : Option.Rel R y z) : Option.Rel R x z := by
  cases hxy with
  | none => exact hyz
  | some hab =>
    cases hyz with
    | some hbc => exact .some (h _ _ _ hab hbc)

theorem Advances.refl (s : Contents σ) : Advances keys s s :=
  ⟨fun _ => optionRel_refl .refl _, fun _ => optionRel_refl (fun _ => .inl rfl) _, fun _ h => h,
    fun _ h => h⟩

theorem Advances.trans {s s₁ s₂ : Contents σ} (h : Advances keys s s₁)
    (h' : Advances keys s₁ s₂) : Advances keys s s₂ :=
  ⟨fun n => optionRel_trans (fun _ _ _ => .trans) (h.state n) (h'.state n),
    fun n => optionRel_trans (fun _ _ _ => .trans) (h.writers n) (h'.writers n),
    fun m hm => h'.sent m (h.sent m hm), fun c hc => h'.passed c (h.passed c hc)⟩

end Progress

/-! ## Readers -/

namespace WriteHandle

variable {w : WriteHandle} {keys : List Row}

theorem get?_foldl_erase (m : AssocMap Row (List Row)) (keys : List Row) (k : Row) :
    (keys.foldl AssocMap.erase m).get? k = if keys.any (· == k) then none else m.get? k := by
  induction keys generalizing m with
  | nil => rfl
  | cons key keys ih =>
    rw [foldl_cons, ih, AssocMap.get?_erase, any_cons]
    cases hkey : key == k with
    | true => simp
    | false => simp

theorem markHoles_from (hkeys : ∀ k ∈ keys, w.keyFits k = true) (mem_size : Nat) :
    keys.foldlM w.mark_hole mem_size =
      if w.cost keys ≤ mem_size then some (mem_size - w.cost keys) else none := by
  induction keys generalizing mem_size with
  | nil => rfl
  | cons key keys ih =>
    have hcost : w.cost (key :: keys) = w.sizeAt key + w.cost keys := sum_cons
    rw [foldlM_cons, mark_hole, if_pos (hkeys key mem_cons_self), hcost]
    by_cases hsize : w.sizeAt key ≤ mem_size
    · rw [if_pos hsize, bind_eq_bind, bind_some, ih (forall_mem_cons.mp hkeys).2]
      by_cases hrest : w.cost keys ≤ mem_size - w.sizeAt key
      · rw [if_pos hrest, if_pos (by omega), Nat.sub_sub]
      · rw [if_neg hrest, if_neg (by omega)]
    · rw [if_neg hsize, if_neg (by omega)]
      rfl

/-- **A reader** can free the keys exactly if it holds as many bytes. -/
theorem on_eviction_eq (hkeys : ∀ k ∈ keys, w.keyFits k = true) :
    w.on_eviction keys = if w.cost keys ≤ w.mem_size then
      some ⟨w.key, keys.foldl AssocMap.erase w.rows, w.mem_size - w.cost keys⟩ else none := by
  rw [on_eviction, markHoles, markHoles_from hkeys]
  split <;> rfl

theorem cost_eq_zero (h : ∀ k ∈ keys, w.rows.get? k = none) : w.cost keys = 0 := by
  refine sum_eq_zero fun n hn => ?_
  obtain ⟨k, hk, rfl⟩ := mem_map.mp hn
  rw [sizeAt, h k hk]
  rfl

theorem cleared_on_eviction (hpaid : w.cost keys ≤ w.mem_size) (mem_size : Nat) :
    Cleared keys w ⟨w.key, keys.foldl AssocMap.erase w.rows, mem_size⟩ := by
  refine ⟨rfl, hpaid, fun k hk => ?_, fun k hk => ?_⟩
  · rw [get?_foldl_erase, hk]
    split <;> rfl
  · have hany : keys.any (· == k) = true := any_eq_true.mpr ⟨k, hk, BEq.rfl⟩
    rw [get?_foldl_erase, if_pos hany]

theorem paid_iff {w' : WriteHandle} (h : WriterShrinks keys w w') :
    w'.cost keys ≤ w'.mem_size ↔ w.cost keys ≤ w.mem_size := by
  rcases h with rfl | h
  · rfl
  · rw [cost_eq_zero h.keys]
    exact iff_of_true (Nat.zero_le _) h.paid

end WriteHandle

/-! ## Indices -/

section Indices

variable {σ : Type} {keys : List Row}

/-- The index for a tag at a node. -/
structure IndexAt (s : Contents σ) (n : Nat) (tag : Tag) (index : SingleState) : Prop where
  found : ∃ st i, s.state n = some st ∧ st.by_tag.get? tag = some i ∧ st.state[i]? = some index

def IndexHole (s : Contents σ) (n : Nat) (tag : Tag) (k : Row) : Prop :=
  ∃ index, IndexAt s n tag index ∧ index.state.get? k = none

/-- The key is a hole in a reader. -/
def ReaderHole (s : Contents σ) (n : Nat) (k : Row) : Prop :=
  ∃ w, s.writers n = some w ∧ w.rows.get? k = none

theorem Advances.indexAt {s s' : Contents σ} (h : Advances keys s s') {n : Nat} {tag : Tag}
    {index : SingleState} (hindex : IndexAt s n tag index) :
    ∃ index', IndexAt s' n tag index' ∧ IndexShrinks index index' := by
  obtain ⟨st, i, hst, htag, hi⟩ := hindex.found
  have hrel := h.state n
  rw [hst] at hrel
  generalize hst' : s'.state n = y at hrel
  cases hrel with
  | some hshrinks =>
    rename_i st'
    obtain ⟨index', hi', hshrink⟩ : ∃ index', st'.state[i]? = some index' ∧
        IndexShrinks index index' := by
      obtain ⟨hlt, rfl⟩ := List.getElem?_eq_some_iff.mp hi
      have hlt' : i < st'.state.length := hshrinks.indices.length_eq ▸ hlt
      exact ⟨st'.state[i], getElem?_eq_getElem hlt', hshrinks.indices.get hlt hlt'⟩
    exact ⟨index', ⟨st', i, hst', by rw [hshrinks.by_tag, htag], hi'⟩, hshrink⟩

theorem Advances.indexHole {s s' : Contents σ} (h : Advances keys s s') {n : Nat} {tag : Tag}
    {k : Row} (hk : IndexHole s n tag k) : IndexHole s' n tag k := by
  obtain ⟨index, hindex, hk⟩ := hk
  obtain ⟨index', hindex', hshrinks⟩ := h.indexAt hindex
  exact ⟨index', hindex', hshrinks.hole k hk⟩

theorem Advances.writer {s s' : Contents σ} (h : Advances keys s s') {n : Nat} {w : WriteHandle}
    (hw : s.writers n = some w) : ∃ w', s'.writers n = some w' ∧ WriterShrinks keys w w' := by
  have hrel := h.writers n
  rw [hw] at hrel
  generalize hw' : s'.writers n = y at hrel
  cases hrel with
  | some hshrinks => exact ⟨_, rfl, hshrinks⟩

theorem Advances.readerHole {s s' : Contents σ} (h : Advances keys s s') {n : Nat} {k : Row}
    (hk : ReaderHole s n k) : ReaderHole s' n k := by
  obtain ⟨w, hw, hk⟩ := hk
  obtain ⟨w', hw', hshrinks⟩ := h.writer hw
  exact ⟨w', hw', hshrinks.hole hk⟩

theorem evict_keys_index {index : SingleState} (hkeys : ∀ k ∈ keys, k.length = index.key.length) :
    index.evict_keys keys = some { index with state := keys.foldl AssocMap.erase index.state } := by
  induction keys generalizing index with
  | nil => rfl
  | cons key keys ih =>
    have hlen := hkeys key mem_cons_self
    have hkey : index.keyOf key = some key := by
      rw [SingleState.keyOf, if_neg (by omega), take_of_length_le (by omega)]
    have hrest := @ih { index with state := index.state.erase key }
      (forall_mem_cons.mp hkeys).2
    unfold SingleState.evict_keys at hrest ⊢
    rw [foldlM_cons, hkey]
    exact hrest

/-- **An eviction from the index for a tag.** -/
theorem evict_keys_state {s : Contents σ} {n : Nat} {tag : Tag} {index : SingleState}
    (hindex : IndexAt s n tag index) (hkeys : ∀ k ∈ keys, k.length = index.key.length) :
    ∃ st st', s.state n = some st ∧ st.evict_keys tag keys = some st' ∧
      Advances keys s { s with state := Function.update s.state n (some st') } ∧
      ∀ k ∈ keys, IndexHole { s with state := Function.update s.state n (some st') } n tag k := by
  obtain ⟨st, i, hst, htag, hi⟩ := hindex.found
  obtain ⟨hlt, hget⟩ := List.getElem?_eq_some_iff.mp hi
  let index' : SingleState := { index with state := keys.foldl AssocMap.erase index.state }
  refine ⟨st, { st with state := st.state.set i index' }, hst, ?_, ⟨?_, ?_, fun _ h => h,
    fun _ h => h⟩, ?_⟩
  · simp only [MemoryState.evict_keys, htag, hi, bind_eq_bind, bind_some,
      evict_keys_index hkeys]
    rfl
  · intro m
    by_cases hm : m = n
    · subst hm
      simp only [Function.update_self, hst]
      refine .some ⟨rfl, forall₂_iff_get.mpr ⟨by simp, fun j hj hj' => ?_⟩⟩
      simp only [get_eq_getElem, getElem_set]
      split
      · rename_i hij
        subst hij
        rw [hget]
        refine ⟨rfl, fun k hk => ?_⟩
        rw [WriteHandle.get?_foldl_erase, hk]
        split <;> rfl
      · exact .refl _
    · simp only [Function.update_of_ne hm]
      exact optionRel_refl .refl _
  · intro m
    exact optionRel_refl (fun _ => .inl rfl) _
  · intro k hk
    refine ⟨index', ⟨_, i, Function.update_self .., htag, getElem?_set_self hlt⟩, ?_⟩
    have hany : keys.any (· == k) = true := any_eq_true.mpr ⟨k, hk, BEq.rfl⟩
    rw [WriteHandle.get?_foldl_erase, if_pos hany]

end Indices

/-! ## Nodes -/

section Nodes

variable {σ : Type} (D : Domain σ) {keys : List Row}

/-- What the controller sets up for a node on a path: an egress node knows
    the path, a sharder has shards, a reader its state. -/
def NodeReady (s : Contents σ) (tag : Tag) (width : Nat) (n : Nat) : Prop :=
  match D.nodes n with
  | .egress (some e) =>
    ∃ replay_to tx, e.tags.get? tag = some replay_to ∧ tx ∈ e.txs ∧ tx.node = replay_to
  | .egress none => False
  | .source => False
  | .sharder sh => sh.txs ≠ []
  | .reader => ∃ w, s.writers n = some w ∧ w.key.length = width
  | _ => True

/-- Values that there is a shard for: NULL, integers and texts that are valid UTF-8. -/
def Shardable (d : DataType) : Prop :=
  match d with
  | .real _ _ => False
  | .timestamp _ => False
  | .text _ | .tinyText _ => ∃ s, d.to_str = some s
  | _ => True

/-- The eviction can be split among the shards. -/
def SplitBy (sh : Sharder) (cols : List Nat) (keys : List Row) : Prop :=
  D.shard = none ∧ cols = [sh.shard_by] ∧ ∀ k ∈ keys, ∀ d ∈ k.head?, Shardable d

/-- What an eviction may ask of a node: to split it if it is a sharder, and
    no more bytes than it has if it is a reader. -/
def Willing (s : Contents σ) (keys : List Row) (n : Nat) (cols : List Nat) : Prop :=
  match D.nodes n with
  | .sharder sh => SplitBy D sh cols keys
  | .reader => ∀ w, s.writers n = some w → w.cost keys ≤ w.mem_size
  | _ => True

/-- The key has been sent to node `dst` of the domain at `addr`. -/
def Sent (s : Contents σ) (addr dst : Nat) (tag : Tag) (k : Row) : Prop :=
  ∃ m ∈ s.sent, m.addr = addr ∧ m.dst = dst ∧ m.tag = tag ∧ k ∈ m.keys

/-- What a node has done with the keys. An egress node has sent them to the node that follows on the
    path, and a sharder each of them to the key's shard. -/
structure Handled (s : Contents σ) (tag : Tag) (keys : List Row) (n : Nat) : Prop where
  passed : (n, tag, keys) ∈ s.passed
  reader : D.nodes n = .reader → ∀ k ∈ keys, ReaderHole s n k
  egress : ∀ e, D.nodes n = .egress (some e) →
    ∃ tx ∈ e.txs, e.tags.get? tag = some tx.node ∧ ∀ k ∈ keys, Sent s tx.dest tx.localNode tag k
  sharder : ∀ sh, D.nodes n = .sharder sh → ∀ k ∈ keys, ∃ d shard tx, k.head? = some d ∧
    shard_by D.hash_text d sh.txs.length = some shard ∧ sh.txs[shard]? = some tx ∧
    Sent s tx.2 tx.1 tag k

variable {D}

theorem Sent.advances {s s' : Contents σ} {addr dst : Nat} {tag : Tag} {k : Row}
    (h : Sent s addr dst tag k) (hadv : Advances keys s s') : Sent s' addr dst tag k := by
  obtain ⟨m, hm, hmk⟩ := h
  exact ⟨m, hadv.sent m hm, hmk⟩

theorem Handled.advances {s s' : Contents σ} {tag : Tag} {n : Nat} (h : Handled D s tag keys n)
    (hadv : Advances keys s s') : Handled D s' tag keys n where
  passed := hadv.passed _ h.passed
  reader hn k hk := hadv.readerHole (h.reader hn k hk)
  egress e he := by
    obtain ⟨tx, htx, htag, hsent⟩ := h.egress e he
    exact ⟨tx, htx, htag, fun k hk => (hsent k hk).advances hadv⟩
  sharder sh hsh k hk := by
    obtain ⟨d, shard, tx, hd, hshard, htx, hsent⟩ := h.sharder sh hsh k hk
    exact ⟨d, shard, tx, hd, hshard, htx, hsent.advances hadv⟩

theorem NodeReady.advances {s s' : Contents σ} {tag : Tag} {width n : Nat}
    (h : NodeReady D s tag width n) (hadv : Advances keys s s') : NodeReady D s' tag width n := by
  unfold NodeReady at h ⊢
  split at h <;> try exact h
  obtain ⟨w, hw, hkey⟩ := h
  obtain ⟨w', hw', hshrinks⟩ := hadv.writer hw
  exact ⟨w', hw', by rw [hshrinks.key, hkey]⟩

theorem willing_advances {s s' : Contents σ} (hadv : Advances keys s s') (n : Nat)
    (cols : List Nat) : Willing D s keys n cols ↔ Willing D s' keys n cols := by
  unfold Willing
  split <;> try exact Iff.rfl
  have hrel := hadv.writers n
  revert hrel
  cases s.writers n with
  | none =>
    cases s'.writers n with
    | none => exact fun _ => Iff.rfl
    | some w' => exact fun hrel => nomatch hrel
  | some w =>
    cases s'.writers n with
    | none => exact fun hrel => nomatch hrel
    | some w' =>
      intro hrel
      cases hrel with
      | some hshrinks => simpa using (WriteHandle.paid_iff hshrinks).symm

theorem rem_of_ne_zero {shards : Nat} (h : shards ≠ 0) (n : Nat) :
    rem n shards = some (n % shards) := if_neg h

theorem shard_by_lt (hash_text : List UInt8 → Nat) {d : DataType} {shards : Nat}
    (h : shards ≠ 0) (hd : Shardable d) :
    ∃ i, shard_by hash_text d shards = some i ∧ i < shards := by
  have hpos : 0 < shards := Nat.pos_of_ne_zero h
  cases d with
  | real i f => exact absurd hd id
  | timestamp t => exact absurd hd id
  | none => exact ⟨0, rfl, hpos⟩
  | text t | tinyText t =>
    obtain ⟨s, hs⟩ := hd
    exact ⟨_, by rw [shard_by, hs]; exact rem_of_ne_zero h _, Nat.mod_lt _ hpos⟩
  | _ => exact ⟨_, rem_of_ne_zero h _, Nat.mod_lt _ hpos⟩

theorem shard_by_none {hash_text : List UInt8 → Nat} {d : DataType} (shards : Nat)
    (hd : ¬Shardable d) : shard_by hash_text d shards = none := by
  cases d with
  | real i f => rfl
  | timestamp t => rfl
  | text t | tinyText t =>
    rw [shard_by, eq_none_iff_forall_ne_some.mpr fun s hs => hd ⟨s, hs⟩]
    rfl
  | _ => exact absurd trivial hd

/-- The bits of the length of a vector do not vanish when they are negated. -/
theorem not_length_ne_zero {width : Nat} (h : width < 2 ^ 63) : ~~~(UInt64.ofNat width) ≠ 0 := by
  intro hzero
  have hnat : (~~~(UInt64.ofNat width)).toNat = 0 := by rw [hzero]; rfl
  rw [UInt64.toNat_not, UInt64.toNat_ofNat_of_lt' (Nat.lt_trans h (by decide))] at hnat
  simp only [UInt64.size] at hnat
  omega

/-- A sharder can split an eviction: it is for the column that is sharded by,
    and each key has a shard. -/
def Sharder.Splits (sh : Sharder) (cols : List Nat) (keys : List Row) (is_sharded : Bool) : Prop :=
  is_sharded = false ∧ cols = [sh.shard_by] ∧
    ∀ k ∈ keys, sh.txs ≠ [] ∧ ∃ d, k.head? = some d ∧ Shardable d

section Sharder

variable {sh : Sharder} {hash_text : List UInt8 → Nat} {cols : List Nat} {is_sharded : Bool}

theorem Sharder.process_eviction_split (hash_text : List UInt8 → Nat)
    (hsplit : sh.Splits cols keys is_sharded) (tag : Tag) (n : Nat) :
    ∃ sent, sh.process_eviction hash_text cols tag keys n is_sharded = some sent ∧
      ∀ k ∈ keys, ∃ d shard tx, k.head? = some d ∧ Shardable d ∧
        Domain.shard_by hash_text d sh.txs.length = some shard ∧ sh.txs[shard]? = some tx ∧
        ∃ m ∈ sent, m.addr = tx.2 ∧ m.dst = tx.1 ∧ m.tag = tag ∧ k ∈ m.keys := by
  obtain ⟨hsharded, hcols, hkeys⟩ := hsplit
  have hsome : ∀ k ∈ keys, ∃ e : Nat × Row, (do
      let dt ← k.head?
      let shard ← Domain.shard_by hash_text dt sh.txs.length
      let _ ← sh.txs[shard]?
      some (shard, k) : Option (Nat × Row)) = some e ∧ e.2 = k ∧ ∃ d tx, k.head? = some d ∧
        Shardable d ∧ Domain.shard_by hash_text d sh.txs.length = some e.1 ∧
        sh.txs[e.1]? = some tx := by
    intro k hk
    obtain ⟨htxs, d, hd, hshardable⟩ := hkeys k hk
    obtain ⟨i, hi, hlt⟩ := shard_by_lt hash_text (mt length_eq_zero_iff.mp htxs) hshardable
    exact ⟨(i, k), by simp [hd, hi, hlt], rfl, d, sh.txs[i], hd, hshardable, hi,
      getElem?_eq_getElem hlt⟩
  obtain ⟨sharded, hmap, hrel⟩ := mapM_option_forall₂ hsome
  rw [Sharder.process_eviction, hsharded, if_neg (by simp), if_pos hcols, hmap]
  refine ⟨_, rfl, fun k hk => ?_⟩
  obtain ⟨i, hi, rfl⟩ := mem_iff_getElem.mp hk
  have hi' : i < sharded.length := hrel.length_eq ▸ hi
  obtain ⟨hek, d, tx, hd, hshardable, hshard, htx⟩ := hrel.get hi hi'
  have he : sharded.get ⟨i, hi'⟩ ∈ sharded := get_mem _ _
  generalize sharded.get ⟨i, hi'⟩ = e at he hek hshard htx
  have hmem : e ∈ sharded.filter fun e' => e'.1 == e.1 :=
    mem_filter.mpr ⟨he, beq_self_eq_true e.1⟩
  refine ⟨d, e.1, tx, hd, hshardable, hshard, htx, ⟨tx.2, n, tx.1, tag,
    (sharded.filter fun e' => e'.1 == e.1).map Prod.snd⟩, mem_filterMap.mpr
      ⟨(tx, e.1), mk_mem_zipIdx_iff_getElem?.mpr htx, ?_⟩, rfl, rfl, rfl,
    mem_map.mpr ⟨e, hmem, hek⟩⟩
  split
  · rename_i hnil
    rw [hnil] at hmem
    exact absurd hmem not_mem_nil
  · rfl

theorem Sharder.process_eviction_none (hcols : cols.length < 2 ^ 63)
    (hsplit : ¬sh.Splits cols keys is_sharded) (tag : Tag) (n : Nat) :
    sh.process_eviction hash_text cols tag keys n is_sharded = none := by
  rw [Sharder.process_eviction]
  cases is_sharded with
  | true => rfl
  | false =>
    rw [if_neg (by simp)]
    by_cases heq : cols = [sh.shard_by]
    · rw [if_pos heq]
      -- some key has no shard
      have hkey : ∃ k ∈ keys, sh.txs ≠ [] → ∀ d, k.head? = some d → ¬Shardable d := by
        by_contra hall
        push Not at hall
        exact hsplit ⟨rfl, heq, hall⟩
      obtain ⟨k, hk, hnot⟩ := hkey
      rw [mapM_option_none ⟨k, hk, ?_⟩]
      · rfl
      · by_cases htxs : sh.txs = []
        · simp [htxs]
        · cases hd : k.head? with
          | none => rfl
          | some d => simp [shard_by_none _ (hnot htxs d hd)]
    · rw [if_neg heq, if_pos (not_length_ne_zero hcols)]

end Sharder

theorem splits_iff_splitBy {sh : Sharder} {cols : List Nat} (htxs : sh.txs ≠ [])
    (hkeys : ∀ k ∈ keys, k ≠ []) : sh.Splits cols keys D.shard.isSome ↔ SplitBy D sh cols keys := by
  refine and_congr (by simp) (and_congr Iff.rfl (forall₂_congr fun k hk => ?_))
  obtain ⟨d, rest, rfl⟩ := exists_cons_of_ne_nil (hkeys k hk)
  simp [htxs]

theorem Advances.of_sent {s s' : Contents σ} (hstate : s'.state = s.state)
    (hwriters : s'.writers = s.writers) (hsent : s.sent ⊆ s'.sent)
    (hpassed : s.passed ⊆ s'.passed) : Advances keys s s' := by
  refine ⟨fun n => ?_, fun n => ?_, fun m hm => hsent hm, fun c hc => hpassed hc⟩
  · rw [hstate]
    exact optionRel_refl .refl _
  · rw [hwriters]
    exact optionRel_refl (fun _ => .inl rfl) _

theorem Advances.of_writer {s : Contents σ} {n : Nat} {w w' : WriteHandle}
    (hw : s.writers n = some w) (h : WriterShrinks keys w w') :
    Advances keys s { s with writers := Function.update s.writers n (some w') } := by
  refine ⟨fun m => optionRel_refl .refl _, fun m => ?_, fun m hm => hm, fun c hc => hc⟩
  by_cases hm : m = n
  · subst hm
    simp only [Function.update_self, hw]
    exact .some h
  · simp only [Function.update_of_ne hm]
    exact optionRel_refl (fun _ => .inl rfl) _

variable {s : Contents σ} {tag : Tag} {width n : Nat} {cols : List Nat}

theorem Egress.process_ready {e : Egress} {replay_to : Nat} {tx : EgressTx}
    (htag : e.tags.get? tag = some replay_to) (htx : tx ∈ e.txs) (hnode : tx.node = replay_to)
    (keys : List Row) (shard : Nat) :
    ∃ sent, e.process tag keys shard = some sent ∧ ∃ tx ∈ e.txs, tx.node = replay_to ∧
      ∃ m ∈ sent, m.addr = tx.dest ∧ m.dst = tx.localNode ∧ m.tag = tag ∧ m.keys = keys := by
  have hfind : (e.txs.find? fun tx => tx.node == replay_to).isSome := by
    rw [find?_isSome]
    exact ⟨tx, htx, beq_iff_eq.mpr hnode⟩
  obtain ⟨tx', htx'⟩ := isSome_iff_exists.mp hfind
  have hne : e.txs.isEmpty = false := by
    rw [isEmpty_eq_false_iff]
    exact ne_nil_of_mem htx
  have hnode' : tx'.node = replay_to := by simpa using find?_some htx'
  refine ⟨[⟨tx'.dest, shard, tx'.localNode, tag, keys⟩], ?_, tx', mem_of_find?_eq_some htx',
    hnode', _, mem_singleton_self _, rfl, rfl, rfl, rfl⟩
  simp [Egress.process, hne, htag, htx']

theorem Sent.of_append {sent : List EvictKeys} {addr dst : Nat} {k : Row}
    (h : ∃ m ∈ sent, m.addr = addr ∧ m.dst = dst ∧ m.tag = tag ∧ k ∈ m.keys) :
    Sent { s with sent := s.sent ++ sent } addr dst tag k := by
  obtain ⟨m, hm, hmk⟩ := h
  exact ⟨m, mem_append_right _ hm, hmk⟩

theorem Advances.append_sent (sent : List EvictKeys) :
    Advances keys s { s with sent := s.sent ++ sent } :=
  .of_sent rfl rfl (subset_append_left _ _) (List.Subset.refl _)

theorem reader_eviction {w : WriteHandle} (hw : s.writers n = some w)
    (hfits : ∀ k ∈ keys, w.keyFits k = true) (hpaid : w.cost keys ≤ w.mem_size) :
    ∃ w', w.on_eviction keys = some w' ∧
      Advances keys s { s with writers := Function.update s.writers n (some w') } ∧
      ∀ k ∈ keys, ReaderHole { s with writers := Function.update s.writers n (some w') } n k := by
  rw [WriteHandle.on_eviction_eq hfits, if_pos hpaid]
  have hcleared := WriteHandle.cleared_on_eviction hpaid (w.mem_size - w.cost keys)
  exact ⟨_, rfl, .of_writer hw (.inr hcleared), fun k hk =>
    ⟨_, Function.update_self .., hcleared.keys k hk⟩⟩

section Keys

variable (hwidth : keyLength width = true) (hkeys : ∀ k ∈ keys, k.length = width)

include hkeys in
theorem keyFits_of_length {w : WriteHandle} (hkey : w.key.length = width) :
    ∀ k ∈ keys, w.keyFits k = true := by
  intro k hk
  simp [WriteHandle.keyFits, hkeys k hk, hkey]

include hwidth hkeys

theorem ne_nil_of_length : ∀ k ∈ keys, k ≠ [] := by
  rintro k hk rfl
  rw [← hkeys _ hk] at hwidth
  cases hwidth

/-- **A node that is willing** hands the keys on, and has them no more. -/
theorem nodeEviction_ok (hready : NodeReady D s tag width n) (hpassed : (n, tag, keys) ∈ s.passed)
    (hwilling : Willing D s keys n cols) (src : Nat) :
    ∃ s', D.nodeEviction n src cols keys tag s = some s' ∧ Advances keys s s' ∧
      Handled D s' tag keys n := by
  unfold NodeReady at hready
  unfold Willing at hwilling
  unfold nodeEviction
  cases hn : D.nodes n with
  | base => exact ⟨s, rfl, .refl s, hpassed, by simp [hn], by simp [hn], by simp [hn]⟩
  | ingress => exact ⟨s, rfl, .refl s, hpassed, by simp [hn], by simp [hn], by simp [hn]⟩
  | dropped => exact ⟨s, rfl, .refl s, hpassed, by simp [hn], by simp [hn], by simp [hn]⟩
  | internal =>
    exact ⟨_, rfl, .of_sent rfl rfl (fun _ h => h) (fun _ h => h), hpassed, by simp [hn],
      by simp [hn], by simp [hn]⟩
  | source => simp [hn] at hready
  | egress e =>
    cases e with
    | none => simp [hn] at hready
    | some e =>
      simp only [hn] at hready
      obtain ⟨replay_to, tx, htag, htx, hnode⟩ := hready
      obtain ⟨sent, hsent, tx', htx', hnode', m, hm, haddr, hdst, hmtag, hmkeys⟩ :=
        Egress.process_ready htag htx hnode keys (D.shard.getD 0)
      refine ⟨{ s with sent := s.sent ++ sent }, by simp [hsent], .append_sent sent, hpassed,
        by simp [hn], fun e' he => ?_, by simp [hn]⟩
      obtain rfl : e = e' := by simpa [hn] using he
      exact ⟨tx', htx', by rw [htag, hnode'], fun k hk =>
        .of_append ⟨m, hm, haddr, hdst, hmtag, hmkeys ▸ hk⟩⟩
  | sharder sh =>
    simp only [hn] at hready hwilling
    have hne := ne_nil_of_length hwidth hkeys
    obtain ⟨sent, hsent, hsentAll⟩ := Sharder.process_eviction_split D.hash_text
      ((splits_iff_splitBy hready hne).mpr hwilling) tag n
    refine ⟨{ s with sent := s.sent ++ sent }, by simp [hsent], .append_sent sent, hpassed,
      by simp [hn], by simp [hn], fun sh' hsh k hk => ?_⟩
    obtain rfl : sh = sh' := by simpa [hn] using hsh
    obtain ⟨d, shard, tx, hd, -, hshard, htx, hm⟩ := hsentAll k hk
    exact ⟨d, shard, tx, hd, hshard, htx, .of_append hm⟩
  | reader =>
    simp only [hn] at hready hwilling
    obtain ⟨w, hw, hkey⟩ := hready
    obtain ⟨w', hw', hadv, hhole⟩ :=
      reader_eviction hw (keyFits_of_length hkeys hkey) (hwilling w hw)
    exact ⟨_, by simp [hw, hw'], hadv, hpassed, fun _ => hhole, by simp [hn], by simp [hn]⟩

theorem nodeEviction_none (hready : NodeReady D s tag width n) (hcols : cols.length = width)
    (hwilling : ¬Willing D s keys n cols) (src : Nat) :
    D.nodeEviction n src cols keys tag s = none := by
  unfold NodeReady at hready
  unfold Willing at hwilling
  unfold nodeEviction
  cases hn : D.nodes n with
  | sharder sh =>
    simp only [hn] at hready hwilling
    have hlength : cols.length < 2 ^ 63 := by
      simp only [keyLength, Bool.and_eq_true, decide_eq_true_eq] at hwidth
      omega
    have hne := ne_nil_of_length hwidth hkeys
    have hsplit := mt (splits_iff_splitBy hready hne).mp hwilling
    simp [Sharder.process_eviction_none hlength hsplit]
  | reader =>
    simp only [hn] at hready hwilling
    obtain ⟨w, hw, hkey⟩ := hready
    have hfits := keyFits_of_length hkeys hkey
    have hunpaid : ¬w.cost keys ≤ w.mem_size := fun hpaid =>
      hwilling fun w' hw' => by rwa [← some.inj (hw.symm.trans hw')]
    simp [hw, WriteHandle.on_eviction_eq hfits, hunpaid]
  | _ => simp [hn] at hwilling

end Keys

end Nodes

/-! ## Paths -/

section Paths

variable {σ : Type} (D : Domain σ) {keys : List Row}

/-- What the controller sets up for the nodes of a path. -/
structure SegmentReady (s : Contents σ) (tag : Tag) (width : Nat) (seg : ReplayPathSegment) :
    Prop where
  node : NodeReady D s tag width seg.node
  partial_key : ∃ cols, seg.partial_key = some cols ∧ cols.length = width

/-- What the nodes of a path are asked for. -/
def PathWilling (s : Contents σ) (keys : List Row) (path : List ReplayPathSegment) : Prop :=
  ∀ seg ∈ path, ∀ cols ∈ seg.partial_key, Willing D s keys seg.node cols

variable {D} {s : Contents σ} {tag : Tag} {width : Nat}

theorem SegmentReady.advances {s' : Contents σ} {seg : ReplayPathSegment}
    (h : SegmentReady D s tag width seg) (hadv : Advances keys s s') :
    SegmentReady D s' tag width seg := ⟨h.node.advances hadv, h.partial_key⟩

theorem pathWilling_advances {s' : Contents σ} (hadv : Advances keys s s')
    (path : List ReplayPathSegment) : PathWilling D s keys path ↔ PathWilling D s' keys path :=
  forall₄_congr fun seg _ cols _ => willing_advances hadv seg.node cols

variable (hwidth : keyLength width = true) (hkeys : ∀ k ∈ keys, k.length = width)
include hwidth hkeys

theorem process_eviction_returns {seg : ReplayPathSegment} {cols : List Nat} (src : Nat)
    (hready : SegmentReady D s tag width seg) (hcols : seg.partial_key = some cols)
    (hheld : D.held ≠ some seg.node) :
    (Outcome.ofOption (D.process_eviction seg.node src cols keys tag s) :
      Outcome Unit (Contents σ)).Returns (Willing D s keys seg.node cols)
      fun s' => Advances keys s s' ∧ Handled D s' tag keys seg.node := by
  have hlen : cols.length = width := by
    obtain ⟨cols', hcols', hlen⟩ := hready.partial_key
    rwa [some.inj (hcols.symm.trans hcols')]
  have hadv : Advances keys s { s with passed := s.passed ++ [(seg.node, tag, keys)] } :=
    .of_sent rfl rfl (List.Subset.refl _) (subset_append_left _ _)
  have hready' := hready.node.advances hadv
  rw [process_eviction, if_neg hheld]
  refine .ofOption (fun hwilling => ?_) fun hwilling => ?_
  · obtain ⟨s', hs', hadv', hhandled⟩ := nodeEviction_ok hwidth hkeys hready'
      (mem_append_right _ (mem_singleton_self _))
      ((willing_advances hadv _ _).mp hwilling) src
    exact ⟨s', hs', hadv.trans hadv', hhandled⟩
  · exact nodeEviction_none hwidth hkeys hready' hlen
      (mt (willing_advances hadv _ _).mpr hwilling) src

/-- **A path**, node by node. -/
theorem walkFrom_returns {path : List ReplayPathSegment} (src : Nat)
    (hready : ∀ seg ∈ path, SegmentReady D s tag width seg)
    (hheld : ∀ seg ∈ path, D.held ≠ some seg.node) :
    (Outcome.ofOption (D.walkFrom keys tag src path s) : Outcome Unit (Contents σ)).Returns
      (PathWilling D s keys path)
      fun s' => Advances keys s s' ∧ ∀ seg ∈ path, Handled D s' tag keys seg.node := by
  induction path generalizing s src with
  | nil =>
    exact .of_ok ⟨.refl s, fun seg hseg => absurd hseg not_mem_nil⟩
      fun seg hseg => absurd hseg not_mem_nil
  | cons seg path ih =>
    have hseg := hready seg mem_cons_self
    obtain ⟨cols, hcols, -⟩ := hseg.partial_key
    have hfirst := process_eviction_returns hwidth hkeys src hseg hcols (hheld seg mem_cons_self)
    rw [walkFrom, hcols, bind_eq_bind, bind_some, Outcome.ofOption_bind]
    have hrest : ∀ s₁, Advances keys s s₁ ∧ Handled D s₁ tag keys seg.node →
        (Outcome.ofOption (D.walkFrom keys tag seg.node path s₁) :
          Outcome Unit (Contents σ)).Returns (PathWilling D s keys path)
          fun s' => Advances keys s s' ∧ ∀ seg' ∈ seg :: path, Handled D s' tag keys seg'.node := by
      rintro s₁ ⟨hadv, hhandled⟩
      have hwalk := ih (s := s₁) seg.node
        (fun seg' hseg' => (hready seg' (mem_cons_of_mem _ hseg')).advances hadv)
        (forall_mem_cons.mp hheld).2
      refine (hwalk.congr (pathWilling_advances hadv path).symm).mono fun s' hs' =>
        ⟨hadv.trans hs'.1, forall_mem_cons.mpr ⟨hhandled.advances hs'.1, hs'.2⟩⟩
    refine (hfirst.bind hrest).congr ?_
    simp [PathWilling, hcols]

theorem walk_path_returns {path : List ReplayPathSegment} (hne : path ≠ [])
    (hready : ∀ seg ∈ path, SegmentReady D s tag width seg)
    (hheld : ∀ seg ∈ path, D.held ≠ some seg.node) :
    (Outcome.ofOption (D.walk_path path keys tag s) : Outcome Unit (Contents σ)).Returns
      (PathWilling D s keys path)
      fun s' => Advances keys s s' ∧ ∀ seg ∈ path, Handled D s' tag keys seg.node := by
  obtain ⟨first, rest, rfl⟩ := exists_cons_of_ne_nil hne
  exact walkFrom_returns hwidth hkeys first.node hready hheld

end Paths

end Noria.Server.Domain

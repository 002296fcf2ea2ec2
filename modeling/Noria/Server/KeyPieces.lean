import Mathlib.Tactic.FinCases
import Mathlib.Tactic.IntervalCases
import Noria.Framework.BTree
import Noria.Server.KeyReplay

/-! # Pieces of upqueries in a union

  A piece holds the rows of one parent for several keys. Each key is either released, when it was
  the last piece for it, or captured. The loop over the keys is taken apart key by key
  (`storePiece_eq`) and put together again for the packet (`PieceAt.right`, `Gathers.piece`).

  `shard_merger_releases` and `projecting_union_releases` are the results for whole runs. Both need
  the keys of a tag to be of one kind in each column (`OneKind`): otherwise the `BTreeMap` of the
  pieces may not find a response again, and the key is never released (`null_key_stuck`). A
  projecting union files the rows of a piece under the output's key columns before it projects them,
  so its result also needs the key columns to agree (`KeysAgree`); `outer_row_lost` is what happens
  when they do not.
-/

namespace Noria.Server

open Noria.Sqlite (Record Records)
open Gather (pending round gathered)
open List
open AssocMap

namespace Union

variable {B : OrderedMap PieceKey ReplayPieces} {u : Union B} {cols : Tag → List Nat}
  {kinds : Tag → List Kind} {s : Union B} {before rest h : List Packet} {e : Packet}
  {id : PieceKey} {pieces : ReplayPieces} {l : List Row} {k : Row}

/-! ## Storing a piece -/

/-- A response with one more piece. -/
def withPiece (old : Option ReplayPieces) (src : Nat) (rs : Records) : ReplayPieces :=
  match old with
  | some e => { e with buffered := e.buffered.insert src rs }
  | none => ⟨(∅ : AssocMap Nat Records).insert src rs, false⟩

theorem withPiece_get? (s : Union B) (id : PieceKey) (src : Nat) (rs : Records) (src' : Nat) :
    (withPiece (B.get? s.replay_pieces id) src rs).buffered.get? src' =
      if src = src' then some rs else s.bufferOf id src' := by
  unfold bufferOf
  cases B.get? s.replay_pieces id with
  | none => simp [withPiece, get?_insert]
  | some pieces => simp [withPiece, get?_insert]

theorem Gathers.isSome (hg : u.Gathers cols kinds before s) (hid : id.OneKind kinds) (src : Nat) :
    (s.bufferOf id src).isSome =
      (gathered u.parents (before.map (u.note cols id.upquery)) src).isSome := by
  have hrows := hg.rows id src hid
  generalize s.bufferOf id src = b at hrows ⊢
  generalize gathered u.parents (before.map (u.note cols id.upquery)) src = g at hrows ⊢
  cases hrows <;> rfl

theorem Gathers.last_of_some (hg : u.Gathers cols kinds before s)
    (hcard : u.required = u.parents.card) (hid : id.OneKind kinds) {src : Nat}
    (hsrc : src ∈ u.parents) {rows : Records}
    (hnone : gathered u.parents (before.map (u.note cols id.upquery)) src = none)
    (hget : B.get? s.replay_pieces id = some pieces) :
    Gather.Complete u.parents (round u.parents (before.map (u.note cols id.upquery)) ++
        [.answer src rows]) ↔ pieces.buffered.entries.length = s.required - 1 := by
  have hsome : ∀ src', (pieces.buffered.get? src').isSome =
      (pending src' (round u.parents (before.map (u.note cols id.upquery)))).isSome := by
    intro src'
    rw [← bufferOf_some hget]
    exact hg.isSome hid src'
  have hsrc_none : pieces.buffered.get? src = none := by
    rw [← Option.not_isSome_iff_eq_none, hsome, ← gathered, hnone]
    exact Bool.false_ne_true
  rw [Gather.complete_answer hnone, hg.required, hcard,
    length_eq_pred_iff _ hsrc hsrc_none (hg.stored id pieces hid hget).src]
  simp only [hsome]

theorem Gathers.last_of_none (hg : u.Gathers cols kinds before s)
    (hcard : u.required = u.parents.card) (hid : id.OneKind kinds) {src : Nat}
    (hsrc : src ∈ u.parents) {rows : Records}
    (hnone : gathered u.parents (before.map (u.note cols id.upquery)) src = none)
    (hget : B.get? s.replay_pieces id = none) :
    Gather.Complete u.parents (round u.parents (before.map (u.note cols id.upquery)) ++
        [.answer src rows]) ↔ s.required = 1 := by
  have hother : ∀ src', (pending src'
      (round u.parents (before.map (u.note cols id.upquery)))).isSome = false := by
    intro src'
    have := hg.isSome hid src'
    rw [bufferOf_none hget] at this
    exact this.symm
  rw [Gather.complete_answer hnone, hg.required, hcard, Finset.card_eq_one]
  simp only [hother, Bool.false_eq_true, imp_false, not_not]
  constructor
  · intro hall
    exact ⟨src, Finset.eq_singleton_iff_unique_mem.mpr ⟨hsrc, hall⟩⟩
  · rintro ⟨src₀, heq⟩ src' hsrc'
    rw [heq, Finset.mem_singleton] at hsrc hsrc'
    rw [hsrc, hsrc']

section Piece

variable {src : Nat} {tag : Tag} {shard : Nat}

/-- **Storing the piece for one key**: the response is taken out if this is
    its last piece, and kept otherwise. -/
theorem storePiece_eq (hB : B.Documented PieceKey.cmp) (hg : u.Gathers cols kinds before s)
    (hcard : u.required = u.parents.card) (hsrc : src ∈ u.parents) {key : Row}
    (hid : id = ⟨tag, key, shard⟩) (hkind : id.OneKind kinds) {rows : Records}
    (st : Sorting B) (hbuilt : B.Built (PieceKey.OneKind kinds) st.replay_pieces)
    (hnone : gathered u.parents (before.map (u.note cols id.upquery)) src = none)
    (hget : B.get? st.replay_pieces id = B.get? s.replay_pieces id) {C : Prop} [Decidable C]
    (hC : C ↔ Gather.Complete u.parents (round u.parents
      (before.map (u.note cols id.upquery)) ++ [.answer src rows]))
    {m : ReplayPieces} (hm : m = withPiece (B.get? s.replay_pieces id) src
      ((st.rs_by_key.get? key).getD [])) :
    ∃ rp, s.storePiece src tag shard st key = some ⟨st.rs_by_key.erase key, rp,
        st.released ++ (if C then [(key, m)] else []),
        if C then st.captured else st.captured.add key⟩ ∧
      B.Built (PieceKey.OneKind kinds) rp ∧
      ∀ id', id'.OneKind kinds → B.get? rp id' =
        if id == id' then (if C then none else some m) else B.get? st.replay_pieces id' := by
  subst hid
  have hlaws := hB _ (PieceKey.totalOrderOn kinds)
  have hcontains : ∀ {pieces}, B.get? s.replay_pieces ⟨tag, key, shard⟩ = some pieces →
      pieces.buffered.contains src = false := by
    intro pieces hpieces
    rw [contains_eq, ← bufferOf_some hpieces, hg.isSome hkind]
    exact congrArg Option.isSome hnone
  simp only [storePiece, hget]
  by_cases hlast : C
  · -- the last piece: the response is taken out, if it was there
    simp only [if_pos hlast]
    cases hpieces : B.get? s.replay_pieces ⟨tag, key, shard⟩ with
    | some pieces =>
      rw [hg.last_of_some hcard hkind hsrc hnone hpieces] at hC
      refine ⟨_, ?_, .erase hbuilt hkind, fun id' hkind' => ?_⟩
      · simp only [hcontains hpieces, Bool.false_eq_true, if_false, if_pos (hC.mp hlast), hm,
          hpieces]
        rfl
      · simp only [hlaws.get?_erase hbuilt hkind hkind', PieceKey.cmp_eq_iff]
    | none =>
      rw [hg.last_of_none hcard hkind hsrc hnone hpieces] at hC
      refine ⟨_, ?_, hbuilt, fun id' hkind' => ?_⟩
      · simp only [if_pos (hC.mp hlast), hm, hpieces]
        rfl
      · split
        · rename_i heq
          rw [← hlaws.get?_congr hbuilt hkind hkind' ((PieceKey.cmp_eq_iff _ _).mpr heq), hget,
            hpieces]
        · rfl
  · refine ⟨B.insert st.replay_pieces ⟨tag, key, shard⟩ m, ?_, .insert _ hbuilt hkind,
      fun id' hkind' => ?_⟩
    · simp only [if_neg hlast, append_nil]
      cases hpieces : B.get? s.replay_pieces ⟨tag, key, shard⟩ with
      | some pieces =>
        rw [hg.last_of_some hcard hkind hsrc hnone hpieces] at hC
        simp only [hcontains hpieces, Bool.false_eq_true, if_false, if_neg (mt hC.mpr hlast), hm,
          hpieces]
        rfl
      | none =>
        rw [hg.last_of_none hcard hkind hsrc hnone hpieces] at hC
        simp only [if_neg (mt hC.mpr hlast), hm, hpieces]
        rfl
    · simp only [hlaws.get?_insert hbuilt hkind hkind', PieceKey.cmp_eq_iff, hlast, if_false]

/-- The responses `rp` after the pieces for some keys are stored: those in `C` are gone, and the
    others have the piece. -/
structure Kept (kinds : Tag → List Kind) (tag : Tag) (shard : Nat) (l : List Row) (C : Row → Prop)
    [DecidablePred C] (M : Row → ReplayPieces) (rp₀ rp : B.Map) : Prop where
  built : B.Built (PieceKey.OneKind kinds) rp
  mine : ∀ k ∈ l, B.get? rp ⟨tag, k, shard⟩ = if C k then none else some (M k)
  others : ∀ id, id.OneKind kinds → (∀ k ∈ l, ((⟨tag, k, shard⟩ : PieceKey) == id) = false) →
    B.get? rp id = B.get? rp₀ id

theorem pieceKey_beq (k k' : Row) :
    ((⟨tag, k, shard⟩ : PieceKey) == ⟨tag, k', shard⟩) = (k == k') := by
  show (tag == tag && k == k' && shard == shard) = _
  simp

/-- **The loop over the keys of a piece.** `C` are the keys whose last
    piece it is, and `M` the responses with the piece. -/
theorem storeAll_eq (hB : B.Documented PieceKey.cmp) (hg : u.Gathers cols kinds before s)
    (hcard : u.required = u.parents.card) (hsrc : src ∈ u.parents)
    (hkind : ∀ k ∈ l, PieceKey.OneKind kinds ⟨tag, k, shard⟩)
    (hdistinct : l.Pairwise fun a b => (a == b) = false)
    {R rows : Row → Records} (hnone : ∀ k ∈ l, gathered u.parents
      (before.map (u.note cols ⟨tag, Row.val k, shard⟩)) src = none) {C : Row → Prop}
    [DecidablePred C] (hC : ∀ k ∈ l, C k ↔ Gather.Complete u.parents (round u.parents
      (before.map (u.note cols ⟨tag, Row.val k, shard⟩)) ++ [.answer src (rows k)]))
    {M : Row → ReplayPieces}
    (hM : ∀ k ∈ l, M k = withPiece (B.get? s.replay_pieces ⟨tag, k, shard⟩) src (R k))
    (st : Sorting B) (hbuilt : B.Built (PieceKey.OneKind kinds) st.replay_pieces)
    (hget : ∀ k ∈ l, B.get? st.replay_pieces ⟨tag, k, shard⟩ =
      B.get? s.replay_pieces ⟨tag, k, shard⟩)
    (hrs : ∀ k ∈ l, (st.rs_by_key.get? k).getD [] = R k) :
    ∃ st', l.foldlM (s.storePiece src tag shard) st = some st' ∧
      Kept kinds tag shard l C M st.replay_pieces st'.replay_pieces ∧
      st'.released = st.released ++ (l.filter fun k => C k).map (fun k => (k, M k)) ∧
      ∀ k', st'.captured.contains k' = true ↔
        st.captured.contains k' = true ∨ ∃ k ∈ l, (k == k') = true ∧ ¬C k := by
  induction l generalizing st with
  | nil => exact ⟨st, rfl, ⟨hbuilt, by simp, fun _ _ _ => rfl⟩, by simp, by simp⟩
  | cons k l ih =>
    rw [pairwise_cons] at hdistinct
    obtain ⟨hkind₀, hkinds⟩ := forall_mem_cons.mp hkind
    obtain ⟨rp₁, hstep, hbuilt₁, hget₁⟩ := storePiece_eq hB hg hcard hsrc rfl hkind₀ st hbuilt
      (hnone k mem_cons_self) (hget k mem_cons_self) (hC k mem_cons_self)
      ((hM k mem_cons_self).trans (by rw [hrs k mem_cons_self]))
    -- the other keys have not been touched
    have hother : ∀ k' ∈ l, B.get? rp₁ ⟨tag, k', shard⟩ =
        B.get? st.replay_pieces ⟨tag, k', shard⟩ := by
      intro k' hk'
      rw [hget₁ _ (hkinds k' hk'), pieceKey_beq, hdistinct.1 k' hk']
      rfl
    obtain ⟨st', hrun, hkept, hrel, hcap⟩ := ih hkinds hdistinct.2 (forall_mem_cons.mp hnone).2
      (forall_mem_cons.mp hC).2 (forall_mem_cons.mp hM).2 ⟨st.rs_by_key.erase k, rp₁, _, _⟩ hbuilt₁
      (fun k' hk' => (hother k' hk').trans (hget k' (mem_cons_of_mem _ hk'))) (fun k' hk' => by
        rw [get?_erase, hdistinct.1 k' hk']
        exact hrs k' (mem_cons_of_mem _ hk'))
    refine ⟨st', ?_, ⟨hkept.built, ?_, ?_⟩, ?_, ?_⟩
    · rw [foldlM_cons, hstep]
      exact hrun
    · intro k' hk'
      rcases mem_cons.mp hk' with rfl | hk'
      · rw [hkept.others _ hkind₀ fun k'' hk'' => ?_, hget₁ _ hkind₀, if_pos BEq.rfl]
        rw [pieceKey_beq, BEq.comm]
        exact hdistinct.1 k'' hk''
      · exact hkept.mine k' hk'
    · intro id' hkind' hid'
      rw [hkept.others id' hkind' (forall_mem_cons.mp hid').2, hget₁ id' hkind',
        hid' k mem_cons_self]
      rfl
    · rw [hrel, append_assoc, filter_cons]
      by_cases hk : C k
      · simp [hk]
      · simp [hk]
    · intro k'
      rw [hcap]
      by_cases hk : C k
      · simp [hk]
      · simp only [if_neg hk, KeySet.contains_add, Bool.or_eq_true]
        simp only [mem_cons, exists_eq_or_imp, hk, not_false_eq_true, and_true]
        tauto

/-! ## The released rows -/

theorem coe_flatten {α : Type*} (l : List (List α)) :
    (l.flatten : Multiset α) = (l.map Multiset.ofList).sum := by
  induction l with
  | nil => rfl
  | cons rs l ih =>
    rw [flatten_cons, ← Multiset.coe_add, ih]
    rfl

/-- The rows of a response with the answers of all parents. -/
theorem released_rows {h : List (Note Nat Record)} {m : AssocMap Nat Records}
    (hsub : ∀ src, (m.get? src).isSome = true → src ∈ u.parents)
    (hall : Gather.Complete u.parents h)
    (hrows : ∀ src, Option.Rel (fun buf rows => u.emit.on_input src buf = some rows)
      (m.get? src) (pending src h)) :
    (∀ e ∈ m.entries, u.emit.on_input e.1 e.2 = some (u.emitted e.1 e.2)) ∧
      (m.entries.map fun e => (u.emitted e.1 e.2 : Multiset Record)).sum = u.answer h := by
  have hentry : ∀ e ∈ m.entries, ∃ rows, u.emit.on_input e.1 e.2 = some rows ∧
      pending e.1 h = some rows := by
    intro e he
    have hrel := hrows e.1
    rw [m.get?_of_mem he] at hrel
    generalize pending e.1 h = g at hrel
    cases hrel with
    | some hin => exact ⟨_, hin, rfl⟩
  have hkeys : m.keys = u.parents := by
    ext src
    rw [AssocMap.mem_keys]
    refine ⟨hsub src, fun hsrc => ?_⟩
    have hsome := hall src hsrc
    have hrel := hrows src
    generalize pending src h = g at hrel hsome
    generalize m.get? src = b at hrel ⊢
    cases hrel with
    | some _ => rfl
    | none => cases hsome
  refine ⟨fun e he => ?_, ?_⟩
  · obtain ⟨rows, hin, -⟩ := hentry e he
    rw [emitted, hin]
    rfl
  · rw [answer, ← hkeys]
    refine m.sum_entries _ fun e he => ?_
    obtain ⟨rows, hin, hpending⟩ := hentry e he
    rw [emitted, hin, hpending]

/-! ## A piece -/

/-- A packet with a piece, and what a run has to say about it. -/
structure PieceAt (u : Union B) (cols : Tag → List Nat) (kinds : Tag → List Kind)
    (before : List Packet) (e : Packet) (keys : KeySet Row) (shard : Nat) (tag : Tag) : Prop where
  src : e.src ∈ u.parents
  context : e.context = .partialFor (cols tag) keys shard tag false
  length : ∀ k ∈ keys.elems, k.length = (cols tag).length
  kinds : ∀ k ∈ keys.elems, PieceKey.OneKind kinds ⟨tag, k, shard⟩
  once : ∀ q rows, u.note cols q e = .answer e.src rows →
    gathered u.parents (before.map (u.note cols q)) e.src = none
  output : ∀ src ∈ u.parents, ∃ k, u.input_cols src (cols tag) = some k
  columns : ∃ rs, u.emit.on_input e.src e.rs = some rs
  agree : ∀ r ∈ e.rs, (∀ c ∈ cols tag, c < r.row.length) ∧
    ∀ k, u.input_cols e.src (cols tag) = some k →
      VRow.proj (cols tag) (Row.val r.row) = VRow.proj k (Row.val r.row)

/-- The response to an upquery with the rows of packet `e` added. -/
def pieceFor (s : Union B) (e : Packet) (key_cols : List Nat) (id : PieceKey) : ReplayPieces :=
  withPiece (B.get? s.replay_pieces id) e.src
    (e.rs.filter fun r => VRow.proj key_cols (Row.val r.row) = Row.val id.key)

section At

variable {keys : KeySet Row} (hp : u.PieceAt cols kinds before e keys shard tag)

include hp

/-- The rows of the piece for a key, as they are emitted. -/
theorem PieceAt.keyed_eq (k : Row) :
    u.emit.on_input e.src
      (e.rs.filter fun r => VRow.proj (cols tag) (Row.val r.row) = Row.val k) =
      some (u.keyed cols ⟨tag, Row.val k, shard⟩ e) := by
  obtain ⟨k₀, hk₀⟩ := hp.output e.src hp.src
  obtain ⟨out, hout⟩ := hp.columns
  have hsame : (e.rs.filter fun r => VRow.proj (cols tag) (Row.val r.row) = Row.val k) =
      e.rs.filter fun r => VRow.proj k₀ (Row.val r.row) = Row.val k :=
    filter_congr fun r hr => by rw [(hp.agree r hr).2 k₀ hk₀]
  rw [hsame, on_input_filter hout hk₀, keyed, emitted, hout]
  rfl

theorem PieceAt.note_eq (hk : k ∈ keys.elems) :
    u.note cols ⟨tag, Row.val k, shard⟩ e =
      .answer e.src (u.keyed cols ⟨tag, Row.val k, shard⟩ e) := by
  unfold note
  rw [hp.context]
  exact if_pos ⟨rfl, rfl, k, hk, rfl⟩

/-- The packet says nothing about keys that are not its own. -/
theorem PieceAt.note_other
    (hid : ∀ k ∈ keys.elems, ((⟨tag, k, shard⟩ : PieceKey) == id) = false) :
    u.note cols id.upquery e = .other := by
  unfold note
  rw [hp.context]
  refine if_neg ?_
  rintro ⟨htag, hshard, k, hk, hval⟩
  have heq : ((⟨tag, k, shard⟩ : PieceKey) == id) = true := by
    rw [PieceKey.beq_iff, PieceKey.upquery, PieceKey.upquery, Upquery.mk.injEq]
    exact ⟨htag, hval, hshard⟩
  rw [hid k hk] at heq
  cases heq

theorem PieceAt.roundOf_eq (hk : k ∈ keys.elems) :
    u.roundOf cols before e ⟨tag, Row.val k, shard⟩ =
      round u.parents (before.map (u.note cols ⟨tag, Row.val k, shard⟩)) ++
        [.answer e.src (u.keyed cols ⟨tag, Row.val k, shard⟩ e)] := by
  rw [roundOf, hp.note_eq hk]

section

variable (hg : u.Gathers cols kinds before s)
include hg

theorem PieceAt.rows (hk : k ∈ keys.elems) (src : Nat) :
    Option.Rel (fun buf rows => u.emit.on_input src buf = some rows)
      ((s.pieceFor e (cols tag) ⟨tag, k, shard⟩).buffered.get? src)
      (pending src (u.roundOf cols before e ⟨tag, Row.val k, shard⟩)) := by
  rw [hp.roundOf_eq hk, pieceFor, withPiece_get?]
  by_cases hs : e.src = src
  · subst hs
    rw [if_pos rfl, Gather.pending_answer (hp.once _ _ (hp.note_eq hk))]
    exact .some (hp.keyed_eq k)
  · rw [if_neg hs, Gather.pending_answer_ne hs]
    exact hg.rows ⟨tag, k, shard⟩ src (hp.kinds k hk)

theorem PieceAt.parents (hid : id.OneKind kinds) (src : Nat)
    (h : ((s.pieceFor e (cols tag) id).buffered.get? src).isSome = true) : src ∈ u.parents := by
  rw [pieceFor, withPiece_get?] at h
  by_cases hs : e.src = src
  · exact hs ▸ hp.src
  · rw [if_neg hs] at h
    cases hget : B.get? s.replay_pieces id with
    | none =>
      rw [bufferOf_none hget] at h
      cases h
    | some pieces =>
      rw [bufferOf_some hget] at h
      exact (hg.stored id pieces hid hget).src src h

theorem PieceAt.storeAll (hB : B.Documented PieceKey.cmp) (hcard : u.required = u.parents.card)
    {hm : AssocMap Row Records} (hfile : ∀ key, (hm.get? key).getD [] =
      e.rs.filter fun r => VRow.proj (cols tag) (Row.val r.row) = Row.val key) :
    ∃ st, keys.elems.foldlM (s.storePiece e.src tag shard)
        ⟨hm, s.replay_pieces, [], ∅⟩ = some st ∧
      Kept kinds tag shard keys.elems (fun k => u.Completes cols before e ⟨tag, Row.val k, shard⟩)
        (fun k => s.pieceFor e (cols tag) ⟨tag, k, shard⟩) s.replay_pieces st.replay_pieces ∧
      st.released = (keys.elems.filter fun k =>
          u.Completes cols before e ⟨tag, Row.val k, shard⟩).map
        (fun k => (k, s.pieceFor e (cols tag) ⟨tag, k, shard⟩)) ∧
      ∀ k', st.captured.contains k' = true ↔ ∃ k ∈ keys.elems, (k == k') = true ∧
        ¬u.Completes cols before e ⟨tag, Row.val k, shard⟩ := by
  have hC : ∀ k ∈ keys.elems, u.Completes cols before e ⟨tag, Row.val k, shard⟩ ↔
      Gather.Complete u.parents (round u.parents
        (before.map (u.note cols ⟨tag, Row.val k, shard⟩)) ++
          [.answer e.src (u.keyed cols ⟨tag, Row.val k, shard⟩ e)]) := by
    intro k hk
    rw [Completes, hp.roundOf_eq hk]
  obtain ⟨st, hst, hkept, hreleased, hcaptured⟩ := storeAll_eq
    (M := fun k => s.pieceFor e (cols tag) ⟨tag, k, shard⟩) hB hg hcard hp.src hp.kinds
    keys.elems_distinct (fun k hk => hp.once _ _ (hp.note_eq hk)) hC (fun _ _ => rfl)
    ⟨hm, s.replay_pieces, [], ∅⟩ hg.built (fun _ _ => rfl) (fun k _ => hfile k)
  refine ⟨st, hst, hkept, hreleased, fun k' => ?_⟩
  rw [hcaptured]
  exact or_iff_right Bool.false_ne_true

theorem PieceAt.flat_rows
    (hl : ∀ k ∈ l, k ∈ keys.elems ∧ u.Completes cols before e ⟨tag, Row.val k, shard⟩) :
    ∃ rows, ((l.map fun k => (k, s.pieceFor e (cols tag) ⟨tag, k, shard⟩)).flatMap
        fun e => e.2.buffered.entries).mapM (fun e => s.emit.on_input e.1 e.2) = some rows ∧
      (rows.flatten : Multiset Record) = (l.map fun k =>
        u.answer (u.roundOf cols before e ⟨tag, Row.val k, shard⟩)).sum := by
  induction l with
  | nil => exact ⟨[], rfl, rfl⟩
  | cons k l ih =>
    obtain ⟨rows, hrows, hsum⟩ := ih (forall_mem_cons.mp hl).2
    obtain ⟨hk, hall⟩ := hl k mem_cons_self
    obtain ⟨hentries, hanswer⟩ := released_rows (hp.parents hg (hp.kinds k hk)) hall
      (hp.rows hg hk)
    rw [← hg.emit] at hentries
    refine ⟨(s.pieceFor e (cols tag) ⟨tag, k, shard⟩).buffered.entries.map
      (fun e => u.emitted e.1 e.2) ++ rows, ?_, ?_⟩
    · rw [map_cons, flatMap_cons, mapM_append, mapM_option_map hentries, hrows]
      rfl
    · rw [flatten_append, ← Multiset.coe_add, hsum, coe_flatten, map_map]
      exact congrArg (· + _) hanswer

/-- **The output for a piece**, and the responses that stay. -/
theorem PieceAt.right (hB : B.Documented PieceKey.cmp) (hcard : u.required = u.parents.card) :
    ∃ rows released captured rk rp,
      machine s e = some (.replayPiece rows released captured,
        { s with replay_key := rk, replay_pieces := rp }) ∧
      u.Right cols before e (.replayPiece rows released captured) ∧
      (∀ src' ∈ u.parents, rk.get? (tag, u.rkey_from src') = u.input_cols src' (cols tag)) ∧
      (∀ t p, t ≠ tag → rk.get? (t, p) = s.replay_key.get? (t, p)) ∧
      Kept kinds tag shard keys.elems (fun k => u.Completes cols before e ⟨tag, Row.val k, shard⟩)
        (fun k => s.pieceFor e (cols tag) ⟨tag, k, shard⟩) s.replay_pieces rp := by
  obtain ⟨rk, hrk, hlearned, hothers⟩ := learnKey_eq hg hp.src hp.output
  obtain ⟨hm, hhm, hfile⟩ := rs_by_key_eq fun r hr => (hp.agree r hr).1
  obtain ⟨st, hst, hkept, hreleased, hcaptured⟩ := hp.storeAll hg hB hcard hfile
  -- keys of the same value are keys of one upquery
  have hiff : ∀ (P : Upquery → Prop) (k : Row),
      (∃ k₀ ∈ keys.elems, (k₀ == k) = true ∧ P ⟨tag, Row.val k₀, shard⟩) ↔
        keys.contains k = true ∧ P ⟨tag, Row.val k, shard⟩ := by
    intro P k
    rw [keys.contains_iff]
    constructor
    · rintro ⟨k₀, hk₀, heq, hP⟩
      rw [(Row.beq_iff_val _ _).mp heq] at hP
      exact ⟨⟨k₀, hk₀, heq⟩, hP⟩
    · rintro ⟨⟨k₀, hk₀, heq⟩, hP⟩
      rw [← (Row.beq_iff_val _ _).mp heq] at hP
      exact ⟨k₀, hk₀, heq, hP⟩
  have hlast : ∀ k ∈ keys.elems.filter fun k =>
      u.Completes cols before e ⟨tag, Row.val k, shard⟩, k ∈ keys.elems ∧
        u.Completes cols before e ⟨tag, Row.val k, shard⟩ := fun k hk =>
    ⟨(mem_filter.mp hk).1, of_decide_eq_true (mem_filter.mp hk).2⟩
  obtain ⟨rows, hrows, hsum⟩ := hp.flat_rows hg hlast
  have helems : (st.released.foldl (fun s e => s.add e.1) (∅ : KeySet Row)).elems =
      keys.elems.filter fun k => u.Completes cols before e ⟨tag, Row.val k, shard⟩ := by
    rw [hreleased, foldl_map]
    exact KeySet.elems_foldl_add (keys.elems_distinct.filter _) ∅ fun k hk => (by cases hk)
  rw [← hreleased] at hrows
  refine ⟨rows.flatten, st.released.foldl (fun s e => s.add e.1) ∅, st.captured, rk,
    st.replay_pieces, ?_, ?_, hlearned, hothers, hkept⟩
  · unfold machine on_input_raw
    rw [hp.context]
    simp only [on_piece, Bool.and_false, Bool.false_eq_true, if_false, hrk, hhm, hst, hrows,
      Option.bind_eq_bind, Option.bind_some]
  · refine ⟨keys, shard, tag, hp.context, fun k => ?_, fun k => ?_, ?_⟩
    · rw [KeySet.contains_iff, helems, ← hiff]
      simp only [mem_filter, decide_eq_true_eq]
      constructor
      · rintro ⟨k₀, ⟨hk₀, hall⟩, heq⟩
        exact ⟨k₀, hk₀, heq, hall⟩
      · rintro ⟨k₀, hk₀, heq, hall⟩
        exact ⟨k₀, ⟨hk₀, hall⟩, heq⟩
    · rw [hcaptured]
      exact hiff (fun q => ¬u.Completes cols before e q) k
    · rw [helems]
      exact hsum

/-- **A piece of an upquery.** Its keys are released or captured, the rows are the answers to the
    released ones, and the buffers hold what is left. -/
theorem Gathers.piece (hB : B.Documented PieceKey.cmp) (hcard : u.required = u.parents.card)
    (hP : u.parents.Nonempty) :
    ∃ res s', machine s e = some (res, s') ∧ u.Right cols before e res ∧
      u.Gathers cols kinds (before ++ [e]) s' := by
  have hlaws := hB _ (PieceKey.totalOrderOn kinds)
  obtain ⟨rows, released, captured, rk, rp, hrun, hright, hlearned, hothers, hkept⟩ :=
    hp.right hg hB hcard
  -- what is known of a tag stays known
  have hkeep : ∀ t, u.Learned cols s t →
      u.Learned cols { s with replay_key := rk, replay_pieces := rp } t := by
    intro t ht src hsrc
    by_cases htag : t = tag
    · rw [htag]
      exact hlearned src hsrc
    · exact (hothers t _ htag).trans (ht src hsrc)
  -- a response is one of the piece's own or none of its business
  have hmine : ∀ id : PieceKey, id.OneKind kinds →
      (∃ k ∈ keys.elems, (⟨tag, Row.val k, shard⟩ : Upquery) = id.upquery ∧
        B.get? rp id = if u.Completes cols before e ⟨tag, Row.val k, shard⟩ then none
          else some (s.pieceFor e (cols tag) ⟨tag, k, shard⟩)) ∨
      (u.note cols id.upquery e = .other ∧ B.get? rp id = B.get? s.replay_pieces id) := by
    intro id hid
    by_cases hex : ∃ k ∈ keys.elems, ((⟨tag, k, shard⟩ : PieceKey) == id) = true
    · obtain ⟨k, hk, heq⟩ := hex
      refine .inl ⟨k, hk, (PieceKey.beq_iff _ _).mp heq, ?_⟩
      rw [← hkept.mine k hk]
      exact (hlaws.get?_congr hkept.built (hp.kinds k hk) hid
        ((PieceKey.cmp_eq_iff _ _).mpr heq)).symm
    · have hnot : ∀ k ∈ keys.elems, ((⟨tag, k, shard⟩ : PieceKey) == id) = false :=
        fun k hk => Bool.eq_false_iff.mpr fun heq => hex ⟨k, hk, heq⟩
      exact .inr ⟨hp.note_other hnot, hkept.others id hid hnot⟩
  refine ⟨_, _, hrun, hright, hg.emit, hg.required, hg.full_wait_state, ?_, hkept.built, ?_, ?_⟩
  · intro t
    by_cases htag : t = tag
    · rw [htag]
      exact .inl hlearned
    · refine (hg.keys t).imp (hkeep t) fun hnone src hsrc => ?_
      exact (hothers t _ htag).trans (hnone src hsrc)
  · intro id pieces hid hget
    rcases hmine id hid with ⟨k, hk, hq, hget'⟩ | ⟨-, hsame⟩
    · -- the piece is not the last one
      replace hget : B.get? rp id = some pieces := hget
      rw [hget'] at hget
      split at hget
      · cases hget
      · cases hget
        obtain ⟨htag, hval, -⟩ := (Upquery.mk.injEq ..).mp hq
        refine ⟨⟨e.src, ?_⟩, ?_, hp.parents hg (hp.kinds k hk), ?_⟩
        · rw [pieceFor, withPiece_get?, if_pos rfl]
          rfl
        · rw [← Row.length_val, ← hval, Row.length_val, hp.length k hk, htag]
        · rw [← htag]
          exact hlearned
    · have hstored := hg.stored id pieces hid (hsame.symm.trans hget)
      exact ⟨hstored.nonempty, hstored.length, hstored.src, hkeep _ hstored.learned⟩
  · intro id src hid
    rw [map_append, map_singleton]
    rcases hmine id hid with ⟨k, hk, hq, hget⟩ | ⟨hnote, hsame⟩
    · rw [← hq]
      by_cases hall : u.Completes cols before e ⟨tag, Row.val k, shard⟩
      · rw [if_pos hall] at hget
        rw [bufferOf_none hget, Gather.gathered_snoc_complete hall]
        exact .none
      · rw [if_neg hall] at hget
        rw [bufferOf_some hget, Gather.gathered_snoc hall]
        exact hp.rows hg hk src
    · rw [hnote, Gather.gathered_other hP, bufferOf]
      rw [hsame]
      exact hg.rows id src hid

end

end At

end Piece

/-! ## Whole runs -/

/-- **Every packet of a run** is handled, with the right output, and the
    buffers hold what has been answered. -/
theorem KeyRun.step (hB : B.Documented PieceKey.cmp) (hcard : u.required = u.parents.card)
    (hP : u.parents.Nonempty) (hrun : u.KeyRun cols h) (hkinds : OneKind kinds h)
    (hagree : u.KeysAgree h) (hsplit : h = before ++ e :: rest)
    (hg : u.Gathers cols kinds before s) :
    ∃ res s', machine s e = some (res, s') ∧ u.Right cols before e res ∧
      u.Gathers cols kinds (before ++ [e]) s' := by
  have he : e ∈ h := by
    rw [hsplit]
    exact mem_append_right _ mem_cons_self
  obtain ⟨out, hout⟩ := hrun.columns e he
  rcases hrun.context e he with hctx | ⟨keys, shard, tag, hctx, hlen⟩
  · obtain ⟨s', hstep, hg'⟩ := hg.regular hB hP (hrun.src e he) hctx hout
      (fun tag => hrun.output tag e.src (hrun.src e he)) (hrun.readable e he)
    refine ⟨_, s', hstep, ⟨hctx, ?_⟩, hg'⟩
    rw [emitted, hout]
    rfl
  · have hp : u.PieceAt cols kinds before e keys shard tag :=
      ⟨hrun.src e he, hctx, hlen, hkinds e he _ _ _ _ _ hctx, hrun.once before e rest hsplit,
        hrun.output tag, ⟨out, hout⟩, hagree e he _ _ _ _ _ hctx⟩
    exact Gathers.piece hp hg hB hcard hP

theorem Made.fresh (h : u.Made) : u.replay_key.entries = [] ∧ u.replay_pieces = B.empty := by
  rcases h with ⟨shards, rfl⟩ | ⟨emit, hnew⟩
  · exact ⟨rfl, rfl⟩
  · unfold new at hnew
    split at hnew
    · cases hnew
      exact ⟨rfl, rfl⟩
    · cases hnew

theorem Made.gathers (hB : B.Documented PieceKey.cmp) (h : u.Made) :
    u.Gathers cols kinds [] u := by
  have hlaws := hB _ (PieceKey.totalOrderOn kinds)
  have hnone : ∀ id, PieceKey.OneKind kinds id → B.get? u.replay_pieces id = none := by
    intro id hid
    rw [h.fresh.2]
    exact hlaws.isEmpty .empty B.isEmpty_empty hid
  refine ⟨rfl, rfl, h.idle.full_wait_state, fun _ => ?_, ?_, fun id pieces hid hget => ?_,
    fun id src hid => ?_⟩
  · exact .inr fun _ _ => (entries_eq_nil_iff _).mp h.fresh.1 _
  · rw [h.fresh.2]
    exact .empty
  · rw [hnone id hid] at hget
    cases hget
  · rw [bufferOf_none (hnone id hid)]
    exact .none

/-- **Upqueries through a union.** When the keys agree, every packet of a
    run is handled, and the output is right. -/
theorem KeyRun.right (hB : B.Documented PieceKey.cmp) (hu : u.Made) (hP : u.parents.Nonempty)
    (hrun : u.KeyRun cols h) (hkinds : OneKind kinds h) (hagree : u.KeysAgree h)
    (hsplit : h = before ++ e :: rest) :
    ∃ out s res s', Machine.feed machine u before = some (out, s) ∧
      machine s e = some (res, s') ∧ u.Right cols before e res := by
  have hcard := hu.idle.required
  obtain ⟨out, s, hfeed, hg⟩ := Machine.feed_invariant
    (I := fun before _ s => u.Gathers cols kinds before s) (hu.gathers hB)
    (fun before e rest _ s hsplit hg => by
      obtain ⟨res, s', hstep, -, hg'⟩ := hrun.step hB hcard hP hkinds hagree hsplit hg
      exact ⟨res, s', hstep, hg'⟩) hsplit
  obtain ⟨res, s', hstep, hright, -⟩ := hrun.step hB hcard hP hkinds hagree hsplit hg
  exact ⟨out, s, res, s', hfeed, hstep, hright⟩

/-! ## Shard mergers -/

/-- Below the shards of one parent, the input and the output have the same columns. -/
theorem KeyRun.agree_of_deshard {shards : Nat} (hrun : (new_deshard B shards).KeyRun cols h) :
    (new_deshard B shards).KeysAgree h := by
  intro e he key_cols keys shard tag unishard hctx r hr
  refine ⟨?_, fun k hk => ?_⟩
  · rcases hrun.context e he with hnone | ⟨_, _, _, hctx', _⟩
    · rw [hctx] at hnone
      cases hnone
    · rw [hctx] at hctx'
      cases hctx'
      exact hrun.readable e he r hr tag (cols tag) rfl
  · cases hk
    rfl

/-- **Upqueries through a shard merger.** In every run of upqueries and regular records from two
    shards or more: a regular batch is forwarded unchanged, a key is released with the piece of the
    last shard to answer and captured until then, and what is released with it are the rows of all
    shards' pieces with the key and every regular record with the key that a shard sent after its
    piece. -/
theorem shard_merger_releases {B : OrderedMap PieceKey ReplayPieces}
    (hB : B.Documented PieceKey.cmp) {shards : Nat} (htwo : 2 ≤ shards) {cols : Tag → List Nat}
    {kinds : Tag → List Kind} {h : List Packet} (hrun : (new_deshard B shards).KeyRun cols h)
    (hkinds : OneKind kinds h) {before rest : List Packet} {e : Packet}
    (hsplit : h = before ++ e :: rest) :
    ∃ out s res s', Machine.feed machine (new_deshard B shards) before = some (out, s) ∧
      machine s e = some (res, s') ∧ (new_deshard B shards).Right cols before e res := by
  have hP : (new_deshard B shards).parents.Nonempty := ⟨0, Finset.mem_range.mpr (by
    show 0 < shards
    omega)⟩
  exact hrun.right hB (.inl ⟨shards, rfl⟩) hP hkinds hrun.agree_of_deshard hsplit

/-! ### Two runs -/

/-- The upqueries that a packet answers, and for whom. -/
def answers (e : Packet) : List (Nat × Upquery) :=
  match e.context with
  | .partialFor _ ks shard tag _ =>
    ks.elems.map fun k => (e.src, ⟨tag, Row.val k, shard⟩)
  | _ => []

theorem mem_answers {src : Nat} {q : Upquery} {rows : Records}
    (hnote : u.note cols q e = .answer src rows) : (src, q) ∈ answers e := by
  unfold note at hnote
  unfold answers
  cases hctx : e.context with
  | none =>
    rw [hctx] at hnote
    cases hnote
  | full last =>
    rw [hctx] at hnote
    cases hnote
  | partialFor key_cols keys shard tag unishard =>
    simp only [hctx] at hnote ⊢
    split at hnote
    · next hmine =>
      obtain ⟨rfl, rfl, k, hk, hval⟩ := hmine
      cases hnote
      refine mem_map.mpr ⟨k, hk, ?_⟩
      rw [hval]
    · cases hnote

/-- Where no parent answers an upquery twice, none does before the key is released. -/
theorem once_of_nodup (hnodup : (h.flatMap answers).Nodup) (hsplit : h = before ++ e :: rest)
    {q : Upquery} {rows : Records} (hnote : u.note cols q e = .answer e.src rows) :
    gathered u.parents (before.map (u.note cols q)) e.src = none := by
  refine Gather.gathered_of_silent fun n hn rows' => ?_
  obtain ⟨e', he', rfl⟩ := mem_map.mp hn
  intro hnote'
  rw [hsplit, flatMap_append, flatMap_cons, nodup_append] at hnodup
  exact hnodup.2.2 _ (mem_flatMap.mpr ⟨e', he', mem_answers hnote'⟩) _
    (mem_append_left _ (mem_answers hnote)) rfl

/-- The row of a parent for a key. -/
def pieceOf (src : Nat) (k : DataType) : Packet :=
  ⟨src, [.positive [k, .int src.toInt32]], .partialFor [0] (KeySet.add ∅ [k]) 0 7 false⟩

/-- Two shards answer for the key 5; the first one sends another row with it in between. -/
def merged : List Packet :=
  [pieceOf 0 (.int 5), ⟨0, [.positive [.int 5, .int 2], .positive [.int 6, .int 3]], .none⟩,
    pieceOf 1 (.int 5)]

theorem deshard_run {shards : Nat} (hsrc : ∀ e ∈ h, e.src < shards)
    (hcontext : ∀ e ∈ h, e.context = .none ∨ ∃ k, e = pieceOf e.src k)
    (hnodup : (h.flatMap answers).Nodup) (hrows : ∀ e ∈ h, ∀ r ∈ e.rs, 0 < r.row.length) :
    (new_deshard B shards).KeyRun (fun _ => [0]) h where
  src e he := Finset.mem_range.mpr (hsrc e he)
  context := by
    intro e he
    rcases hcontext e he with hnone | ⟨k, hk⟩
    · exact .inl hnone
    · rw [hk]
      refine .inr ⟨_, _, _, rfl, fun k' hk' => ?_⟩
      rw [mem_singleton.mp hk']
      rfl
  once _ _ _ hsplit _ _ hnote := once_of_nodup hnodup hsplit hnote
  output _ _ _ := ⟨_, rfl⟩
  columns e _ := ⟨e.rs, rfl⟩
  readable := by
    intro e he r hr tag k hk c hc
    cases hk
    rw [mem_singleton.mp hc]
    exact hrows e he r hr

theorem merged_run : twoShards.KeyRun (fun _ => [0]) merged := by
  refine deshard_run (by decide) ?_ (by decide) (by decide)
  intro e he
  fin_cases he
  · exact .inr ⟨_, rfl⟩
  · exact .inl rfl
  · exact .inr ⟨_, rfl⟩

theorem merged_oneKind : OneKind (fun _ => [.int]) merged := by
  intro e he key_cols keys shard tag unishard hctx
  fin_cases he <;> cases hctx <;> decide

/-- With the piece of the second shard, the three rows with the key. -/
theorem merged_releases :
    (∃ out s res s', Machine.feed machine twoShards (merged.take 2) = some (out, s) ∧
      machine s (pieceOf 1 (.int 5)) = some (res, s') ∧
      twoShards.Right (fun _ => [0]) (merged.take 2) (pieceOf 1 (.int 5)) res) ∧
    twoShards.answer (twoShards.roundOf (fun _ => [0]) (merged.take 2) (pieceOf 1 (.int 5))
      ⟨7, [.int 5], 0⟩) =
      {.positive [.int 5, .int 0], .positive [.int 5, .int 2], .positive [.int 5, .int 1]} :=
  ⟨shard_merger_releases (OrderedMap.hashed_documented _ PieceKey.cmp_eq_iff) (Nat.le_refl 2)
    merged_run merged_oneKind rfl, by decide⟩

/-- The first shard answers for NULL and eleven numbers, and the second one for NULL. -/
def nullFirst : List Packet :=
  [pieceOf 0 .none, pieceOf 0 (.int 1), pieceOf 0 (.int 2), pieceOf 0 (.int 3), pieceOf 0 (.int 4),
    pieceOf 0 (.int 5), pieceOf 0 (.int 6), pieceOf 0 (.int 7), pieceOf 0 (.int 8),
    pieceOf 0 (.int 9), pieceOf 0 (.int 10), pieceOf 0 (.int 11), pieceOf 1 .none]

/-- Is a key kept back? -/
def keepsBack (k : Row) : RawProcessingResult → Bool
  | .replayPiece _ released _ => !released.contains k
  | _ => false

theorem nullFirst_kept : ((Machine.feed machine (new_deshard (BTree.map PieceKey.cmp) 2)
    (nullFirst.take 12)).bind fun o => (machine o.2 (pieceOf 1 .none)).map fun p =>
      keepsBack [.none] p.1) = some true := by
  decide +kernel

/-- The twelfth response splits the root of the `BTreeMap` at 6. NULL is in the left half, but it is
    greater than 6, so it is searched in the right one. Both shards have answered for it, and it is
    not released. -/
theorem null_key_stuck :
    (new_deshard (BTree.map PieceKey.cmp) 2).KeyRun (fun _ => [0]) nullFirst ∧
    ∃ out s res s', Machine.feed machine (new_deshard (BTree.map PieceKey.cmp) 2)
        (nullFirst.take 12) = some (out, s) ∧
      machine s (pieceOf 1 .none) = some (res, s') ∧
      ¬(new_deshard (BTree.map PieceKey.cmp) 2).Right (fun _ => [0]) (nullFirst.take 12)
        (pieceOf 1 .none) res := by
  refine ⟨deshard_run (by decide) (fun e he => ?_) (by decide) (by decide), ?_⟩
  · fin_cases he <;> exact .inr ⟨_, rfl⟩
  obtain ⟨⟨out, s⟩, hfeed, hrest⟩ := Option.bind_eq_some_iff.mp nullFirst_kept
  obtain ⟨⟨res, s'⟩, hstep, hkept⟩ := Option.map_eq_some_iff.mp hrest
  refine ⟨out, s, res, s', hfeed, hstep, fun hright => ?_⟩
  cases res with
  | replayPiece rows released captured =>
    obtain ⟨keys, shard, tag, hctx, hreleased, -⟩ := hright
    cases hctx
    have hnull := (hreleased [.none]).mpr (by decide +kernel)
    rw [keepsBack, hnull] at hkept
    cases hkept
  | regular _ => cases hkept
  | fullReplay _ _ => cases hkept
  | capturedFull => cases hkept

/-! ## Projecting unions -/

/-- **Upqueries through a projecting union.** If the key columns agree, a key is released with the
    last piece, with the projections of exactly the rows whose projected key it is. -/
theorem projecting_union_releases {B : OrderedMap PieceKey ReplayPieces}
    (hB : B.Documented PieceKey.cmp) {emit : AssocMap Nat (List Nat)} {u : Union B}
    (hnew : new B emit = some u) (htwo : 2 ≤ u.required) {cols : Tag → List Nat}
    {kinds : Tag → List Kind} {h : List Packet} (hrun : u.KeyRun cols h)
    (hkinds : OneKind kinds h) (hagree : u.KeysAgree h) {before rest : List Packet} {e : Packet}
    (hsplit : h = before ++ e :: rest) :
    ∃ out s res s', Machine.feed machine u before = some (out, s) ∧
      machine s e = some (res, s') ∧ u.Right cols before e res := by
  have hu : u.Made := .inr ⟨emit, hnew⟩
  have hP : u.parents.Nonempty := by
    rw [← Finset.card_pos, ← hu.idle.required]
    omega
  exact hrun.right hB hu hP hkinds hagree hsplit

/-- Two parents that emit their first and their last column. -/
def outerCols : AssocMap Nat (List Nat) :=
  ((∅ : AssocMap Nat (List Nat)).insert 0 [0, 2]).insert 1 [0, 2]

def outerUnion : Union (.hashed PieceKey ReplayPieces) :=
  ⟨.project outerCols, ∅, OrderedMap.empty _, 2, .none⟩

/-- The first parent has one row, the second none. -/
def outerPieces (c : Nat) (k : Int32) : List Packet :=
  [⟨0, [.positive [.int 1, .int 7, .int 5]], .partialFor [c] (KeySet.add ∅ [.int k]) 0 7 false⟩,
    ⟨1, [], .partialFor [c] (KeySet.add ∅ [.int k]) 0 7 false⟩]

theorem mem_outerPieces {c : Nat} {k : Int32} (he : e ∈ outerPieces c k) :
    e = ⟨0, [.positive [.int 1, .int 7, .int 5]],
      .partialFor [c] (KeySet.add ∅ [.int k]) 0 7 false⟩ ∨
    e = ⟨1, [], .partialFor [c] (KeySet.add ∅ [.int k]) 0 7 false⟩ := by
  simpa [outerPieces] using he

theorem outerPieces_run {c : Nat} (hc : c < 2) (k : Int32) :
    outerUnion.KeyRun (fun _ => [c]) (outerPieces c k) where
  src := by
    intro e he
    rcases mem_outerPieces he with rfl | rfl
    · show 0 ∈ outerUnion.parents
      decide
    · show 1 ∈ outerUnion.parents
      decide
  context := by
    intro e he
    rcases mem_outerPieces he with rfl | rfl
    · exact .inr ⟨_, _, _, rfl, fun k' hk' => by rw [mem_singleton.mp hk']; rfl⟩
    · exact .inr ⟨_, _, _, rfl, fun k' hk' => by rw [mem_singleton.mp hk']; rfl⟩
  once _ _ _ hsplit _ _ hnote := by
    refine once_of_nodup ?_ hsplit hnote
    show List.Nodup [((0 : Nat), (⟨7, Row.val [.int k], 0⟩ : Upquery)),
      (1, ⟨7, Row.val [.int k], 0⟩)]
    simp
  output := by
    intro tag src hsrc
    interval_cases c <;> fin_cases hsrc <;> exact ⟨_, rfl⟩
  columns := by
    intro e he
    rcases mem_outerPieces he with rfl | rfl
    · exact ⟨_, rfl⟩
    · exact ⟨_, rfl⟩
  readable := by
    intro e he r hr tag cs hcs
    rcases mem_outerPieces he with rfl | rfl
    · rw [mem_singleton.mp hr]
      interval_cases c <;> cases hcs <;> decide
    · cases hr

/-- The output's second column is the parents' third: the row with the key 5
    is filed under the 7 of the second, and lost. -/
theorem outer_row_lost :
    new _ outerCols = some outerUnion ∧ outerUnion.KeyRun (fun _ => [1]) (outerPieces 1 5) ∧
      ∃ out s res s', Machine.feed machine outerUnion ((outerPieces 1 5).take 1) = some (out, s) ∧
        machine s ⟨1, [], .partialFor [1] (KeySet.add ∅ [.int 5]) 0 7 false⟩ = some (res, s') ∧
        ¬outerUnion.Right (fun _ => [1]) ((outerPieces 1 5).take 1)
          ⟨1, [], .partialFor [1] (KeySet.add ∅ [.int 5]) 0 7 false⟩ res := by
  refine ⟨rfl, outerPieces_run (by decide) 5, _, _, _, _, rfl, rfl, ?_⟩
  rintro ⟨keys, shard, tag, hctx, -, -, hrows⟩
  cases hctx
  revert hrows
  decide

theorem outerPieces_oneKind (c : Nat) (k : Int32) :
    OneKind (fun _ => [.int]) (outerPieces c k) := by
  intro e he key_cols keys shard tag unishard hctx k' hk'
  rcases mem_outerPieces he with rfl | rfl
  · cases hctx
    rw [mem_singleton.mp hk']
    rfl
  · cases hctx
    rw [mem_singleton.mp hk']
    rfl

theorem outerPieces_agree (k : Int32) : outerUnion.KeysAgree (outerPieces 0 k) := by
  intro e he key_cols keys shard tag unishard hctx
  rcases mem_outerPieces he with rfl | rfl
  · cases hctx
    intro r hr
    rw [mem_singleton.mp hr]
    refine ⟨by decide, fun cs hcs => ?_⟩
    cases hcs
    rfl
  · intro r hr
    cases hr

/-- The first columns agree, and the row with the key 1 is released. -/
theorem outer_row_released :
    (∃ out s res s', Machine.feed machine outerUnion ((outerPieces 0 1).take 1) = some (out, s) ∧
      machine s ⟨1, [], .partialFor [0] (KeySet.add ∅ [.int 1]) 0 7 false⟩ = some (res, s') ∧
      outerUnion.Right (fun _ => [0]) ((outerPieces 0 1).take 1)
        ⟨1, [], .partialFor [0] (KeySet.add ∅ [.int 1]) 0 7 false⟩ res) ∧
    outerUnion.answer (outerUnion.roundOf (fun _ => [0]) ((outerPieces 0 1).take 1)
      ⟨1, [], .partialFor [0] (KeySet.add ∅ [.int 1]) 0 7 false⟩ ⟨7, [.int 1], 0⟩) =
        {.positive [.int 1, .int 5]} := by
  have hnew : new _ outerCols = some outerUnion := rfl
  exact ⟨projecting_union_releases (OrderedMap.hashed_documented _ PieceKey.cmp_eq_iff) hnew
    (Nat.le_refl 2) (outerPieces_run (by decide) 1) (outerPieces_oneKind 0 1) (outerPieces_agree 1)
    rfl, by decide⟩

end Union

end Noria.Server

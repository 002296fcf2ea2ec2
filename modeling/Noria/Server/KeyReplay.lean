import Mathlib.Data.Prod.Lex
import Noria.Framework.Gather
import Noria.Server.Union

/-! # Replays of keys through a union

  An upquery asks every parent of a union for the rows of some keys, and the answers come in one by
  one, for many upqueries at a time. The union buffers them (`replay_pieces`), by tag, key and
  requesting shard, and releases the rows of a key with the answer of the last parent. A parent may
  go on sending records after its answer; those with the key belong to the answer.

  For each key this is the gathering of answers of `Framework.Gather`, with what the union emits for
  a packet as its rows (`note`). `Right` says what the union is to put out for a packet, and
  `Gathers` relates its buffers to what has been answered. Here are the parts of a step: a regular
  batch, the key columns of a tag, and the rows of a piece.

  The buffers are found again only if their keys are ordered, which the keys of a tag are when each
  of their columns has values of one kind (`PieceKey.OneKind`).
-/

namespace Noria.Server

open Noria.Sqlite (Record Records)
open Gather (pending round gathered)
open List Option
open AssocMap hiding keys

/-! ## Upqueries and their answers -/

/-- A key that is asked for, by value. -/
structure Upquery where
  tag : Tag
  key : VRow
  requesting_shard : Nat
  deriving DecidableEq

def PieceKey.upquery (id : PieceKey) : Upquery := ⟨id.tag, Row.val id.key, id.requesting_shard⟩

theorem PieceKey.beq_iff (a b : PieceKey) : (a == b) = true ↔ a.upquery = b.upquery := by
  show (a.tag == b.tag && a.key == b.key && a.requesting_shard == b.requesting_shard) = true ↔ _
  simp only [Bool.and_eq_true, beq_iff_eq, Row.beq_iff_val, PieceKey.upquery, Upquery.mk.injEq,
    and_assoc]

instance : EquivBEq PieceKey := .of_iff PieceKey.upquery PieceKey.beq_iff

/-- The keys of a tag have columns of one kind. -/
def PieceKey.OneKind (kinds : Tag → List Kind) (id : PieceKey) : Prop :=
  Row.kinds id.key = kinds id.tag

theorem PieceKey.cmp_eq_iff (a b : PieceKey) : a.cmp b = .eq ↔ (a == b) = true := by
  rw [PieceKey.beq_iff, PieceKey.cmp, Ordering.then_eq_eq, Ordering.then_eq_eq,
    compare_eq_iff_eq, compare_eq_iff_eq, Row.cmp_eq_iff, UInt32.toNat_inj, PieceKey.upquery,
    PieceKey.upquery, Upquery.mk.injEq]

theorem compares_lex {α β : Type} [LinearOrder α] [LinearOrder β] {a a' : α} {b b' : β}
    {o o' : Ordering} (h : o.Compares a a') (h' : a = a' → o'.Compares b b') :
    (o.then o').Compares (toLex (a, b)) (toLex (a', b')) := by
  cases o with
  | lt => exact Prod.Lex.toLex_lt_toLex.mpr (.inl h)
  | gt => exact Prod.Lex.toLex_lt_toLex.mpr (.inl h)
  | eq =>
    obtain rfl : a = a' := h
    specialize h' rfl
    cases o' with
    | lt => exact Prod.Lex.toLex_lt_toLex.mpr (.inr ⟨rfl, h'⟩)
    | gt => exact Prod.Lex.toLex_lt_toLex.mpr (.inr ⟨rfl, h'⟩)
    | eq => exact congrArg (fun b => toLex (a, b)) h'

/-- Keys with columns of one kind are compared by tag, rank and shard. -/
theorem PieceKey.totalOrderOn (kinds : Tag → List Kind) :
    TotalOrderOn PieceKey.cmp (PieceKey.OneKind kinds) := by
  refine ⟨Nat ×ₗ (List (List Int) ×ₗ Nat), inferInstance,
    fun id => toLex (id.tag.toNat, toLex (Row.rank id.key, id.requesting_shard)), ?_⟩
  intro a b ha hb
  refine compares_lex ((compare_iff _ _).mp rfl) fun htag => ?_
  have hkinds : Row.kinds a.key = Row.kinds b.key := by
    rw [ha, hb, UInt32.toNat_inj.mp htag]
  exact compares_lex (Row.cmp_compares hkinds) fun _ => (compare_iff _ _).mp rfl

namespace Union

variable {B : OrderedMap PieceKey ReplayPieces} {key : Row} {key_cols : List Nat} {src : Nat}
  {rs out : Records} {k : List Nat}

/-- Where some columns of the output come from in the rows of a parent. -/
def input_cols (u : Union B) (src : Nat) (cols : List Nat) : Option (List Nat) :=
  match u.emit with
  | .allFrom => some cols
  | .project emit_l => do
    let emit ← emit_l.get? src
    cols.mapM fun c => emit[c]?

/-- The records of a packet with the key of an upquery, as the union puts them out. -/
def keyed (u : Union B) (cols : Tag → List Nat) (q : Upquery) (e : Packet) : Records :=
  (u.emitted e.src e.rs).filter fun r => VRow.proj (cols q.tag) (Row.val r.row) = q.key

/-- What a packet means for an upquery. -/
def note (u : Union B) (cols : Tag → List Nat) (q : Upquery) (e : Packet) : Note Nat Record :=
  match e.context with
  | .none => .update e.src (u.keyed cols q e)
  | .partialFor _ keys requesting_shard tag _ =>
    if tag = q.tag ∧ requesting_shard = q.requesting_shard ∧ ∃ k ∈ keys.elems, Row.val k = q.key
    then .answer e.src (u.keyed cols q e)
    else .other
  | .full _ => .other

/-- The packets since the key of an upquery was last released, up to `e`. -/
def roundOf (u : Union B) (cols : Tag → List Nat) (before : List Packet) (e : Packet)
    (q : Upquery) : List (Note Nat Record) :=
  round u.parents (before.map (u.note cols q)) ++ [u.note cols q e]

/-- The rows of all parents for a key. -/
def answer (u : Union B) (h : List (Note Nat Record)) : Multiset Record :=
  ∑ s ∈ u.parents, ((pending s h).getD [] : Multiset Record)

/-- Has every parent answered the upquery with packet `e`, since the key was last released? -/
def Completes (u : Union B) (cols : Tag → List Nat) (before : List Packet) (e : Packet)
    (q : Upquery) : Prop :=
  Gather.Complete u.parents (u.roundOf cols before e q)

instance (u : Union B) (cols : Tag → List Nat) (before : List Packet) (e : Packet) (q : Upquery) :
    Decidable (u.Completes cols before e q) :=
  inferInstanceAs (Decidable (Gather.Complete u.parents (u.roundOf cols before e q)))

/-- **What the union should put out** for packet `e` after the packets `before`. Regular records are
    forwarded. A key of a piece is released if every parent has answered since it was last released,
    and captured otherwise, and the rows are the answers to the released keys. -/
def Right (u : Union B) (cols : Tag → List Nat) (before : List Packet) (e : Packet) :
    RawProcessingResult → Prop
  | .regular res => e.context = .none ∧ res = passed (u.emitted e.src e.rs)
  | .replayPiece rows released captured =>
    ∃ keys requesting_shard tag,
      e.context = .partialFor (cols tag) keys requesting_shard tag false ∧
      (∀ k, released.contains k = true ↔ keys.contains k = true ∧
        u.Completes cols before e ⟨tag, Row.val k, requesting_shard⟩) ∧
      (∀ k, captured.contains k = true ↔ keys.contains k = true ∧
        ¬u.Completes cols before e ⟨tag, Row.val k, requesting_shard⟩) ∧
      (rows : Multiset Record) = (released.elems.map fun k =>
        u.answer (u.roundOf cols before e ⟨tag, Row.val k, requesting_shard⟩)).sum
  | _ => False

/-! ## Runs -/

/-- **A run of upqueries.** The pieces are those of partial replays, and a
    parent answers each upquery at most once before the key is released. -/
structure KeyRun (u : Union B) (cols : Tag → List Nat) (h : List Packet) : Prop where
  src : ∀ e ∈ h, e.src ∈ u.parents
  context : ∀ e ∈ h, e.context = .none ∨ ∃ keys requesting_shard tag,
    e.context = .partialFor (cols tag) keys requesting_shard tag false ∧
      ∀ k ∈ keys.elems, k.length = (cols tag).length
  once : ∀ before e rest, h = before ++ e :: rest → ∀ q rows,
    u.note cols q e = .answer e.src rows →
      gathered u.parents (before.map (u.note cols q)) e.src = none
  /-- The key columns are columns of the output, for every parent. -/
  output : ∀ tag, ∀ src ∈ u.parents, ∃ k, u.input_cols src (cols tag) = some k
  columns : ∀ e ∈ h, ∃ rs, u.emit.on_input e.src e.rs = some rs
  /-- The rows have the key columns. -/
  readable : ∀ e ∈ h, ∀ r ∈ e.rs, ∀ tag k, u.input_cols e.src (cols tag) = some k →
    ∀ c ∈ k, c < r.row.length

/-- **The key columns agree.** The rows of a piece have the same key in the
    columns of the input as in those of the output. -/
def KeysAgree (u : Union B) (h : List Packet) : Prop :=
  ∀ e ∈ h, ∀ key_cols keys requesting_shard tag unishard,
    e.context = .partialFor key_cols keys requesting_shard tag unishard →
    ∀ r ∈ e.rs, (∀ c ∈ key_cols, c < r.row.length) ∧
      ∀ k, u.input_cols e.src key_cols = some k →
        VRow.proj key_cols (Row.val r.row) = VRow.proj k (Row.val r.row)

/-- **The keys of a tag have columns of one kind.** -/
def OneKind (kinds : Tag → List Kind) (h : List Packet) : Prop :=
  ∀ e ∈ h, ∀ key_cols keys requesting_shard tag unishard,
    e.context = .partialFor key_cols keys requesting_shard tag unishard →
    ∀ k ∈ keys.elems, Row.kinds k = kinds tag

/-! ## Emitted rows -/

variable {u : Union B} {cols : Tag → List Nat}

theorem on_input_append {rs' out' : Records} (h : u.emit.on_input src rs = some out)
    (h' : u.emit.on_input src rs' = some out') :
    u.emit.on_input src (rs ++ rs') = some (out ++ out') := by
  unfold Emit.on_input at *
  cases hemit : u.emit with
  | allFrom =>
    simp only [hemit, some.injEq] at h h' ⊢
    rw [h, h']
  | project emit_l =>
    simp only [hemit] at h h' ⊢
    rw [mapM_append, h, h']
    rfl

theorem proj_emitted {emit cols : List Nat} {row out : Row} (hk : cols.mapM (emit[·]?) = some k)
    (hout : row.cols emit = some out) :
    VRow.proj cols (Row.val out) = VRow.proj k (Row.val row) := by
  have hval := Row.val_cols hout
  induction cols generalizing k with
  | nil =>
    cases hk
    rfl
  | cons c cols ih =>
    rw [mapM_cons] at hk
    obtain ⟨c', hc', hk⟩ := bind_eq_some_iff.mp hk
    obtain ⟨k', hk', heq⟩ := bind_eq_some_iff.mp hk
    cases heq
    show _ :: VRow.proj cols (Row.val out) = _ :: VRow.proj k' (Row.val row)
    rw [ih hk', hval]
    congr 1
    simp [VRow.proj, List.getD, hc']

theorem input_cols_length {cols : List Nat} (h : u.input_cols src cols = some k) :
    k.length = cols.length := by
  unfold input_cols at h
  cases hemit : u.emit with
  | allFrom =>
    simp only [hemit, some.injEq] at h
    rw [h]
  | project emit_l =>
    simp only [hemit, bind_eq_bind, bind_eq_some_iff] at h
    obtain ⟨emit, -, hk⟩ := h
    exact (forall₂_of_mapM_option hk).length_eq.symm

theorem on_input_filter {cols : List Nat} {key : VRow} (h : u.emit.on_input src rs = some out)
    (hk : u.input_cols src cols = some k) :
    u.emit.on_input src (rs.filter fun r => VRow.proj k (Row.val r.row) = key) =
      some (out.filter fun r => VRow.proj cols (Row.val r.row) = key) := by
  unfold Emit.on_input at *
  unfold input_cols at hk
  cases hemit : u.emit with
  | allFrom =>
    simp only [hemit, some.injEq] at h hk ⊢
    rw [h, hk]
  | project emit_l =>
    simp only [hemit, bind_eq_bind, bind_eq_some_iff] at h hk ⊢
    obtain ⟨emit, hget, hk⟩ := hk
    simp only [hget, bind_some] at h ⊢
    induction rs generalizing out with
    | nil =>
      cases h
      rfl
    | cons r rs ih =>
      rw [mapM_cons] at h
      obtain ⟨r', hr', h⟩ := bind_eq_some_iff.mp h
      obtain ⟨out', hout', heq⟩ := bind_eq_some_iff.mp h
      cases heq
      have hrow := hr'
      rw [map_eq_some_iff] at hrow
      obtain ⟨row, hrow, rfl⟩ := hrow
      have hkey : VRow.proj cols (Row.val (r.withRow row).row) = VRow.proj k (Row.val r.row) := by
        rw [Noria.Sqlite.Record.row_withRow, proj_emitted hk hrow]
      rw [filter_cons, filter_cons, hkey]
      by_cases hp : VRow.proj k (Row.val r.row) = key
      · simp only [hp, decide_true, if_true, mapM_cons, hr', bind_eq_bind,
          bind_some, ih hout']
        rfl
      · simp only [hp, decide_false, Bool.false_eq_true, if_false, ih hout']

/-! ## The union while it happens -/

/-- What is buffered of a parent. -/
def bufferOf (s : Union B) (id : PieceKey) (src : Nat) : Option Records :=
  (B.get? s.replay_pieces id).bind fun pieces => pieces.buffered.get? src

/-- The key columns of a tag are known. -/
def Learned (u : Union B) (cols : Tag → List Nat) (s : Union B) (tag : Tag) : Prop :=
  ∀ src ∈ u.parents, s.replay_key.get? (tag, u.rkey_from src) = u.input_cols src (cols tag)

/-- What is true of every buffered response. -/
structure Stored (u : Union B) (cols : Tag → List Nat) (s : Union B) (id : PieceKey)
    (pieces : ReplayPieces) : Prop where
  nonempty : ∃ src, (pieces.buffered.get? src).isSome = true
  length : id.key.length = (cols id.tag).length
  src : ∀ src, (pieces.buffered.get? src).isSome = true → src ∈ u.parents
  learned : u.Learned cols s id.tag

/-- **The buffers hold what has been answered**, after the packets `before`. -/
structure Gathers (u : Union B) (cols : Tag → List Nat) (kinds : Tag → List Kind)
    (before : List Packet) (s : Union B) : Prop where
  emit : s.emit = u.emit
  required : s.required = u.required
  full_wait_state : s.full_wait_state = .none
  keys : ∀ tag, u.Learned cols s tag ∨
    ∀ src ∈ u.parents, s.replay_key.get? (tag, u.rkey_from src) = none
  built : B.Built (PieceKey.OneKind kinds) s.replay_pieces
  stored : ∀ id pieces, id.OneKind kinds → B.get? s.replay_pieces id = some pieces →
    u.Stored cols s id pieces
  rows : ∀ id src, id.OneKind kinds →
    Option.Rel (fun buf rows => u.emit.on_input src buf = some rows) (s.bufferOf id src)
      (gathered u.parents (before.map (u.note cols id.upquery)) src)

variable {kinds : Tag → List Kind} {s : Union B} {before : List Packet} {e : Packet}
  {id : PieceKey} {pieces : ReplayPieces}

theorem Gathers.rkey_from (hg : u.Gathers cols kinds before s) (src : Nat) :
    s.rkey_from src = u.rkey_from src := by
  unfold Union.rkey_from is_shard_merger
  rw [hg.emit]

/-! ### Regular records -/

theorem hitsKey_eq {cols : List Nat} {r : Row} (hlen : key.length = cols.length)
    (hr : ∀ c ∈ cols, c < r.length) :
    hitsKey cols key r = some (decide (VRow.proj cols (Row.val r) = Row.val key)) := by
  induction cols generalizing key with
  | nil =>
    rw [length_nil, length_eq_zero_iff] at hlen
    subst hlen
    rfl
  | cons c cols ih =>
    cases key with
    | nil => cases hlen
    | cons d key =>
      have hc : c < r.length := hr c mem_cons_self
      have hget : r[c]? = some r[c] := getElem?_eq_getElem hc
      have hproj : VRow.proj (c :: cols) (Row.val r) = r[c].val :: VRow.proj cols (Row.val r) := by
        show (Row.val r).getD c .null :: VRow.proj cols (Row.val r) = _
        rw [Row.val_getD r c hget]
      have htail := ih (Nat.succ.inj hlen) (forall_mem_cons.mp hr).2
      simp only [hitsKey, hget, head?_cons, tail_cons, bind_eq_bind,
        bind_some, htail, hproj, Row.val_cons, List.cons.injEq]
      by_cases heq : (r[c] == d) = true
      · simp [heq, (DataType.beq_iff_val _ _).mp heq]
      · simp [heq, mt (DataType.beq_iff_val _ _).mpr heq]

theorem hitsKey_congr {cols : List Nat} {key' : Row} (h : Row.val key = Row.val key') (r : Row) :
    hitsKey cols key r = hitsKey cols key' r := by
  induction cols generalizing key key' with
  | nil => rfl
  | cons c cols ih =>
    cases key with
    | nil =>
      cases key' with
      | nil => rfl
      | cons d' key' => cases h
    | cons d key =>
      cases key' with
      | nil => cases h
      | cons d' key' =>
        rw [Row.val_cons, Row.val_cons, List.cons.injEq] at h
        have hd : ∀ x : DataType, (x == d) = (x == d') :=
          fun x => BEq.congr_right ((DataType.beq_iff_val d d').mpr h.1)
        simp only [hitsKey, head?_cons, tail_cons, bind_eq_bind, bind_some,
          hd, ih h.2]

theorem absorb_congr {id id' : PieceKey} (h : (id == id') = true) :
    s.absorb src rs id pieces = s.absorb src rs id' pieces := by
  have heq := (PieceKey.beq_iff id id').mp h
  rw [PieceKey.upquery, PieceKey.upquery, Upquery.mk.injEq] at heq
  simp only [absorb, heq.1, hitsKey_congr heq.2.1]

theorem foldlM_keep {f : Record → Option Bool} {p : Record → Bool} (h : ∀ r ∈ rs, f r = some (p r))
    (acc : Records) :
    rs.foldlM (fun acc r => do if ← f r then some (acc ++ [r]) else some acc) acc =
      some (acc ++ rs.filter p) := by
  induction rs generalizing acc with
  | nil => simp
  | cons r rs ih =>
    have hr := h r mem_cons_self
    have hrs := ih (forall_mem_cons.mp h).2
    rw [foldlM_cons, hr, filter_cons]
    cases hp : p r with
    | true =>
      refine (hrs (acc ++ [r])).trans ?_
      rw [append_assoc]
      rfl
    | false => exact hrs acc

/-- **Absorbing a batch.** The records with the key are added to what their
    parent has answered, and to nothing else. -/
theorem absorb_eq (hg : u.Gathers cols kinds before s) (hid : id.OneKind kinds)
    (hget : B.get? s.replay_pieces id = some pieces)
    (hsrc : src ∈ u.parents) (hk : u.input_cols src (cols id.tag) = some k)
    (hread : ∀ r ∈ rs, ∀ c ∈ k, c < r.row.length) :
    ∃ pieces', s.absorb src rs id pieces = some pieces' ∧
      ∀ src', pieces'.buffered.get? src' =
        if src = src' then (pieces.buffered.get? src').map
          (· ++ rs.filter fun r => VRow.proj k (Row.val r.row) = Row.val id.key)
        else pieces.buffered.get? src' := by
  have hstored := hg.stored id pieces hid hget
  have hne : pieces.buffered.entries.isEmpty = false := by
    rw [Bool.eq_false_iff, Ne, List.isEmpty_iff, entries_eq_nil_iff]
    intro hnone
    obtain ⟨src', hsome⟩ := hstored.nonempty
    rw [hnone] at hsome
    cases hsome
  have hlearned := hstored.learned src hsrc
  rw [hk, ← hg.rkey_from] at hlearned
  have hlen : id.key.length = k.length := by
    rw [hstored.length]
    exact (input_cols_length hk).symm
  unfold absorb
  rw [hne, if_neg Bool.false_ne_true]
  cases hbuf : pieces.buffered.get? src with
  | none =>
    refine ⟨pieces, rfl, fun src' => ?_⟩
    by_cases hs : src = src'
    · rw [if_pos hs, ← hs, hbuf]
      rfl
    · rw [if_neg hs]
  | some buf =>
    have hloop := foldlM_keep (f := fun r => hitsKey k id.key r.row)
      (p := fun r => decide (VRow.proj k (Row.val r.row) = Row.val id.key))
      (fun r hr => hitsKey_eq hlen (hread r hr)) buf
    refine ⟨{ pieces with buffered := pieces.buffered.insert src (buf ++ rs.filter fun r =>
      VRow.proj k (Row.val r.row) = Row.val id.key) }, ?_, fun src' => ?_⟩
    · simp only [hlearned, bind_eq_bind, bind_some] at hloop ⊢
      rw [hloop]
      rfl
    · simp only [get?_insert, beq_iff_eq]
      by_cases hs : src = src'
      · rw [if_pos hs, if_pos hs, ← hs, hbuf]
        rfl
      · rw [if_neg hs, if_neg hs]

theorem bufferOf_some (hget : B.get? s.replay_pieces id = some pieces) (src : Nat) :
    s.bufferOf id src = pieces.buffered.get? src := by
  rw [bufferOf, hget]
  rfl

theorem bufferOf_none (hget : B.get? s.replay_pieces id = none) (src : Nat) :
    s.bufferOf id src = none := by
  rw [bufferOf, hget]
  rfl

/-- **A regular batch** is forwarded, and its records are added to the
    answers that their parent has given. -/
theorem Gathers.regular (hB : B.Documented PieceKey.cmp) (hg : u.Gathers cols kinds before s)
    (hP : u.parents.Nonempty)
    (hsrc : e.src ∈ u.parents) (hctx : e.context = .none)
    (hout : u.emit.on_input e.src e.rs = some out)
    (houtput : ∀ tag, ∃ k, u.input_cols e.src (cols tag) = some k)
    (hread : ∀ r ∈ e.rs, ∀ tag k, u.input_cols e.src (cols tag) = some k →
      ∀ c ∈ k, c < r.row.length) :
    ∃ s', machine s e = some (.regular (passed out), s') ∧
      u.Gathers cols kinds (before ++ [e]) s' := by
  have hlaws := hB _ (PieceKey.totalOrderOn kinds)
  have habsorb : ∀ id pieces, id.OneKind kinds → B.get? s.replay_pieces id = some pieces →
      ∃ k pieces', u.input_cols e.src (cols id.tag) = some k ∧
        s.absorb e.src e.rs id pieces = some pieces' ∧
        ∀ src', pieces'.buffered.get? src' =
          if e.src = src' then (pieces.buffered.get? src').map
            (· ++ e.rs.filter fun r => VRow.proj k (Row.val r.row) = Row.val id.key)
          else pieces.buffered.get? src' := by
    intro id pieces hid hget
    obtain ⟨k, hk⟩ := houtput id.tag
    obtain ⟨pieces', hsome, hbuf⟩ :=
      absorb_eq hg hid hget hsrc hk fun r hr => hread r hr id.tag k hk
    exact ⟨k, pieces', hk, hsome, hbuf⟩
  obtain ⟨rp, hrun, hbuilt, hget⟩ : ∃ rp,
      machine s e = some (.regular (passed out), { s with replay_pieces := rp }) ∧
      B.Built (PieceKey.OneKind kinds) rp ∧
      ∀ id, id.OneKind kinds →
        B.get? rp id = (B.get? s.replay_pieces id).bind (s.absorb e.src e.rs id) := by
    have hres : s.on_input e.src e.rs = some (passed out) := by
      rw [on_input, hg.emit, hout]
      rfl
    have hforward : machine s e = s.forward e.src e.rs := by
      unfold machine on_input_raw
      rw [hctx]
      simp only [on_regular, hg.full_wait_state]
    rw [hforward, forward]
    by_cases hempty : B.isEmpty s.replay_pieces = true
    · -- no response is buffered, and none is changed
      refine ⟨s.replay_pieces, ?_, hg.built, fun id hid => ?_⟩
      · rw [if_pos hempty, hres]
        rfl
      · rw [hlaws.isEmpty hg.built hempty hid]
        rfl
    · obtain ⟨rp, hrp, hget⟩ := hlaws.updateAll hg.built (f := s.absorb e.src e.rs)
        (fun id id' pieces heq => absorb_congr ((PieceKey.cmp_eq_iff id id').mp heq))
        (fun id pieces hid hget => by
          obtain ⟨_, pieces', _, hsome, _⟩ := habsorb id pieces hid hget
          exact ⟨pieces', hsome⟩)
      refine ⟨rp, ?_, .updateAll hg.built hrp, hget⟩
      rw [if_neg hempty, hrp, hres]
      rfl
  refine ⟨{ s with replay_pieces := rp }, hrun, ?_⟩
  refine ⟨hg.emit, hg.required, hg.full_wait_state, hg.keys, hbuilt, ?_, ?_⟩
  · intro id pieces' hid hpieces'
    rw [hget id hid, bind_eq_some_iff] at hpieces'
    obtain ⟨pieces, hpieces, hsome⟩ := hpieces'
    obtain ⟨k, pieces'', -, hsome', hbuf⟩ := habsorb id pieces hid hpieces
    rw [hsome] at hsome'
    cases hsome'
    have hstored := hg.stored id pieces hid hpieces
    have hiff : ∀ src', (pieces'.buffered.get? src').isSome
        = (pieces.buffered.get? src').isSome := by
      intro src'
      rw [hbuf]
      split
      · exact isSome_map
      · rfl
    obtain ⟨src₀, hsrc₀⟩ := hstored.nonempty
    exact ⟨⟨src₀, (hiff src₀).trans hsrc₀⟩, hstored.length,
      fun src' h => hstored.src src' ((hiff src').symm.trans h), hstored.learned⟩
  · intro id src' hid
    have hnote : u.note cols id.upquery e = .update e.src (out.filter fun r =>
        VRow.proj (cols id.tag) (Row.val r.row) = Row.val id.key) := by
      unfold note keyed emitted
      rw [hctx, hout]
      rfl
    have hrows := hg.rows id src' hid
    rw [map_append, map_singleton, hnote, Gather.gathered_update hP]
    cases hpieces : B.get? s.replay_pieces id with
    | none =>
      rw [bufferOf_none hpieces] at hrows
      rw [bufferOf_none (by rw [hget id hid, hpieces]; rfl)]
      generalize gathered u.parents (before.map (u.note cols id.upquery)) src' = g at hrows ⊢
      cases hrows
      rw [map_none, ite_self]
      exact .none
    | some pieces =>
      obtain ⟨k, pieces', hk, hsome, hbuf⟩ := habsorb id pieces hid hpieces
      rw [bufferOf_some hpieces] at hrows
      rw [bufferOf_some (by rw [hget id hid, hpieces]; exact hsome), hbuf]
      by_cases hs : e.src = src'
      · rw [if_pos hs, if_pos hs]
        subst hs
        generalize gathered u.parents (before.map (u.note cols id.upquery)) e.src = g at hrows ⊢
        generalize pieces.buffered.get? e.src = b at hrows ⊢
        cases hrows with
        | none => exact .none
        | some hin => exact .some (on_input_append hin (on_input_filter hout hk))
      · rw [if_neg hs, if_neg hs]
        exact hrows

/-! ### The key columns of a tag -/

theorem learn_others (src : Nat) (tag : Tag) {l : List (Nat × List Nat)}
    {f : Nat → Option (List Nat)}
    (hl : ∀ e ∈ l, f e.1 = key_cols.mapM (e.2[·]?) ∧ (f e.1).isSome = true)
    (rk : AssocMap (Tag × Nat) (List Nat)) : ∃ rk', l.foldlM (fun replay_key e => do
        if e.1 ≠ src then
          let k ← key_cols.mapM fun c => e.2[c]?
          some (replay_key.insert (tag, e.1) k)
        else some replay_key) rk = some rk' ∧
      ∀ t p, rk'.get? (t, p) =
        if t = tag ∧ p ≠ src ∧ ∃ e ∈ l, e.1 = p then f p else rk.get? (t, p) := by
  induction l generalizing rk with
  | nil => exact ⟨rk, rfl, fun t p => by simp⟩
  | cons a l ih =>
    have ih' := ih (forall_mem_cons.mp hl).2
    obtain ⟨hf, hsome⟩ := hl a mem_cons_self
    by_cases ha : a.1 = src
    · obtain ⟨rk', hrk', hget⟩ := ih' rk
      refine ⟨rk', ?_, fun t p => ?_⟩
      · rw [foldlM_cons, if_neg (not_not.mpr ha)]
        exact hrk'
      · rw [hget]
        refine if_congr ?_ rfl rfl
        simp only [mem_cons, exists_eq_or_imp, ha]
        constructor
        · rintro ⟨ht, hp, he⟩
          exact ⟨ht, hp, .inr he⟩
        · rintro ⟨ht, hp, he⟩
          exact ⟨ht, hp, he.resolve_left (Ne.symm hp)⟩
    · obtain ⟨k, hk⟩ := isSome_iff_exists.mp hsome
      obtain ⟨rk', hrk', hget⟩ := ih' (rk.insert (tag, a.1) k)
      refine ⟨rk', ?_, fun t p => ?_⟩
      · rw [foldlM_cons, if_pos ha, ← hf, hk]
        exact hrk'
      · rw [hget, get?_insert]
        by_cases hin : t = tag ∧ p ≠ src ∧ ∃ e ∈ l, e.1 = p
        · obtain ⟨ht, hp, e, he, hep⟩ := hin
          rw [if_pos ⟨ht, hp, e, he, hep⟩, if_pos ⟨ht, hp, e, mem_cons_of_mem _ he, hep⟩]
        · rw [if_neg hin]
          by_cases hap : t = tag ∧ a.1 = p
          · obtain ⟨rfl, rfl⟩ := hap
            rw [if_pos (by simp), if_pos ⟨rfl, ha, a, mem_cons_self, rfl⟩, hk]
          · have hne : ¬((tag, a.1) == (t, p)) = true := by
              intro h
              obtain ⟨rfl, rfl⟩ := Prod.mk.inj (eq_of_beq h)
              exact hap ⟨rfl, rfl⟩
            rw [if_neg hne, if_neg]
            rintro ⟨ht, hp, e, he, hep⟩
            rcases mem_cons.mp he with rfl | he
            · exact hap ⟨ht, hep⟩
            · exact hin ⟨ht, hp, e, he, hep⟩

/-- **The key columns are learned** with the first piece of a tag, for all parents at once. -/
theorem learnKey_eq (hg : u.Gathers cols kinds before s) (hsrc : src ∈ u.parents) {tag : Tag}
    (houtput : ∀ src ∈ u.parents, ∃ k, u.input_cols src (cols tag) = some k) :
    ∃ rk, s.learnKey src (cols tag) tag = some rk ∧
      (∀ src' ∈ u.parents, rk.get? (tag, u.rkey_from src') = u.input_cols src' (cols tag)) ∧
      ∀ t p, t ≠ tag → rk.get? (t, p) = s.replay_key.get? (t, p) := by
  unfold learnKey
  rw [hg.rkey_from]
  by_cases hknown : s.replay_key.contains (tag, u.rkey_from src) = true
  · refine ⟨s.replay_key, if_pos hknown, ?_, fun _ _ _ => rfl⟩
    rcases hg.keys tag with hlearned | hnone
    · exact hlearned
    · rw [contains_eq, hnone src hsrc] at hknown
      cases hknown
  · rw [if_neg hknown, hg.emit]
    cases hemit : u.emit with
    | allFrom =>
      have hrkey : ∀ src', u.rkey_from src' = 0 := by
        intro src'
        unfold rkey_from is_shard_merger
        rw [hemit]
        rfl
      refine ⟨_, rfl, fun src' _ => ?_, fun t p ht => ?_⟩
      · rw [hrkey, hrkey, get?_insert_self, input_cols, hemit]
      · rw [get?_insert, if_neg]
        simp [Ne.symm ht]
    | project emit_l =>
      have hrkey : ∀ src', u.rkey_from src' = src' := by
        intro src'
        unfold rkey_from is_shard_merger
        rw [hemit]
        rfl
      have hcols : ∀ src' emit, emit_l.get? src' = some emit →
          u.input_cols src' (cols tag) = (cols tag).mapM (emit[·]?) := by
        intro src' emit hget
        simp only [input_cols, hemit, hget, bind_eq_bind, bind_some]
      have hmem : ∀ src', src' ∈ u.parents ↔ (emit_l.get? src').isSome = true := by
        intro src'
        unfold parents
        rw [hemit]
        exact emit_l.mem_keys src'
      obtain ⟨emit, hget⟩ := isSome_iff_exists.mp ((hmem src).mp hsrc)
      obtain ⟨k, hk⟩ := houtput src hsrc
      have hk' := hk
      rw [hcols src emit hget] at hk'
      have hothers : ∀ e ∈ emit_l.entries,
          u.input_cols e.1 (cols tag) = (cols tag).mapM (e.2[·]?) ∧
            (u.input_cols e.1 (cols tag)).isSome = true := by
        intro e he
        have hget' := emit_l.get?_of_mem he
        refine ⟨hcols e.1 e.2 hget', ?_⟩
        obtain ⟨k', hk'⟩ := houtput e.1 ((hmem e.1).mpr (by rw [hget']; rfl))
        rw [hk']
        rfl
      obtain ⟨rk, hrk, hrkget⟩ := learn_others (f := fun p => u.input_cols p (cols tag)) src tag
        hothers (s.replay_key.insert (tag, u.rkey_from src) k)
      refine ⟨rk, ?_, fun src' hsrc' => ?_, fun t p ht => ?_⟩
      · simp only [hget, bind_eq_bind, bind_some, hk']
        exact hrk
      · rw [hrkey, hrkget]
        by_cases hs : src' = src
        · rw [if_neg fun hand : _ ∧ _ => hand.2.1 hs, hs, hrkey, get?_insert_self, hk]
        · obtain ⟨emit', hget'⟩ := isSome_iff_exists.mp ((hmem src').mp hsrc')
          obtain ⟨src₀, hsrc₀, hmem₀⟩ := emit_l.mem_of_get? hget'
          rw [if_pos ⟨rfl, hs, (src₀, emit'), hmem₀, eq_of_beq hsrc₀⟩]
      · rw [hrkget, if_neg fun hand : _ ∧ _ => ht hand.1, get?_insert, if_neg]
        simp [Ne.symm ht]

/-! ### The rows of a piece -/

theorem rs_by_key_eq (hread : ∀ r ∈ rs, ∀ c ∈ key_cols, c < r.row.length) :
    ∃ hm, rs_by_key key_cols rs = some hm ∧ ∀ key, (hm.get? key).getD [] =
      rs.filter fun r => VRow.proj key_cols (Row.val r.row) = Row.val key := by
  suffices hloop : ∀ hm₀ : AssocMap Row Records, ∃ hm, rs.foldlM (fun hm r => do
          let key ← r.row.cols key_cols
          some (hm.insert key ((hm.get? key).getD [] ++ [r]))) hm₀ = some hm ∧
        ∀ key, (hm.get? key).getD [] = (hm₀.get? key).getD [] ++
          rs.filter fun r => VRow.proj key_cols (Row.val r.row) = Row.val key by
    obtain ⟨hm, hrun, hget⟩ := hloop ∅
    exact ⟨hm, hrun, hget⟩
  induction rs with
  | nil => exact fun hm₀ => ⟨hm₀, rfl, fun key => (append_nil _).symm⟩
  | cons r rs ih =>
    intro hm₀
    obtain ⟨key, hkey⟩ := Row.cols_isSome (hread r mem_cons_self)
    have hval := Row.val_cols hkey
    obtain ⟨hm, hrun, hget⟩ := ih (forall_mem_cons.mp hread).2
      (hm₀.insert key ((hm₀.get? key).getD [] ++ [r]))
    refine ⟨hm, ?_, fun key' => ?_⟩
    · rw [foldlM_cons, hkey]
      exact hrun
    · rw [hget, get?_insert, filter_cons, ← hval]
      by_cases heq : (key == key') = true
      · rw [if_pos heq, if_pos (decide_eq_true ((Row.beq_iff_val _ _).mp heq)),
          hm₀.get?_congr heq, getD_some, append_assoc]
        rfl
      · rw [if_neg heq, if_neg fun h => heq ((Row.beq_iff_val _ _).mpr (of_decide_eq_true h))]

end Union

end Noria.Server

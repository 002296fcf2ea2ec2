import Noria.Framework.Machine
import Noria.Framework.OrderedMap
import Noria.Order
import Noria.Server.Processing
import Noria.Server.State

/-! # Unions

  A union merges the output of several parents, or of the shards of one parent
  (`dataflow/src/ops/union.rs`). Regular records go straight through. Replays do not: a replay is
  only complete once every parent has answered, so the union holds its pieces back, together with
  the records that follow them, until the last piece has come in. There are two such protocols: one
  for the replay of everything (`FullWait`) and one for the replay of keys (`ReplayPieces`).

  In a union of shards the parent a packet comes from (`from` in the
  source, `src` here) is a shard index. Its own node index, which only
  appears in the text of a panic, is left out; all panics are `none`.

  The buffered pieces are in a `BTreeMap`, so they are found by `DataType::cmp`, which is no order
  on keys of several kinds. The operations of the map are a parameter `B`; what they promise is
  `OrderedMap.Documented`.
-/

namespace Noria.Server

open Noria.Sqlite (Record Records)

/-! ## The operator -/

/-- What is emitted for each parent. -/
inductive Emit where
  | allFrom
  | project (emit_l : AssocMap Nat (List Nat))

/-- The replay of everything. -/
inductive FullWait where
  | none
  | ongoing (started : Finset Nat) (finished : Nat) (buffered : Records)

structure ReplayPieces where
  buffered : AssocMap Nat Records
  evict : Bool

/-- What a buffered upquery response is filed under. -/
structure PieceKey where
  tag : Tag
  key : Row
  requesting_shard : Nat

instance : BEq PieceKey where
  beq a b := a.tag == b.tag && a.key == b.key && a.requesting_shard == b.requesting_shard

/-- The order of the tuples, column by column. -/
def PieceKey.cmp (a b : PieceKey) : Ordering :=
  (compare a.tag.toNat b.tag.toNat).then
    ((Row.cmp a.key b.key).then (compare a.requesting_shard b.requesting_shard))

structure Union (B : OrderedMap PieceKey ReplayPieces) where
  emit : Emit
  /-- The key columns of a tag, in the columns of each parent. -/
  replay_key : AssocMap (Tag × Nat) (List Nat)
  /-- Upquery responses that are waiting for more replay pieces. -/
  replay_pieces : B.Map
  required : Nat
  full_wait_state : FullWait

/-- `unimplemented!` on columns out of order; the first column of an empty list is out of bounds. -/
def inOrder : List Nat → Bool
  | [] => false
  | c :: cols => (cols.foldl (fun acc i => (acc.1 && !(i < acc.2), i)) (true, c)).1

/-- How a packet takes part in a replay. -/
inductive ReplayContext where
  | none
  | partialFor (key_cols : List Nat) (keys : KeySet Row) (requesting_shard : Nat) (tag : Tag)
      (unishard : Bool)
  | full (last : Bool)

inductive RawProcessingResult where
  | regular (result : ProcessingResult)
  | fullReplay (rs : Records) (last : Bool)
  | capturedFull
  | replayPiece (rows : Records) (keys captured : KeySet Row)

/-- The columns emitted for a parent, of each of its records. -/
def Emit.on_input (emit : Emit) (src : Nat) (rs : Records) : Option Records :=
  match emit with
  | .allFrom => some rs
  | .project emit_l => rs.mapM fun r => do
    let cols ← emit_l.get? src
    (r.row.cols cols).map r.withRow

/-- Does a row have the key? `none` is an index out of bounds. -/
def hitsKey : List Nat → Row → Row → Option Bool
  | [], _, _ => some true
  | c :: cols, key, r => do
    let d ← r[c]?
    let k ← key.head?
    if d == k then hitsKey cols key.tail r else some false

namespace Union

section

variable (B : OrderedMap PieceKey ReplayPieces)

def new (emit : AssocMap Nat (List Nat)) : Option (Union B) :=
  if !emit.entries.isEmpty && emit.entries.all fun e => inOrder e.2 then
    some ⟨.project emit, ∅, B.empty, emit.entries.length, .none⟩
  else none

def new_deshard (shards : Nat) : Union B := ⟨.allFrom, ∅, B.empty, shards, .none⟩

end

variable {B : OrderedMap PieceKey ReplayPieces}

def is_shard_merger (u : Union B) : Bool :=
  match u.emit with
  | .allFrom => true
  | .project _ => false

def on_input (u : Union B) (src : Nat) (rs : Records) : Option ProcessingResult :=
  (u.emit.on_input src rs).map fun rs => { ProcessingResult.empty with results := rs }

/-- Where the key columns for a parent are kept. -/
def rkey_from (u : Union B) (src : Nat) : Nat := if u.is_shard_merger then 0 else src

/-! ### Regular records -/

/-- The records of a batch that belong to a buffered response of their parent are added to it. -/
def absorb (u : Union B) (src : Nat) (rs : Records) (id : PieceKey) (pieces : ReplayPieces) :
    Option ReplayPieces :=
  -- "empty pieces bucket left in replay pieces"
  if pieces.buffered.entries.isEmpty then none
  else
    match pieces.buffered.get? src with
    | none => some pieces
    | some buffered => do
      let k ← u.replay_key.get? (id.tag, u.rkey_from src)
      let buffered ← rs.foldlM (fun buffered r => do
        if ← hitsKey k id.key r.row then some (buffered ++ [r]) else some buffered) buffered
      some { pieces with buffered := pieces.buffered.insert src buffered }

/-- Records outside of a full replay. -/
def forward (u : Union B) (src : Nat) (rs : Records) : Option (RawProcessingResult × Union B) := do
  if B.isEmpty u.replay_pieces then
    some (.regular (← u.on_input src rs), u)
  else
    let replay_pieces ← B.updateAll u.replay_pieces (u.absorb src rs)
    some (.regular (← u.on_input src rs), { u with replay_pieces })

def on_regular (u : Union B) (src : Nat) (rs : Records) : Option (RawProcessingResult × Union B) :=
  match u.full_wait_state with
  | .none => u.forward src rs
  | .ongoing started finished buffered =>
    if started.card ≠ u.required ∧ src ∈ started then
      if u.replay_key.entries.isEmpty || B.isEmpty u.replay_pieces then do
        let res ← u.on_input src rs
        some (.regular res,
          { u with full_wait_state := .ongoing started finished (buffered ++ res.results) })
      else none
    else u.forward src rs

/-! ### Full replays -/

def on_full (u : Union B) (src : Nat) (rs : Records) (last : Bool) :
    Option (RawProcessingResult × Union B) := do
  let rs := (← u.on_input src rs).results
  match u.full_wait_state with
  | .none =>
    if u.required = 1 then some (.fullReplay rs last, u)
    else
      some (.capturedFull,
        { u with full_wait_state := .ongoing {src} (if last then 1 else 0) rs })
  | .ongoing started finished buffered =>
    let finished := if last then finished + 1 else finished
    if finished = u.required then
      some (.fullReplay (buffered ++ rs) true, { u with full_wait_state := .none })
    else if started.card ≠ u.required then
      let inserted := src ∉ started
      let started := insert src started
      if inserted ∧ started.card = u.required then
        some (.fullReplay (buffered ++ rs) false,
          { u with full_wait_state := .ongoing started finished [] })
      else
        some (.capturedFull,
          { u with full_wait_state := .ongoing started finished (buffered ++ rs) })
    else some (.fullReplay rs false,
      { u with full_wait_state := .ongoing started finished buffered })

/-! ### Replays of keys -/

/-- The key columns of a tag are translated to the columns of every parent
    when its first piece comes in. -/
def learnKey (u : Union B) (src : Nat) (key_cols : List Nat) (tag : Tag) :
    Option (AssocMap (Tag × Nat) (List Nat)) :=
  if u.replay_key.contains (tag, u.rkey_from src) then some u.replay_key
  else
    match u.emit with
    | .allFrom => some (u.replay_key.insert (tag, u.rkey_from src) key_cols)
    | .project emit_l => do
      let emit ← emit_l.get? src
      let k ← key_cols.mapM fun c => emit[c]?
      emit_l.entries.foldlM (fun replay_key e => do
        if e.1 ≠ src then
          let k ← key_cols.mapM fun c => e.2[c]?
          some (replay_key.insert (tag, e.1) k)
        else some replay_key) (u.replay_key.insert (tag, u.rkey_from src) k)

/-- The rows of a piece by key. -/
def rs_by_key (key_cols : List Nat) (rs : Records) : Option (AssocMap Row Records) :=
  rs.foldlM (fun hm r => do
    let key ← r.row.cols key_cols
    some (hm.insert key ((hm.get? key).getD [] ++ [r]))) ∅

/-- The loop over the keys of a piece. -/
structure Sorting (B : OrderedMap PieceKey ReplayPieces) where
  rs_by_key : AssocMap Row Records
  replay_pieces : B.Map
  released : List (Row × ReplayPieces)
  captured : KeySet Row

/-- Store the piece for one key, and take out the response that it completes. -/
def storePiece (u : Union B) (src : Nat) (tag : Tag) (requesting_shard : Nat) (st : Sorting B)
    (key : Row) : Option (Sorting B) :=
  let rs := (st.rs_by_key.get? key).getD []
  let rs_by_key := st.rs_by_key.erase key
  let id : PieceKey := ⟨tag, key, requesting_shard⟩
  match B.get? st.replay_pieces id with
  | some e =>
    -- "downstream shard double-requested key"
    if e.buffered.contains src then none
    else
      let m := { e with buffered := e.buffered.insert src rs }
      if e.buffered.entries.length = u.required - 1 then
        some ⟨rs_by_key, B.erase st.replay_pieces id, st.released ++ [(key, m)], st.captured⟩
      else
        some ⟨rs_by_key, B.insert st.replay_pieces id m, st.released, st.captured.add key⟩
  | none =>
    let m : ReplayPieces := ⟨(∅ : AssocMap Nat Records).insert src rs, false⟩
    if u.required = 1 then
      some ⟨rs_by_key, st.replay_pieces, st.released ++ [(key, m)], st.captured⟩
    else
      some ⟨rs_by_key, B.insert st.replay_pieces id m, st.released, st.captured.add key⟩

def on_piece (u : Union B) (src : Nat) (rs : Records) (key_cols : List Nat) (keys : KeySet Row)
    (requesting_shard : Nat) (tag : Tag) (unishard : Bool) :
    Option (RawProcessingResult × Union B) := do
  if u.is_shard_merger && unishard then
    -- the request was for one shard only
    if B.isEmpty u.replay_pieces then some (.replayPiece rs keys ∅, u) else none
  else
    let replay_key ← u.learnKey src key_cols tag
    let rs_by_key ← rs_by_key key_cols rs
    let st ← keys.elems.foldlM (u.storePiece src tag requesting_shard)
      ⟨rs_by_key, u.replay_pieces, [], ∅⟩
    let rows ← (st.released.flatMap fun e => e.2.buffered.entries).mapM fun e =>
      u.emit.on_input e.1 e.2
    some (.replayPiece rows.flatten (st.released.foldl (fun s e => s.add e.1) ∅) st.captured,
      { u with replay_key, replay_pieces := st.replay_pieces })

/-! ### Packets -/

def on_input_raw (u : Union B) (src : Nat) (rs : Records) :
    ReplayContext → Option (RawProcessingResult × Union B)
  | .none => u.on_regular src rs
  | .full last => u.on_full src rs last
  | .partialFor key_cols keys requesting_shard tag unishard =>
    u.on_piece src rs key_cols keys requesting_shard tag unishard

end Union

/-! ## Packets and runs -/

/-- A packet that reaches an operator. -/
structure Packet where
  src : Nat
  rs : Records
  context : ReplayContext

namespace Union

variable {B : OrderedMap PieceKey ReplayPieces}

def machine : Machine (Union B) Packet RawProcessingResult :=
  fun u e => u.on_input_raw e.src e.rs e.context

def parents (u : Union B) : Finset Nat :=
  match u.emit with
  | .allFrom => Finset.range u.required
  | .project emit_l => emit_l.keys

/-- Two shards, with pieces that are found by the equality of their keys. -/
abbrev twoShards : Union (.hashed PieceKey ReplayPieces) := new_deshard _ 2

/-- A union as it is constructed. -/
def Made (u : Union B) : Prop :=
  (∃ shards, u = new_deshard B shards) ∨ ∃ emit, new B emit = some u

/-- The rows that come out of an operator. -/
def passed (rs : Records) : ProcessingResult := { ProcessingResult.empty with results := rs }

def emitted (u : Union B) (src : Nat) (rs : Records) : Records := (u.emit.on_input src rs).getD []

/-- Nothing is being replayed, and no response is buffered. -/
structure Idle (u : Union B) : Prop where
  required : u.required = u.parents.card
  full_wait_state : u.full_wait_state = .none
  replay_pieces : B.isEmpty u.replay_pieces = true

theorem Made.idle {u : Union B} (h : u.Made) : u.Idle := by
  rcases h with ⟨shards, rfl⟩ | ⟨emit, hnew⟩
  · exact ⟨(Finset.card_range shards).symm, rfl, B.isEmpty_empty⟩
  · unfold new at hnew
    split at hnew
    · cases hnew
      exact ⟨(AssocMap.card_keys emit).symm, rfl, B.isEmpty_empty⟩
    · cases hnew

end Union

end Noria.Server

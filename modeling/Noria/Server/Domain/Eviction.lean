import Noria.Framework.Outcome
import Noria.Server.State
import Noria.Text

/-! # Evictions in a domain

  When keys are evicted from a partial index, whatever has been computed from them has to go too:
  the keys are handed to every node on every replay path that starts at the index, evicted at the
  end of the path, and so on from there (`domain/mod.rs`, `handle_eviction`). Egress nodes and
  sharders pass the eviction on to other domains.

  A failed assertion, an `unreachable!` or an index out of bounds is a panic. The recursion has a
  bound on its depth; the only error is to reach it.
-/

namespace Noria

/-! ## Sizes -/

def DataType.deep_size_of : DataType → Nat
  | .text t => 16 + (8 + t.bytes.length)
  | _ => 16

def Row.deep_size_of (r : Row) : Nat := 24 + (r.map DataType.deep_size_of).sum

def bytesOf (rs : List Row) : Nat := (rs.map Row.deep_size_of).sum

namespace Server

namespace Domain

/-! ## Replay paths -/

/-- How the replays along a path are triggered, and with which columns of its source. -/
inductive TriggerEndpoint where
  | none
  /-- By a request to another domain (`End`). -/
  | endpoint
  | start (key : List Nat)
  | localKey (key : List Nat)

structure ReplayPathSegment where
  node : Nat
  partial_key : Option (List Nat)

structure ReplayPath where
  source : Option Nat
  path : List ReplayPathSegment
  trigger : TriggerEndpoint

/-! ## Nodes -/

structure EvictKeys where
  addr : Nat
  src : Nat
  dst : Nat
  tag : Tag
  keys : List Row

structure EgressTx where
  node : Nat
  localNode : Nat
  dest : Nat

structure Egress where
  txs : List EgressTx
  tags : AssocMap Tag Nat

/-- An eviction is sent on to the ingress node that follows on the path. -/
def Egress.process (e : Egress) (tag : Tag) (keys : List Row) (shard : Nat) :
    Option (List EvictKeys) :=
  if e.txs.isEmpty then none
  else do
    let replay_to ← e.tags.get? tag
    some ((e.txs.find? fun tx => tx.node == replay_to).map fun tx =>
      ⟨tx.dest, shard, tx.localNode, tag, keys⟩).toList

/-- `%`, which panics on zero. -/
def rem (n shards : Nat) : Option Nat := if shards = 0 then none else some (n % shards)

/-- The shard of a value, with a hash function for the bytes of a `str`. There is none for a real
    number, a timestamp or a text that is not valid UTF-8, and NULL goes to the first shard without
    a look at the number of shards. -/
def shard_by (hash_text : List UInt8 → Nat) (dt : DataType) (shards : Nat) : Option Nat :=
  match dt with
  | .int n => rem (n.toInt % 2 ^ 64).toNat shards
  | .unsignedInt n => rem n.toNat shards
  | .bigInt n => rem (n.toInt % 2 ^ 64).toNat shards
  | .unsignedBigInt n => rem n.toNat shards
  | .text _ | .tinyText _ => do
    let s ← dt.to_str
    rem (hash_text (as_bytes s)) shards
  | .none => some 0
  | .real _ _ => none
  | .timestamp _ => none

structure Sharder where
  txs : List (Nat × Nat)
  shard_by : Nat

/-- An eviction is split among the shards if it is for the column that is sharded by. Otherwise it
    should go to all of them; but the assertion that there are key columns reads
    `assert_eq!(!key_columns.len(), 0)`, where `!` negates the bits of a `usize`. -/
def Sharder.process_eviction (s : Sharder) (hash_text : List UInt8 → Nat)
    (key_columns : List Nat) (tag : Tag) (keys : List Row) (src : Nat) (is_sharded : Bool) :
    Option (List EvictKeys) :=
  if is_sharded then none
  else if key_columns = [s.shard_by] then do
    let sharded ← keys.mapM fun key => do
      let dt ← key.head?
      let shard ← Domain.shard_by hash_text dt s.txs.length
      let _ ← s.txs[shard]?
      some (shard, key)
    some (s.txs.zipIdx.filterMap fun tx =>
      match sharded.filter fun e => e.1 == tx.2 with
      | [] => none
      | es => some ⟨tx.1.2, src, tx.1.1, tag, es.map Prod.snd⟩)
  else if ~~~(UInt64.ofNat key_columns.length) ≠ 0 then none
  else if key_columns.contains s.shard_by then none
  else some (s.txs.map fun tx => ⟨tx.2, src, tx.1, tag, keys⟩)

inductive NodeType where
  | base
  | ingress
  | dropped
  | source
  | egress (e : Option Egress)
  | sharder (s : Sharder)
  | internal
  | reader

def NodeType.is_reader : NodeType → Bool
  | .reader => true
  | _ => false

def NodeType.is_dropped : NodeType → Bool
  | .dropped => true
  | _ => false

/-! ## Readers -/

/-- The state of a reader: what it shows, and the bytes of it. -/
structure WriteHandle where
  key : List Nat
  rows : AssocMap Row (List Row)
  mem_size : Nat

namespace WriteHandle

/-- Keys of one or two columns are taken apart. -/
def keyFits (w : WriteHandle) (key : Row) : Bool := 2 < w.key.length || key.length == w.key.length

def sizeAt (w : WriteHandle) (key : Row) : Nat := bytesOf ((w.rows.get? key).getD [])

/-- The counter without the rows of a key. -/
def mark_hole (w : WriteHandle) (mem_size : Nat) (key : Row) : Option Nat :=
  if w.keyFits key then
    -- `checked_sub(size).unwrap()`
    if w.sizeAt key ≤ mem_size then some (mem_size - w.sizeAt key) else none
  else none

/-- The map shows the change only when it is swapped, so that a key that is
    given twice is subtracted twice. -/
def markHoles (w : WriteHandle) (keys : List Row) : Option Nat :=
  keys.foldlM w.mark_hole w.mem_size

def on_eviction (w : WriteHandle) (keys : List Row) : Option WriteHandle := do
  let mem_size ← w.markHoles keys
  some { w with mem_size, rows := keys.foldl AssocMap.erase w.rows }

end WriteHandle

end Domain

/-! ## The domain -/

open Domain in
/-- What an eviction finds in a domain and does not change. -/
structure Domain (σ : Type) where
  nodes : Nat → NodeType
  /-- In the order of the hash map. -/
  replay_paths : List (Tag × Domain.ReplayPath)
  shard : Option Nat
  /-- The node that keys are evicted from by its own loop, which holds the node's `RefCell`. -/
  held : Option Nat
  /-- What an operator does on an eviction. -/
  on_eviction : Nat → σ → Nat → Tag → List Row → σ
  hash_text : List UInt8 → Nat

namespace Domain

/-- What an eviction changes, and the calls of `process_eviction`. -/
structure Contents (σ : Type) where
  state : Nat → Option MemoryState
  writers : Nat → Option WriteHandle
  ops : Nat → σ
  sent : List EvictKeys
  passed : List (Nat × Tag × List Row)

variable {σ : Type} (D : Domain σ)

/-- The effect on a node of its own kind. -/
def nodeEviction (node src : Nat) (key_columns : List Nat) (keys : List Row) (tag : Tag)
    (s : Contents σ) : Option (Contents σ) :=
  match D.nodes node with
  | .base => some s
  | .egress (some e) => do
    let sent ← e.process tag keys (D.shard.getD 0)
    some { s with sent := s.sent ++ sent }
  | .sharder sh => do
    let sent ← sh.process_eviction D.hash_text key_columns tag keys node D.shard.isSome
    some { s with sent := s.sent ++ sent }
  | .internal =>
    let op := D.on_eviction node (s.ops node) src tag keys
    some { s with ops := Function.update s.ops node op }
  | .reader =>
    match s.writers node with
    | none => some s
    | some w => do
      let w ← w.on_eviction keys
      some { s with writers := Function.update s.writers node (some w) }
  | .ingress => some s
  | .dropped => some s
  | .egress none => none
  | .source => none

def process_eviction (node src : Nat) (key_columns : List Nat) (keys : List Row) (tag : Tag)
    (s : Contents σ) : Option (Contents σ) :=
  -- `borrow_mut`
  if D.held = some node then none
  else D.nodeEviction node src key_columns keys tag
    { s with passed := s.passed ++ [(node, tag, keys)] }

/-- The nodes of a path one after another, each with the one before it. -/
def walkFrom (keys : List Row) (tag : Tag) :
    Nat → List ReplayPathSegment → Contents σ → Option (Contents σ)
  | _, [], s => some s
  | src, segment :: path, s => do
    let key ← segment.partial_key
    let s ← D.process_eviction segment.node src key keys tag s
    walkFrom keys tag segment.node path s

def walk_path (path : List ReplayPathSegment) (keys : List Row) (tag : Tag) (s : Contents σ) :
    Option (Contents σ) := do
  let first ← path.head?
  D.walkFrom keys tag first.node path s

/-- The end of a path in the domain; `down` is the eviction from there on. -/
def evictTarget (down : List Nat → Nat → Contents σ → Outcome Unit (Contents σ)) (tag : Tag)
    (path : List ReplayPathSegment) (keys : List Row) (s : Contents σ) :
    Outcome Unit (Contents σ) := do
  let target ← Outcome.ofOption path.getLast?
  -- readers have been evicted from on the way
  if (D.nodes target.node).is_reader then .ok s
  else
    match s.state target.node with
    | none => .ok s
    | some st => do
      let st ← Outcome.ofOption (st.evict_keys tag keys)
      let cols ← Outcome.ofOption target.partial_key
      down cols target.node { s with state := Function.update s.state target.node (some st) }

def visit (down : List Nat → Nat → Contents σ → Outcome Unit (Contents σ))
    (key_columns : List Nat) (keys : List Row) (node : Nat) (s : Contents σ)
    (entry : Tag × ReplayPath) : Outcome Unit (Contents σ) :=
  if entry.2.source = some node then
    match entry.2.trigger with
    | .localKey key =>
      if key ≠ key_columns then .ok s
      else do
        let s ← Outcome.ofOption (D.walk_path entry.2.path keys entry.1 s)
        D.evictTarget down entry.1 entry.2.path keys s
    | .start key =>
      if key ≠ key_columns then .ok s
      else Outcome.ofOption (D.walk_path entry.2.path keys entry.1 s)
    | _ => .panic
  else .ok s

def trigger_downstream_evictions (keys : List Row) :
    Nat → List Nat → Nat → Contents σ → Outcome Unit (Contents σ)
  | 0, _, _, _ => .error ()
  | fuel + 1, key_columns, node, s =>
    D.replay_paths.foldlM
      (D.visit (trigger_downstream_evictions keys fuel) key_columns keys node) s

/-- The end of the path that a `Packet::EvictKeys` is for, if it is in this domain. -/
def evictEnd (fuel : Nat) (tag : Tag) (path : ReplayPath) (keys : List Row) (s : Contents σ) :
    Outcome Unit (Contents σ) :=
  match path.trigger with
  | .none => .ok s
  | .start _ => .ok s
  | _ => do
    let target ← Outcome.ofOption path.path.getLast?
    if (D.nodes target.node).is_reader then .ok s
    else if (D.nodes target.node).is_dropped then .ok s
    else do
      let st ← Outcome.ofOption (s.state target.node)
      match st.by_tag.get? tag with
      | none => .ok s
      | some i => do
        let index ← Outcome.ofOption st.state[i]?
        let st ← Outcome.ofOption (st.evict_keys tag keys)
        D.trigger_downstream_evictions keys fuel index.key target.node
          { s with state := Function.update s.state target.node (some st) }

def handle_evict_keys (fuel : Nat) (dst : Nat) (tag : Tag) (keys : List Row) (s : Contents σ) :
    Outcome Unit (Contents σ) :=
  match D.replay_paths.find? fun e => e.1 == tag with
  | none => .ok s
  | some e =>
    match e.2.path.findIdx? fun segment => segment.node == dst with
    | none => .panic
    | some i => do
      let s ← Outcome.ofOption (D.walk_path (e.2.path.drop i) keys tag s)
      D.evictEnd fuel tag e.2 keys s

/-- The keys to evict: those that the loop of a `Packet::Evict` has evicted
    from an index of a node, or those of a `Packet::EvictKeys`. -/
inductive Request where
  | node (node : Nat) (key_columns : List Nat)
  | packet (dst : Nat) (tag : Tag)

def handle_eviction (fuel : Nat) (keys : List Row) (s : Contents σ) :
    Request → Outcome Unit (Contents σ)
  | .node n key_columns => D.trigger_downstream_evictions keys fuel key_columns n s
  | .packet dst tag => D.handle_evict_keys fuel dst tag keys s

end Domain

end Server

end Noria

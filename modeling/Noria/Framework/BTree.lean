import Noria.Framework.OrderedMap

/-! # B-trees

  The map of the standard library, as it is implemented: nodes of at most 11 entries, and of at
  least 5 below the root. A key is searched in a node from the left, as long as it is greater than
  the entries, and then below the edge where the search stopped. So an entry is found again only
  where the comparison leads the search to it: a comparison that is not an order may lose entries
  when a node is split.

  A node of height 0 is a leaf and has no edges. The height is the fuel of every walk.
-/

/-- The entries of a node, and the edges around them. -/
inductive BTree (κ ν : Type) where
  | node (kvs : List (κ × ν)) (edges : List (BTree κ ν))

namespace BTree

variable {κ ν : Type} (cmp : κ → κ → Ordering)

def CAPACITY : Nat := 11

def MIN_LEN : Nat := 5

/-- The place of a key in a node: that of its entry, or that of the edge to follow. -/
def find_key_index (key : κ) : List (κ × ν) → Nat × Bool
  | [] => (0, false)
  | kv :: kvs =>
    match cmp key kv.1 with
    | .gt => ((find_key_index key kvs).1 + 1, (find_key_index key kvs).2)
    | .eq => (0, true)
    | .lt => (0, false)

def get? : Nat → BTree κ ν → κ → Option ν
  | height, .node kvs edges, key =>
    let (i, found) := find_key_index cmp key kvs
    if found then kvs[i]?.map Prod.snd
    else
      match height with
      | 0 => none
      | height + 1 => edges[i]?.bind fun child => get? height child key

/-! ## Insertion -/

/-- Split a node that has become too large with an entry at `i`. The entry in the middle moves up,
    with the right half. -/
def split (i : Nat) (kvs : List (κ × ν)) (edges : List (BTree κ ν)) :
    BTree κ ν × Option ((κ × ν) × BTree κ ν) :=
  let middle := if i = 5 ∨ 7 ≤ i then 6 else 5
  match kvs[middle]? with
  | some kv =>
    if kvs.length ≤ CAPACITY then (.node kvs edges, none)
    else (.node (kvs.take middle) (edges.take (middle + 1)),
      some (kv, .node (kvs.drop (middle + 1)) (edges.drop (middle + 1))))
  | none => (.node kvs edges, none)

def insertAt : Nat → BTree κ ν → κ → ν → BTree κ ν × Option ((κ × ν) × BTree κ ν)
  | height, .node kvs edges, key, v =>
    let (i, found) := find_key_index cmp key kvs
    if found then (.node (kvs.modify i fun kv => (kv.1, v)) edges, none)
    else
      match height with
      | 0 => split i (kvs.insertIdx i (key, v)) edges
      | height + 1 =>
        match edges[i]? with
        | none => (.node kvs edges, none)
        | some child =>
          match insertAt height child key v with
          | (child, none) => (.node kvs (edges.set i child), none)
          | (child, some (kv, right)) =>
            split i (kvs.insertIdx i kv) ((edges.set i child).insertIdx (i + 1) right)

/-! ## Removal -/

/-- The last entry of the left neighbour moves to the parent, and the parent's to the right. -/
def stealLeft (left right : BTree κ ν) (kv : κ × ν) : (κ × ν) × BTree κ ν × BTree κ ν :=
  match left, right with
  | .node lkvs ledges, .node rkvs redges =>
    (lkvs.getLast?.getD kv, .node lkvs.dropLast ledges.dropLast,
      .node (kv :: rkvs) (ledges.getLast?.toList ++ redges))

/-- The first entry of the right neighbour moves to the parent, and the parent's to the left. -/
def stealRight (left right : BTree κ ν) (kv : κ × ν) : (κ × ν) × BTree κ ν × BTree κ ν :=
  match left, right with
  | .node lkvs ledges, .node rkvs redges =>
    (rkvs.head?.getD kv, .node (lkvs ++ [kv]) (ledges ++ redges.head?.toList),
      .node rkvs.tail redges.tail)

/-- The neighbours at `i` and `i + 1`, one of which is too small: with the entry between them they
    become one node, if they fit into one. -/
def rejoin (kvs : List (κ × ν)) (edges : List (BTree κ ν)) (i : Nat)
    (steal : BTree κ ν → BTree κ ν → κ × ν → (κ × ν) × BTree κ ν × BTree κ ν) : BTree κ ν :=
  match edges[i]?, edges[i + 1]?, kvs[i]? with
  | some (.node lkvs ledges), some (.node rkvs redges), some kv =>
    if lkvs.length + 1 + rkvs.length ≤ CAPACITY then
      .node (kvs.eraseIdx i)
        ((edges.eraseIdx (i + 1)).set i (.node (lkvs ++ kv :: rkvs) (ledges ++ redges)))
    else
      let (kv, left, right) := steal (.node lkvs ledges) (.node rkvs redges) kv
      .node (kvs.set i kv) ((edges.set i left).set (i + 1) right)
  | _, _, _ => .node kvs edges

/-- The child at `i` has lost an entry: if it is too small it takes from its left neighbour, or from
    the right one if it is the first. -/
def fix (kvs : List (κ × ν)) (edges : List (BTree κ ν)) (i : Nat) : BTree κ ν :=
  match edges[i]? with
  | none => .node kvs edges
  | some (.node ckvs _) =>
    if MIN_LEN ≤ ckvs.length then .node kvs edges
    else if 0 < i then rejoin kvs edges (i - 1) stealLeft
    else rejoin kvs edges i stealRight

/-- Take out the last entry below a node. -/
def popLast : Nat → BTree κ ν → Option (κ × ν) × BTree κ ν
  | 0, .node kvs edges => (kvs.getLast?, .node kvs.dropLast edges)
  | height + 1, .node kvs edges =>
    match edges.getLast? with
    | none => (none, .node kvs edges)
    | some child =>
      ((popLast height child).1,
        fix kvs (edges.dropLast ++ [(popLast height child).2]) (edges.length - 1))

def eraseAt : Nat → BTree κ ν → κ → BTree κ ν
  | height, .node kvs edges, key =>
    let (i, found) := find_key_index cmp key kvs
    match height with
    | 0 => .node (if found then kvs.eraseIdx i else kvs) edges
    | height + 1 =>
      match edges[i]? with
      | none => .node kvs edges
      | some child =>
        -- an inner entry is replaced by the one before it
        if found then
          match popLast height child with
          | (some kv, child) => fix (kvs.set i kv) (edges.set i child) i
          | (none, _) => .node kvs edges
        else fix kvs (edges.set i (eraseAt height child key)) i

/-! ## The map -/

def updateAt (f : κ → ν → Option ν) : Nat → BTree κ ν → Option (BTree κ ν)
  | height, .node kvs edges => do
    let kvs ← kvs.mapM fun kv => (f kv.1 kv.2).map fun v => (kv.1, v)
    match height with
    | 0 => some (.node kvs edges)
    | height + 1 => do
      let edges ← edges.mapM (updateAt f height)
      some (.node kvs edges)

structure Root (κ ν : Type) where
  height : Nat
  root : BTree κ ν

/-- `BTreeMap`. -/
def map (cmp : κ → κ → Ordering) : OrderedMap κ ν where
  Map := Root κ ν
  empty := ⟨0, .node [] []⟩
  isEmpty m :=
    match m.root with
    | .node kvs _ => kvs.isEmpty
  get? m := get? cmp m.height m.root
  insert m key v :=
    match insertAt cmp m.height m.root key v with
    | (root, none) => ⟨m.height, root⟩
    | (left, some (kv, right)) => ⟨m.height + 1, .node [kv] [left, right]⟩
  erase m key :=
    match m.height, eraseAt cmp m.height m.root key with
    | height + 1, .node [] [root] => ⟨height, root⟩
    | height, root => ⟨height, root⟩
  updateAll m f := (updateAt f m.height m.root).map fun root => ⟨m.height, root⟩
  isEmpty_empty := rfl

end BTree

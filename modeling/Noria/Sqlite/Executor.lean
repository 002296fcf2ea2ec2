import Noria.Sqlite.Ops

/-! # The local executor

  The graph of operators and the propagation of records through it (`dataflow/executor.rs`). A node
  is named by its index in the node array. Functions that index nodes return `Option`; `none` is the
  panic.

  `propagate` recurses through the children of a node. Its fuel is the number of nodes: an edge
  always leads to a node that was added later, so no path is longer.
-/

namespace Noria.Sqlite

open Option

variable {i src : Nat} {records : Records}

structure Node where
  operator : Option OperatorType
  parents : List Nat
  children : List Nat
  state : Option MemoryState
  name : String
  columns : List String

structure ViewHandle where
  node : Nat
  key_columns : List Nat
  deriving DecidableEq, Repr

structure LocalExecutor where
  nodes : List Node
  base_tables : AssocMap String Nat

namespace LocalExecutor

def new : LocalExecutor := ⟨[], ∅⟩

def add_base_table (ex : LocalExecutor) (name : String) (columns : List String) :
    Nat × LocalExecutor :=
  let idx := ex.nodes.length
  (idx,
    { nodes := ex.nodes ++ [⟨none, [], [], none, name, columns⟩]
      base_tables := ex.base_tables.insert name idx })

def get_base_table (ex : LocalExecutor) (name : String) : Option Nat :=
  ex.base_tables.get? name

def get_or_add_base_table (ex : LocalExecutor) (name : String) (columns : List String) :
    Nat × LocalExecutor :=
  match ex.base_tables.get? name with
  | some idx => (idx, ex)
  | none => ex.add_base_table name columns

/-- Register `idx` as a child of a node. -/
def pushChild (idx : Nat) (node : Node) : Node :=
  { node with children := node.children ++ [idx] }

/-- The loop that registers a node as a child of its parents, once per mention. -/
def registerChild (idx : Nat) (parents : List Nat) (nodes : List Node) : List Node :=
  parents.foldl (fun nodes parent => nodes.modify parent (pushChild idx)) nodes

/-- Add an operator node. A parent that does not exist is the panic of `self.nodes[parent]`. -/
def add_operator (ex : LocalExecutor) (name : String) (operator : OperatorType)
    (parents : List Nat) (columns : List String) : Option (Nat × LocalExecutor) :=
  let idx := ex.nodes.length
  if parents.all (· < idx) then
    some (idx,
      ⟨registerChild idx parents ex.nodes ++ [⟨some operator, parents, [], none, name, columns⟩],
        ex.base_tables⟩)
  else none

def materialize (ex : LocalExecutor) (node : Nat) (key_columns : List Nat) :
    Option (ViewHandle × LocalExecutor) :=
  if node < ex.nodes.length then
    some (⟨node, key_columns⟩,
      { ex with
        nodes := ex.nodes.modify node fun n => { n with state := some (.new key_columns) } })
  else none

/-- Look up rows from a materialized view: the outer `Option` is the panic
    on a node that does not exist, the inner one the source's result. -/
def lookup (ex : LocalExecutor) (view : ViewHandle) (key : List DataType) :
    Option (Option (List Row)) := do
  let node ← ex.nodes[view.node]?
  match node.state with
  | some state =>
    match state.lookup key with
    | .some rows => some (some rows)
    | .empty => some (some [])
    | .missing => some none
  | none => some none

def setState (ex : LocalExecutor) (node : Nat) (state : MemoryState) : LocalExecutor :=
  { ex with nodes := ex.nodes.modify node fun n => { n with state := some state } }

def setOperator (ex : LocalExecutor) (node : Nat) (op : OperatorType) : LocalExecutor :=
  { ex with nodes := ex.nodes.modify node fun n => { n with operator := some op } }

def updateState (ex : LocalExecutor) (node : Nat) (records : Records) :
    Option LocalExecutor := do
  let n ← ex.nodes[node]?
  match n.state with
  | some state => do
    let state' ← state.process_records records
    some (ex.setState node state')
  | none => some ex

def inject_into_view (ex : LocalExecutor) (view : ViewHandle) (records : Records) :
    Option LocalExecutor :=
  ex.updateState view.node records

/-- The state passed to a child's operator: the other parent's for a join,
    the child's own otherwise. -/
def state_for_op (ex : LocalExecutor) (child : Node) (parent_idx : Nat) :
    Option (Option StateSnapshot) :=
  if child.parents.length > 1 then do
    -- `1 - parent_idx` on a `usize`
    let other ← if parent_idx ≤ 1 then child.parents[1 - parent_idx]? else none
    let node ← ex.nodes[other]?
    some (node.state.map MemoryState.snapshot)
  else
    some (child.state.map MemoryState.snapshot)

/-- Run the operator of a child on the records its parent `src` sends. -/
def processChild (ex : LocalExecutor) (src child : Nat) (records : Records) :
    Option (LocalExecutor × Records) := do
  let node ← ex.nodes[child]?
  let parent_idx := (node.parents.findIdx? (· == src)).getD 0
  let state ← ex.state_for_op node parent_idx
  match node.operator with
  | some op => do
    let (op', output) ← op.process parent_idx records state
    some (ex.setOperator child op', output.results)
  | none => some (ex, records)

def propagate : Nat → LocalExecutor → Nat → Records → Option LocalExecutor
  | 0, _, _, _ => none
  | fuel + 1, ex, src, records =>
    if records.isEmpty then some ex
    else do
      let node ← ex.nodes[src]?
      let ex ← ex.updateState src records
      node.children.foldlM
        (fun ex child => do
          let (ex, results) ← ex.processChild src child records
          propagate fuel ex child results)
        ex

/-- Apply a write to a base table and propagate through the graph. -/
def apply_write (ex : LocalExecutor) (table : String) (records : Records) :
    Option LocalExecutor :=
  match ex.base_tables.get? table with
  | some base_node => ex.propagate ex.nodes.length base_node records
  | none => some ex

def apply_writes (ex : LocalExecutor) (writes : List (String × Records)) :
    Option LocalExecutor :=
  writes.foldlM (fun ex w => ex.apply_write w.1 w.2) ex

/-! ## Reading the graph -/

/-- The parents of a node; none for an index without a node. -/
def parents (ex : LocalExecutor) (i : Nat) : List Nat :=
  (ex.nodes[i]?.map Node.parents).getD []

/-- The children of a node; none for an index without a node. -/
def children (ex : LocalExecutor) (i : Nat) : List Nat :=
  (ex.nodes[i]?.map Node.children).getD []

/-- The graph is acyclic by construction, and `children` lists the edges that `parents` lists. -/
structure WellFormed (ex : LocalExecutor) : Prop where
  ascending : ∀ c, ∀ p ∈ ex.parents c, p < c
  edges : ∀ p c, (ex.children p).count c = (ex.parents c).count p

/-! ## What propagation leaves alone -/

theorem nodes_setState (ex : LocalExecutor) (i j : Nat) (st : MemoryState) :
    (ex.setState i st).nodes[j]?
      = if i = j then ex.nodes[j]?.map fun n => { n with state := some st } else ex.nodes[j]? := by
  show (ex.nodes.modify i _)[j]? = _
  rw [List.getElem?_modify]
  split <;> simp

theorem nodes_setOperator (ex : LocalExecutor) (i j : Nat) (op : OperatorType) :
    (ex.setOperator i op).nodes[j]?
      = if i = j then ex.nodes[j]?.map fun n => { n with operator := some op }
        else ex.nodes[j]? := by
  show (ex.nodes.modify i _)[j]? = _
  rw [List.getElem?_modify]
  split <;> simp

end LocalExecutor

/-- An operator without the counters it has accumulated. -/
def OperatorType.shape : OperatorType → OperatorType
  | .aggregate op => .aggregate { op with internal_state := ∅, calls := 0 }
  | op => op

/-- A node without the rows it has accumulated. -/
def Node.shape (n : Node) : Node :=
  { n with
    operator := n.operator.map OperatorType.shape
    state := n.state.map fun st => .new st.key_columns }

theorem OperatorType.process_shape {op op' : OperatorType} {parent : Nat}
    {state : Option StateSnapshot} {result : ProcessingResult}
    (h : op.process parent records state = some (op', result)) : op'.shape = op.shape := by
  cases op with
  | aggregate op =>
    simp only [process, map_eq_some_iff, Prod.mk.injEq] at h
    obtain ⟨⟨op₁, r⟩, hp, rfl, -⟩ := h
    simp only [AggregateOp.process, bind_eq_bind, bind_eq_some_iff] at hp
    obtain ⟨gc, -, hp⟩ := hp
    cases hp
    rfl
  | filter op =>
    simp only [process, map_eq_some_iff, Prod.mk.injEq] at h
    obtain ⟨-, -, rfl, -⟩ := h
    rfl
  | project op =>
    simp only [process, map_eq_some_iff, Prod.mk.injEq] at h
    obtain ⟨-, -, rfl, -⟩ := h
    rfl
  | join op =>
    simp only [process, map_eq_some_iff, Prod.mk.injEq] at h
    obtain ⟨-, -, rfl, -⟩ := h
    rfl
  | identity op =>
    obtain ⟨-, -, rfl, -⟩ := h
    rfl

namespace LocalExecutor

/-- Two executors with the same graph; rows and counters may differ. -/
structure SameShape (ex ex' : LocalExecutor) : Prop where
  tables : ex'.base_tables = ex.base_tables
  nodes : ∀ i : Nat, ex'.nodes[i]?.map Node.shape = ex.nodes[i]?.map Node.shape

namespace SameShape

variable {ex ex' ex'' : LocalExecutor}

theorem refl (ex : LocalExecutor) : SameShape ex ex := ⟨rfl, fun _ => rfl⟩

section

variable (h : SameShape ex ex')
include h

theorem trans (h' : SameShape ex' ex'') : SameShape ex ex'' :=
  ⟨h'.tables.trans h.tables, fun i => (h'.nodes i).trans (h.nodes i)⟩

theorem symm : SameShape ex' ex := ⟨h.tables.symm, fun i => (h.nodes i).symm⟩

theorem node {n : Node} (hn : ex.nodes[i]? = some n) :
    ∃ n', ex'.nodes[i]? = some n' ∧ n'.shape = n.shape := by
  have := h.nodes i
  rw [hn, map_some, map_eq_some_iff] at this
  exact this

theorem parents_eq (i : Nat) : ex'.parents i = ex.parents i := by
  have : (ex'.nodes[i]?.map Node.shape).map Node.parents
      = (ex.nodes[i]?.map Node.shape).map Node.parents := by rw [h.nodes i]
  rw [map_map, map_map] at this
  exact congrArg (·.getD []) this

theorem children_eq (i : Nat) : ex'.children i = ex.children i := by
  have : (ex'.nodes[i]?.map Node.shape).map Node.children
      = (ex.nodes[i]?.map Node.shape).map Node.children := by rw [h.nodes i]
  rw [map_map, map_map] at this
  exact congrArg (·.getD []) this

theorem length_eq : ex'.nodes.length = ex.nodes.length := by
  have hle : ∀ {a b : LocalExecutor}, SameShape a b → a.nodes.length ≤ b.nodes.length := by
    intro a b hab
    by_contra hlt
    have hb : b.nodes[b.nodes.length]? = none := List.getElem?_eq_none (Nat.le_refl _)
    have ha := List.getElem?_eq_getElem (Nat.lt_of_not_le hlt)
    obtain ⟨n', hn', -⟩ := hab.node ha
    rw [hb] at hn'
    cases hn'
  exact Nat.le_antisymm (hle h.symm) (hle h)

theorem wellFormed (hw : ex.WellFormed) : ex'.WellFormed where
  ascending := by
    intro c p hp
    rw [h.parents_eq] at hp
    exact hw.ascending c p hp
  edges := by
    intro p c
    rw [h.parents_eq, h.children_eq]
    exact hw.edges p c

end

end SameShape

/-- `i` is reached from `src` along child edges. -/
abbrev Reaches (ex : LocalExecutor) (src i : Nat) : Prop :=
  Relation.ReflTransGen (fun a b => b ∈ ex.children a) src i

theorem SameShape.reaches {ex ex' : LocalExecutor} (h : SameShape ex ex') (a b : Nat) :
    ex'.Reaches a b ↔ ex.Reaches a b := by
  have : (fun a b => b ∈ ex'.children a) = fun a b => b ∈ ex.children a := by
    funext a b
    rw [h.children_eq]
  unfold Reaches
  rw [this]

theorem key_columns_process_records {st st' : MemoryState}
    (h : st.process_records records = some st') : st'.key_columns = st.key_columns := by
  induction records generalizing st with
  | nil =>
    cases h
    rfl
  | cons r rs ih =>
    simp only [MemoryState.process_records, List.foldlM_cons, bind_eq_bind,
      bind_eq_some_iff] at h
    obtain ⟨st₁, h₁, h₂⟩ := h
    rw [ih h₂, MemoryState.key_columns_process_record h₁]

theorem updateState_frame {ex ex' : LocalExecutor} (h : ex.updateState i records = some ex') :
    SameShape ex ex' ∧ ∀ j, j ≠ i → ex'.nodes[j]? = ex.nodes[j]? := by
  simp only [updateState, bind_eq_bind, bind_eq_some_iff] at h
  obtain ⟨n, hn, h⟩ := h
  split at h
  · rename_i st hst
    simp only [bind_eq_some_iff, Option.some.injEq] at h
    obtain ⟨st', hst', rfl⟩ := h
    refine ⟨⟨rfl, fun j => ?_⟩, fun j hj => ?_⟩
    · rw [nodes_setState]
      split
      · rename_i hij
        subst hij
        rw [hn]
        simp only [map_some, Node.shape, hst, key_columns_process_records hst']
      · rfl
    · rw [nodes_setState, if_neg (Ne.symm hj)]
  · cases h
    exact ⟨.refl ex, fun _ _ => rfl⟩

theorem processChild_frame {ex ex' : LocalExecutor} {c : Nat} {results : Records}
    (h : ex.processChild src c records = some (ex', results)) :
    SameShape ex ex' ∧ ∀ j, j ≠ c → ex'.nodes[j]? = ex.nodes[j]? := by
  simp only [processChild, bind_eq_bind, bind_eq_some_iff] at h
  obtain ⟨n, hn, state, -, h⟩ := h
  split at h
  · rename_i op hop
    simp only [bind_eq_some_iff, Option.some.injEq, Prod.mk.injEq] at h
    obtain ⟨⟨op', out⟩, hproc, rfl, rfl⟩ := h
    refine ⟨⟨rfl, fun j => ?_⟩, fun j hj => ?_⟩
    · rw [nodes_setOperator]
      split
      · rename_i hij
        subst hij
        rw [hn]
        simp only [map_some, Node.shape, hop, OperatorType.process_shape hproc]
      · rfl
    · rw [nodes_setOperator, if_neg (Ne.symm hj)]
  · cases h
    exact ⟨.refl ex, fun _ _ => rfl⟩

theorem propagate_frame {fuel : Nat} {ex ex' : LocalExecutor}
    (h : ex.propagate fuel src records = some ex') :
    SameShape ex ex' ∧ ∀ j, ¬ex.Reaches src j → ex'.nodes[j]? = ex.nodes[j]? := by
  induction fuel generalizing ex ex' src records with
  | zero => cases h
  | succ fuel ih =>
    simp only [propagate] at h
    split at h
    · cases h
      exact ⟨.refl ex, fun _ _ => rfl⟩
    · simp only [bind_eq_bind, bind_eq_some_iff] at h
      obtain ⟨n, hn, ex₁, h₁, h⟩ := h
      obtain ⟨hs₁, hf₁⟩ := updateState_frame h₁
      refine foldlM_option_keeps (P := fun e => SameShape ex e ∧
        ∀ j, ¬ex.Reaches src j → e.nodes[j]? = ex.nodes[j]?) ?_ ⟨hs₁, fun j hj => ?_⟩ h
      · rintro e c e' hc ⟨hse, hfe⟩ hstep
        simp only [bind_eq_some_iff] at hstep
        obtain ⟨⟨e₁, results⟩, hpc, hprop⟩ := hstep
        obtain ⟨hs₂, hf₂⟩ := processChild_frame hpc
        obtain ⟨hs₃, hf₃⟩ := ih hprop
        have hchild : c ∈ ex.children src := by
          rw [children, hn]
          exact hc
        refine ⟨hse.trans (hs₂.trans hs₃), fun j hj => ?_⟩
        have hjc : j ≠ c := by
          rintro rfl
          exact hj (.single hchild)
        have hbelow : ¬e₁.Reaches c j := by
          rw [(hse.trans hs₂).reaches]
          exact fun hr => hj (.head hchild hr)
        rw [hf₃ j hbelow, hf₂ j hjc, hfe j hj]
      · refine hf₁ j ?_
        rintro rfl
        exact hj .refl

theorem apply_write_sameShape {ex ex' : LocalExecutor} {table : String}
    (h : ex.apply_write table records = some ex') : SameShape ex ex' := by
  unfold apply_write at h
  split at h
  · exact (propagate_frame h).1
  · cases h
    exact .refl ex

theorem apply_writes_sameShape {ex ex' : LocalExecutor} {ws : List (String × Records)}
    (h : ex.apply_writes ws = some ex') : SameShape ex ex' :=
  foldlM_option_keeps (P := SameShape ex)
    (fun _ _ _ _ hs hw => hs.trans (apply_write_sameShape hw)) (.refl ex) h

end LocalExecutor

end Noria.Sqlite

import Noria.Sqlite.Executor

/-! # Building the graph

  What `add_base_table`, `add_operator` and `materialize` do to the parts of a node that building
  deals with separately, its core, its children and its state; and that every graph built with them
  is well formed.
-/

namespace Noria.Sqlite

open List

/-- The part of a node that is fixed when the node is added. -/
structure NodeCore where
  operator : Option OperatorType
  parents : List Nat
  name : String
  columns : List String

def Node.core (n : Node) : NodeCore := ⟨n.operator, n.parents, n.name, n.columns⟩

namespace LocalExecutor

def core (ex : LocalExecutor) (i : Nat) : Option NodeCore := ex.nodes[i]?.map Node.core

def stateOf (ex : LocalExecutor) (i : Nat) : Option MemoryState := ex.nodes[i]?.bind Node.state

variable {name : String} {op : OperatorType} {columns : List String} {idx node i : Nat}
  {keys : List Nat} {view : ViewHandle} {ex ex' : LocalExecutor} {p c : Nat} {parents : List Nat}
  {k : NodeCore}

/-! ## The parts of a node -/

/-- A node is its core, its children and its state. -/
theorem core_eq_some (h : ex.core i = some k) :
    ex.nodes[i]? =
      some ⟨k.operator, k.parents, ex.children i, ex.stateOf i, k.name, k.columns⟩ := by
  obtain ⟨nd, hn, rfl⟩ := Option.map_eq_some_iff.mp h
  rw [children, stateOf, hn]
  rfl

theorem core_of_node {nd : Node} (h : ex.nodes[i]? = some nd) : ex.core i = some nd.core := by
  rw [core, h]
  rfl

theorem core_lt (h : ex.core i = some k) : i < ex.nodes.length :=
  (List.getElem?_eq_some_iff.mp (core_eq_some h)).1

theorem core_isSome (h : i < ex.nodes.length) : ∃ k, ex.core i = some k :=
  ⟨_, core_of_node (getElem?_eq_getElem h)⟩

theorem stateOf_none (h : ex.nodes.length ≤ i) : ex.stateOf i = none := by
  rw [stateOf, getElem?_eq_none h]
  rfl

theorem parents_eq (ex : LocalExecutor) (i : Nat) :
    ex.parents i = ((ex.core i).map NodeCore.parents).getD [] := by
  rw [parents, core, Option.map_map]
  rfl

theorem parents_of_core (h : ex.core i = some k) : ex.parents i = k.parents := by
  rw [parents, core_eq_some h]
  rfl

/-! ## The nodes after each call -/

theorem nodes_add_base_table (ex : LocalExecutor) (name : String) (columns : List String)
    (i : Nat) :
    (ex.add_base_table name columns).2.nodes[i]?
      = if i = ex.nodes.length then some ⟨none, [], [], none, name, columns⟩ else ex.nodes[i]? := by
  show (ex.nodes ++ [_])[i]? = _
  by_cases h : i = ex.nodes.length
  · subst h
    simp
  · rw [if_neg h]
    by_cases hlt : i < ex.nodes.length
    · rw [getElem?_append_left hlt]
    · rw [getElem?_eq_none (by simp; omega), getElem?_eq_none (by omega)]

/-- A node that has become a child's parent `k` times. -/
def withChildren (idx : Nat) (k : Nat) (node : Node) : Node :=
  { node with children := node.children ++ List.replicate k idx }

theorem getElem?_registerChild (idx : Nat) (parents : List Nat)
    (nodes : List Node) (i : Nat) :
    (registerChild idx parents nodes)[i]? = nodes[i]?.map (withChildren idx (parents.count i)) := by
  induction parents generalizing nodes with
  | nil =>
    have : withChildren idx 0 = id := by
      funext n
      simp [withChildren]
    simp [registerChild, this]
  | cons p ps ih =>
    rw [registerChild, foldl_cons, ← registerChild, ih, getElem?_modify, count_cons]
    cases hn : nodes[i]? with
    | none => rfl
    | some n =>
      by_cases hp : p = i
      · simp [hp, withChildren, pushChild, replicate_succ]
      · simp [hp, withChildren]

theorem length_registerChild (idx : Nat) (parents : List Nat) (nodes : List Node) :
    (registerChild idx parents nodes).length = nodes.length := by
  induction parents generalizing nodes with
  | nil => rfl
  | cons p ps ih => rw [registerChild, foldl_cons, ← registerChild, ih, length_modify]

theorem add_operator_eq (ex : LocalExecutor) (name : String) (op : OperatorType)
    (columns : List String) (hp : ∀ p ∈ parents, p < ex.nodes.length) :
    ∃ ex', ex.add_operator name op parents columns = some (ex.nodes.length, ex') ∧
      ex'.base_tables = ex.base_tables ∧ ex'.nodes.length = ex.nodes.length + 1 ∧
      ∀ i : Nat, ex'.nodes[i]?
        = if i = ex.nodes.length then some ⟨some op, parents, [], none, name, columns⟩
          else ex.nodes[i]?.map (withChildren ex.nodes.length (parents.count i)) := by
  have hall : parents.all (· < ex.nodes.length) = true := by
    rw [all_eq_true]
    exact fun p hm => decide_eq_true (hp p hm)
  refine ⟨⟨registerChild ex.nodes.length parents ex.nodes
    ++ [⟨some op, parents, [], none, name, columns⟩], ex.base_tables⟩, ?_, rfl, ?_, fun i => ?_⟩
  · simp only [add_operator, hall, if_true]
  · rw [length_append, length_registerChild]
    rfl
  · by_cases h : i = ex.nodes.length
    · rw [if_pos h, getElem?_append_right (by rw [length_registerChild]; omega),
        length_registerChild, h, Nat.sub_self]
      rfl
    · rw [if_neg h]
      by_cases hlt : i < ex.nodes.length
      · rw [getElem?_append_left (by rw [length_registerChild]; exact hlt),
          getElem?_registerChild]
      · rw [getElem?_eq_none (by simp [length_registerChild]; omega),
          getElem?_eq_none (by omega)]
        rfl

theorem add_operator_parents
    (h : ex.add_operator name op parents columns = some (idx, ex')) :
    ∀ p ∈ parents, p < ex.nodes.length := by
  simp only [add_operator] at h
  split at h
  · rename_i hall
    intro p hp
    exact of_decide_eq_true (all_eq_true.mp hall p hp)
  · cases h

theorem nodes_materialize (h : ex.materialize node keys = some (view, ex')) :
    node < ex.nodes.length ∧ view = ⟨node, keys⟩ ∧ ex'.base_tables = ex.base_tables ∧
      ∀ i : Nat, ex'.nodes[i]?
        = if node = i then ex.nodes[i]?.map fun n => { n with state := some (.new keys) }
          else ex.nodes[i]? := by
  unfold materialize at h
  split at h
  · rename_i hlt
    cases h
    refine ⟨hlt, rfl, rfl, fun i => ?_⟩
    rw [getElem?_modify]
    split <;> simp
  · cases h

theorem parents_of_length_le (h : ex.nodes.length ≤ i) :
    ex.parents i = [] := by
  rw [parents, getElem?_eq_none h]
  rfl

theorem children_of_length_le (h : ex.nodes.length ≤ i) :
    ex.children i = [] := by
  rw [children, getElem?_eq_none h]
  rfl

/-- A new base table has no edges and no state. -/
theorem add_base_table_parts (ex : LocalExecutor) (name : String) (columns : List String) :
    (ex.add_base_table name columns).2.nodes.length = ex.nodes.length + 1 ∧
    (∀ t, (ex.add_base_table name columns).2.base_tables.get? t
      = if name = t then some ex.nodes.length else ex.base_tables.get? t) ∧
    (∀ i, (ex.add_base_table name columns).2.core i
      = if i = ex.nodes.length then some ⟨none, [], name, columns⟩ else ex.core i) ∧
    (∀ i, (ex.add_base_table name columns).2.children i = ex.children i) ∧
    ∀ i, (ex.add_base_table name columns).2.stateOf i = ex.stateOf i := by
  have hnodes := ex.nodes_add_base_table name columns
  refine ⟨?_, fun t => ?_, fun i => ?_, fun i => ?_, fun i => ?_⟩
  · show (ex.nodes ++ [_]).length = _
    rw [length_append]
    rfl
  · show (ex.base_tables.insert name ex.nodes.length).get? t = _
    rw [AssocMap.get?_insert]
    simp
  · rw [core, hnodes]
    split <;> rfl
  · rw [children, hnodes]
    split
    · rename_i h
      rw [children_of_length_le (Nat.le_of_eq h.symm)]
      rfl
    · rfl
  · rw [stateOf, hnodes]
    split
    · rename_i h
      rw [stateOf_none (Nat.le_of_eq h.symm)]
      rfl
    · rfl

theorem get_or_add_base_table_parts (h : ex.get_or_add_base_table name columns = (idx, ex')) :
    (ex.base_tables.get? name = some idx ∧ ex' = ex) ∨
    (ex.base_tables.get? name = none ∧ idx = ex.nodes.length ∧
      ex' = (ex.add_base_table name columns).2) := by
  unfold get_or_add_base_table at h
  split at h
  · rename_i i hi
    cases h
    exact .inl ⟨hi, rfl⟩
  · rename_i hnone
    exact .inr ⟨hnone, (congrArg Prod.fst h).symm, (congrArg Prod.snd h).symm⟩

/-- A new operator becomes a child of its parents, once for each time it names one. -/
theorem add_operator_parts (h : ex.add_operator name op parents columns = some (idx, ex')) :
    idx = ex.nodes.length ∧ ex'.nodes.length = ex.nodes.length + 1 ∧
      (∀ p ∈ parents, p < ex.nodes.length) ∧ ex'.base_tables = ex.base_tables ∧
      (∀ i, ex'.core i = if i = idx then some ⟨some op, parents, name, columns⟩ else ex.core i) ∧
      (∀ i, ex'.children i = ex.children i ++ List.replicate (parents.count i) idx) ∧
      ∀ i, ex'.stateOf i = ex.stateOf i := by
  have hp := add_operator_parents h
  obtain ⟨ex₁, h₁, htab, hlen, hnodes⟩ := add_operator_eq ex name op columns hp
  rw [h₁] at h
  cases h
  refine ⟨rfl, hlen, hp, htab, fun i => ?_, fun i => ?_, fun i => ?_⟩
  · rw [core, hnodes]
    split
    · rfl
    · rw [Option.map_map]
      rfl
  · rw [children, children, hnodes]
    split
    · -- the new node is not its own parent
      rename_i hi
      have hcount : parents.count i = 0 := by
        rw [count_eq_zero]
        intro hm
        have := hp i hm
        omega
      rw [hcount, getElem?_eq_none (Nat.le_of_eq hi.symm)]
      rfl
    · cases hn : ex.nodes[i]? with
      | some nd => rfl
      | none =>
        have hcount : parents.count i = 0 := by
          rw [count_eq_zero]
          intro hm
          rw [getElem?_eq_getElem (hp i hm)] at hn
          cases hn
        rw [hcount]
        rfl
  · rw [stateOf, stateOf, hnodes]
    split
    · rename_i hi
      rw [getElem?_eq_none (Nat.le_of_eq hi.symm)]
      rfl
    · cases ex.nodes[i]? <;> rfl

/-- Materializing a node starts its state afresh, also where it had one. -/
theorem materialize_parts (h : ex.materialize node keys = some (view, ex')) :
    node < ex.nodes.length ∧ view = ⟨node, keys⟩ ∧ ex'.nodes.length = ex.nodes.length ∧
      ex'.base_tables = ex.base_tables ∧ (∀ i, ex'.core i = ex.core i) ∧
      (∀ i, ex'.children i = ex.children i) ∧
      ∀ i, ex'.stateOf i = if node = i then some (.new keys) else ex.stateOf i := by
  obtain ⟨hlt, hview, htab, hnodes⟩ := nodes_materialize h
  refine ⟨hlt, hview, ?_, htab, fun i => ?_, fun i => ?_, fun i => ?_⟩
  · unfold materialize at h
    rw [if_pos hlt] at h
    cases h
    exact length_modify ..
  · rw [core, core, hnodes]
    split
    · rw [Option.map_map]
      rfl
    · rfl
  · rw [children, children, hnodes]
    split
    · rw [Option.map_map]
      rfl
    · rfl
  · rw [stateOf, stateOf, hnodes]
    split
    · rename_i hi
      subst hi
      rw [getElem?_eq_getElem hlt]
      rfl
    · rfl

/-! ## Well-formedness -/

theorem lt_length_of_parent (h : p ∈ ex.parents c) : c < ex.nodes.length := by
  by_contra hge
  rw [parents_of_length_le (Nat.le_of_not_lt hge)] at h
  cases h

namespace WellFormed

theorem new : LocalExecutor.new.WellFormed := by
  constructor
  · intro c p hp
    cases hp
  · intro p c
    rfl

section

variable (hw : ex.WellFormed)
include hw

theorem mem_children : c ∈ ex.children p ↔ p ∈ ex.parents c := by
  rw [← count_pos_iff, ← count_pos_iff, hw.edges]

theorem child_gt (h : c ∈ ex.children p) : p < c :=
  hw.ascending c p (hw.mem_children.mp h)

theorem child_lt_length (h : c ∈ ex.children p) :
    c < ex.nodes.length := lt_length_of_parent (hw.mem_children.mp h)

/-- The nodes are in topological order. -/
theorem le_of_reaches {a b : Nat} (h : ex.Reaches a b) : a ≤ b := by
  induction h with
  | refl => exact Nat.le_refl _
  | tail _ hbc ih => exact Nat.le_trans ih (Nat.le_of_lt (hw.child_gt hbc))

/-- Well-formedness is about the edges only. -/
theorem of_edges (hpar : ∀ i, ex'.parents i = ex.parents i)
    (hchi : ∀ i, ex'.children i = ex.children i) : ex'.WellFormed where
  ascending c p hp := hw.ascending c p (hpar c ▸ hp)
  edges p c := by rw [hpar, hchi, hw.edges]

theorem add_base_table (name : String) (columns : List String) :
    (ex.add_base_table name columns).2.WellFormed := by
  obtain ⟨-, -, hcore, hchi, -⟩ := ex.add_base_table_parts name columns
  refine hw.of_edges (fun i => ?_) hchi
  rw [parents_eq, hcore]
  split
  · rename_i h
    rw [parents_of_length_le (Nat.le_of_eq h.symm)]
    rfl
  · exact (parents_eq ex i).symm

theorem add_operator
    (h : ex.add_operator name op parents columns = some (idx, ex')) : ex'.WellFormed := by
  obtain ⟨rfl, -, hlt, -, hcore, hchi, -⟩ := add_operator_parts h
  have hpar : ∀ i, ex'.parents i = if i = ex.nodes.length then parents else ex.parents i := by
    intro i
    rw [parents_eq, hcore]
    split
    · rfl
    · exact (parents_eq ex i).symm
  constructor
  · -- the parents of the new node were there before it
    intro c p hp
    rw [hpar] at hp
    split at hp
    · rename_i hc
      rw [hc]
      exact hlt p hp
    · exact hw.ascending c p hp
  · intro p c
    rw [hpar, hchi, count_append, count_replicate, hw.edges]
    -- the new edges are those of the new node, counted on both sides
    by_cases hc : c = ex.nodes.length
    · rw [hc, parents_of_length_le (Nat.le_refl _)]
      simp
    · simp [hc, Ne.symm hc]

theorem materialize (h : ex.materialize node keys = some (view, ex')) : ex'.WellFormed := by
  obtain ⟨-, -, -, -, hcore, hchi, -⟩ := materialize_parts h
  exact hw.of_edges (fun i => by rw [parents_eq, parents_eq, hcore]) hchi

end

end WellFormed

end LocalExecutor

end Noria.Sqlite

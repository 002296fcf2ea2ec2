import Noria.Sqlite.FromClause
import Noria.Sqlite.Typed

/-! # Building keeps executors sound

  A sound executor is typed, and its table names lead to base nodes with
  the columns of their schema. `add_base_table`, `add_operator` and
  `materialize` keep the typing, node by node, and writes keep all of it.
-/

namespace Noria.Sqlite

open Option

namespace LocalExecutor

variable {i : Nat} {k : NodeCore}

/-! ## Typing, by the parts of a node -/

section Parts

variable {ex ex' : LocalExecutor}

theorem width_of_core (h : ex.core i = some k) :
    ex.width i = k.columns.length := width_of_node (core_eq_some h)

theorem width_congr (h : ex'.core i = ex.core i) : ex'.width i = ex.width i := by
  cases hk : ex.core i with
  | some k => rw [width_of_core hk, width_of_core (h.trans hk)]
  | none =>
    have hnone : ∀ {e : LocalExecutor}, e.core i = none → e.width i = 0 := by
      intro e he
      have he' : e.nodes[i]? = none := map_eq_none_iff.mp he
      rw [width, he']
      rfl
    rw [hnone hk, hnone (h.trans hk)]

/-- The typing of one node: its operator, the keys of its state, and the
    states of a join's inputs. -/
structure TypedNode (ex : LocalExecutor) (k : NodeCore) (state : Option MemoryState) : Prop where
  operator : (k.operator = none ∧ k.parents = []) ∨
    ∃ op, k.operator = some op ∧ op.Typed (k.parents.map ex.width) k.columns.length
  keys : ∀ st, state = some st → ∀ c ∈ st.key_columns, c < k.columns.length
  joined : ∀ op, k.operator = some (.join op) → ∀ p ∈ k.parents, (ex.stateOf p).isSome

theorem shaped_iff : ex.Shaped ↔ ex.WellFormed ∧
    (∀ i k, ex.core i = some k → ex.TypedNode k (ex.stateOf i)) ∧
    ∀ t b, ex.base_tables.get? t = some b → b < ex.nodes.length := by
  constructor
  · intro h
    refine ⟨h.wf, fun i k hk => ?_, h.tables⟩
    have hn := core_eq_some hk
    exact ⟨h.node hn, fun st hst => h.keys hn hst, fun op hop => h.joined hn hop⟩
  · rintro ⟨hwf, hnodes, htab⟩
    have hstate : ∀ {i : Nat} {nd : Node}, ex.nodes[i]? = some nd → ex.stateOf i = nd.state := by
      intro i nd hn
      rw [stateOf, hn]
      rfl
    exact ⟨hwf, fun hn => (hnodes _ _ (core_of_node hn)).operator,
      fun hn hst => (hnodes _ _ (core_of_node hn)).keys _ ((hstate hn).trans hst),
      fun hn hop => (hnodes _ _ (core_of_node hn)).joined _ hop, htab⟩

theorem Shaped.typedNode (h : ex.Shaped) (hk : ex.core i = some k) :
    ex.TypedNode k (ex.stateOf i) := (shaped_iff.mp h).2.1 i k hk

theorem TypedNode.congr {state : Option MemoryState} (h : ex.TypedNode k state)
    (hwidth : ∀ p ∈ k.parents, ex'.width p = ex.width p)
    (hstate : ∀ p ∈ k.parents, (ex.stateOf p).isSome → (ex'.stateOf p).isSome) :
    ex'.TypedNode k state where
  operator := by
    rw [List.map_congr_left hwidth]
    exact h.operator
  keys := h.keys
  joined op hop p hp := hstate p hp (h.joined op hop p hp)

theorem shaped_new : LocalExecutor.new.Shaped := by
  refine shaped_iff.mpr ⟨.new, fun i k hk => ?_, fun t b hb => ?_⟩
  · cases hk
  · cases hb

end Parts

/-! ## Building keeps the typing -/

section Steps

variable {ex ex' : LocalExecutor}

theorem Shaped.add_base_table (h : ex.Shaped) (name : String) (columns : List String) :
    (ex.add_base_table name columns).2.Shaped := by
  obtain ⟨hlen, htabs, hcore, -, hst⟩ := ex.add_base_table_parts name columns
  refine shaped_iff.mpr ⟨h.wf.add_base_table name columns, fun i k hk => ?_, fun t b hb => ?_⟩
  · rw [hst]
    rw [hcore] at hk
    split at hk
    · rename_i hi
      cases hk
      rw [stateOf_none (Nat.le_of_eq hi.symm)]
      exact ⟨.inl ⟨rfl, rfl⟩, (fun _ h => nomatch h), (fun _ h => nomatch h)⟩
    · refine (h.typedNode hk).congr (fun p hp => width_congr ?_) fun p _ hsome => ?_
      · have hlt := h.wf.ascending i p (by rw [parents_of_core hk]; exact hp)
        have hi := core_lt hk
        rw [hcore, if_neg (by omega)]
      · rw [hst]
        exact hsome
  · rw [htabs] at hb
    split at hb
    · cases hb
      omega
    · have := h.tables t b hb
      omega

theorem Shaped.add_operator (h : ex.Shaped) {name : String} {op : OperatorType}
    {parents : List Nat} {columns : List String} {idx : Nat}
    (hadd : ex.add_operator name op parents columns = some (idx, ex'))
    (htyped : op.Typed (parents.map ex.width) columns.length)
    (hjoin : ∀ j, op = .join j → ∀ p ∈ parents, (ex.stateOf p).isSome) : ex'.Shaped := by
  obtain ⟨rfl, hlen, hpar, htabs, hcore, -, hst⟩ := add_operator_parts hadd
  have hwidth : ∀ p, p < ex.nodes.length → ex'.width p = ex.width p := fun p hp =>
    width_congr (by rw [hcore, if_neg (Nat.ne_of_lt hp)])
  refine shaped_iff.mpr ⟨h.wf.add_operator hadd, fun i k hk => ?_, fun t b hb => ?_⟩
  · rw [hst]
    rw [hcore] at hk
    split at hk
    · rename_i hi
      cases hk
      rw [stateOf_none (Nat.le_of_eq hi.symm)]
      refine ⟨.inr ⟨op, rfl, ?_⟩, (fun _ h => nomatch h), ?_⟩
      · rw [List.map_congr_left fun p hp => hwidth p (hpar p hp)]
        exact htyped
      · intro j hj p hp
        rw [hst]
        exact hjoin j (some.inj hj) p hp
    · refine (h.typedNode hk).congr (fun p hp => hwidth p ?_) fun p _ hsome => ?_
      · have hlt := h.wf.ascending i p (by rw [parents_of_core hk]; exact hp)
        have hi := core_lt hk
        omega
      · rw [hst]
        exact hsome
  · rw [htabs] at hb
    have := h.tables t b hb
    omega

theorem Shaped.materialize (h : ex.Shaped) {node : Nat} {keys : List Nat} {view : ViewHandle}
    (hmat : ex.materialize node keys = some (view, ex'))
    (hkeys : ∀ c ∈ keys, c < ex.width node) : ex'.Shaped := by
  obtain ⟨hlt, -, hlen, htabs, hcore, -, hst⟩ := materialize_parts hmat
  refine shaped_iff.mpr ⟨h.wf.materialize hmat, fun i k hk => ?_, fun t b hb => ?_⟩
  · rw [hcore] at hk
    have hold : ex'.TypedNode k (ex.stateOf i) := by
      refine (h.typedNode hk).congr (fun p _ => width_congr (hcore p)) fun p _ hsome => ?_
      rw [hst]
      split
      · rfl
      · exact hsome
    rw [hst]
    split
    · rename_i hi
      subst hi
      refine ⟨hold.operator, fun st hst => ?_, hold.joined⟩
      cases hst
      rw [← width_of_core hk]
      exact hkeys
    · exact hold
  · rw [htabs] at hb
    rw [hlen]
    exact h.tables t b hb

end Steps

/-- A typed executor whose table names lead to base nodes with the columns of their schema. -/
structure Sound (conv : SqlConverter) (ex : LocalExecutor) : Prop where
  shaped : ex.Shaped
  named : ex.TablesNamed conv

theorem sound_new (conv : SqlConverter) : LocalExecutor.new.Sound conv :=
  ⟨shaped_new, fun _ _ h => by cases h⟩

theorem Sound.sameShape {conv : SqlConverter} {ex ex' : LocalExecutor} (hex : ex.Sound conv)
    (hs : SameShape ex ex') : ex'.Sound conv := by
  refine ⟨hex.shaped.sameShape hs, fun t b hb => ?_⟩
  rw [hs.tables] at hb
  obtain ⟨schema, hschema, hcore⟩ := hex.named t b hb
  refine ⟨schema, hschema, ?_⟩
  obtain ⟨nd, hn, hk⟩ := map_eq_some_iff.mp hcore
  obtain ⟨nd', hn', hsh⟩ := hs.node hn
  simp only [Node.core, NodeCore.mk.injEq] at hk
  simp only [Node.shape, Node.mk.injEq, hk.1, map_none, map_eq_none_iff] at hsh
  rw [core, hn', map_some]
  simp only [Node.core, hsh, hk]

end LocalExecutor

end Noria.Sqlite

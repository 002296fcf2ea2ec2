import Noria.Sqlite.Extension

/-! # Views do not disturb each other

  An executor with one more view simulates the executor without it: below the base tables the old
  nodes go through the same states, and the new nodes neither write to the old ones nor panic. What
  may go wrong is the state of a base table that two views share, which `materialize` replaces.
-/

namespace Noria.Sqlite

open List Option

variable {st : MemoryState} {i fa fb : Nat} {B₁ ex : LocalExecutor} {records : Records}
  {src c : Nat} {touched : List (String × List Nat)}

/-- A node with more children, the new ones from `n` on. A node without
    parents may have got a state where it had none, if it is in use. -/
structure Node.Extends (n : Nat) (inUse : Prop) (nd nd' : Node) : Prop where
  core : nd'.core = nd.core
  children : ∃ extra, nd'.children = nd.children ++ extra ∧ (∀ c ∈ extra, n ≤ c) ∧
    (nd.parents ≠ [] → extra = [])
  state : nd'.state = nd.state ∨ nd.parents = [] ∧ nd.state = none ∧ inUse

namespace Node.Extends

variable {n : Nat} {inUse : Prop} {nd nd' : Node}

section

variable (h : nd.Extends n inUse nd')
include h

theorem operator_eq : nd'.operator = nd.operator :=
  congrArg NodeCore.operator h.core

theorem parents_eq : nd'.parents = nd.parents :=
  congrArg NodeCore.parents h.core

theorem state_eq (hpar : nd.parents ≠ []) : nd'.state = nd.state :=
  h.state.resolve_right fun hbase => hpar hbase.1

theorem state_eq_some (hst : nd.state = some st) : nd'.state = some st := by
  rcases h.state with heq | ⟨-, hnone, -⟩
  · exact heq.trans hst
  · rw [hnone] at hst
    cases hst

theorem children_eq (hpar : nd.parents ≠ []) : nd'.children = nd.children := by
  obtain ⟨extra, heq, -, hnone⟩ := h.children
  rw [heq, hnone hpar, append_nil]

theorem setOperator (op : OperatorType) :
    Node.Extends n inUse { nd with operator := some op } { nd' with operator := some op } where
  core := by
    have hcore := h.core
    simp only [Node.core, NodeCore.mk.injEq] at hcore ⊢
    exact ⟨trivial, hcore.2⟩
  children := h.children
  state := h.state

theorem setState (st : MemoryState) :
    Node.Extends n inUse { nd with state := some st } { nd' with state := some st } :=
  ⟨h.core, h.children, .inl rfl⟩

end

end Node.Extends

namespace LocalExecutor

/-- `B` simulates `A`: it has the nodes of `A` and new ones after them. The
    states in `F` hold rows of their node's width in `B`. -/
structure Simulates (F : Nat → Prop) (A B : LocalExecutor) : Prop where
  nodes : ∀ {i : Nat} {nd : Node}, A.nodes[i]? = some nd →
    ∃ nd', B.nodes[i]? = some nd' ∧ nd.Extends A.nodes.length (F i) nd'
  tables : ∀ t b, A.base_tables.get? t = some b → B.base_tables.get? t = some b
  known : ∀ t b, B.base_tables.get? t = some b →
    A.base_tables.get? t = some b ∨ A.nodes.length ≤ b
  filled : B.FilledOn F

section Steps

variable {A B B' : LocalExecutor} {F : Nat → Prop}

section

variable (h : Simulates F A B)
include h

/-- What `B` does to its new nodes alone. -/
theorem Simulates.frame (hs : SameShape B B') (hfill : B'.FilledOn F)
    (hframe : ∀ i, i < A.nodes.length → B'.nodes[i]? = B.nodes[i]?) : Simulates F A B' where
  nodes := by
    intro i nd hn
    obtain ⟨nd', hn', hext⟩ := h.nodes hn
    exact ⟨nd', (hframe i (List.getElem?_eq_some_iff.mp hn).1).trans hn', hext⟩
  tables t b hb := by
    rw [hs.tables]
    exact h.tables t b hb
  known t b hb := by
    rw [hs.tables] at hb
    exact h.known t b hb
  filled := hfill

theorem Simulates.modify (c : Nat) {f : Node → Node}
    (hf : ∀ nd nd', nd.Extends A.nodes.length (F c) nd' →
      (f nd).Extends A.nodes.length (F c) (f nd'))
    (hfill : FilledOn ⟨B.nodes.modify c f, B.base_tables⟩ F) :
    Simulates F ⟨A.nodes.modify c f, A.base_tables⟩ ⟨B.nodes.modify c f, B.base_tables⟩ where
  nodes := by
    intro i nd hn
    rw [length_modify, getElem?_modify]
    rw [getElem?_modify] at hn
    obtain ⟨nd₀, hn₀, rfl⟩ := map_eq_some_iff.mp hn
    obtain ⟨nd', hn', hext⟩ := h.nodes hn₀
    refine ⟨_, map_eq_some_iff.mpr ⟨nd', hn', rfl⟩, ?_⟩
    split
    · rename_i hci
      subst hci
      exact hf nd₀ nd' hext
    · exact hext
  tables := h.tables
  known t b hb := by
    rw [length_modify]
    exact h.known t b hb
  filled := hfill

theorem Simulates.setOperator (c : Nat) (op : OperatorType) :
    Simulates F (A.setOperator c op) (B.setOperator c op) :=
  h.modify c (fun _ _ hext => hext.setOperator op) (h.filled.setOperator c op)

theorem Simulates.setState (hst : F c → st.Filled (B.width c)) :
    Simulates F (A.setState c st) (B.setState c st) :=
  h.modify c (fun _ _ hext => hext.setState st) (h.filled.setState hst)

/-- A node with parents is given the same state to look into. -/
theorem Simulates.state_for_op_eq (hA : A.Shaped) {side : Nat} {nd nd' : Node}
    (hn : A.nodes[c]? = some nd) (hext : nd.Extends A.nodes.length (F c) nd')
    (hpar : nd.parents ≠ []) : B.state_for_op nd' side = A.state_for_op nd side := by
  unfold state_for_op
  rw [hext.parents_eq, hext.state_eq hpar]
  split
  · rename_i hmany
    -- two parents: a join, whose inputs have their states in `A`
    obtain ⟨j, hop⟩ : ∃ j, nd.operator = some (.join j) := by
      rcases hA.node hn with ⟨-, hnone⟩ | ⟨op, hop, htyped⟩
      · exact absurd hnone hpar
      · obtain ⟨j, rfl⟩ := (length_of_typed htyped).2 (by rw [length_map]; exact hmany)
        exact ⟨j, hop⟩
    simp only [bind_eq_bind]
    split
    · cases hother : nd.parents[1 - side]? with
      | none => rfl
      | some other =>
        obtain ⟨st, hst⟩ := isSome_iff_exists.mp
          (hA.joined hn hop other (mem_of_getElem? hother))
        obtain ⟨ndp, hnp, hst⟩ := bind_eq_some_iff.mp hst
        obtain ⟨ndp', hnp', hext'⟩ := h.nodes hnp
        simp only [bind_some, hnp, hnp', hst, hext'.state_eq_some hst]
    · rfl
  · rfl

theorem processChild_simulates (hA : A.Shaped) (hc : c ∈ A.children src) (records : Records) :
    Option.Rel (fun p q => Simulates F p.1 q.1 ∧ p.2 = q.2) (A.processChild src c records)
      (B.processChild src c records) := by
  obtain ⟨nd, hn⟩ : ∃ nd, A.nodes[c]? = some nd :=
    ⟨_, getElem?_eq_getElem (hA.wf.child_lt_length hc)⟩
  have hpar : nd.parents ≠ [] := by
    have hmem := hA.wf.mem_children.mp hc
    rw [parents, hn] at hmem
    exact ne_nil_of_mem hmem
  obtain ⟨nd', hn', hext⟩ := h.nodes hn
  unfold processChild
  simp only [hn, hn', bind_eq_bind, bind_some, hext.parents_eq, hext.operator_eq,
    h.state_for_op_eq hA hn hext hpar]
  cases A.state_for_op nd ((nd.parents.findIdx? (· == src)).getD 0) with
  | none => exact .none
  | some state =>
    simp only [bind_some]
    cases nd.operator with
    | none => exact .some ⟨h, rfl⟩
    | some op =>
      cases hproc : op.process ((nd.parents.findIdx? (· == src)).getD 0) records state with
      | none =>
        simp only [hproc]
        exact .none
      | some out =>
        simp only [hproc]
        exact .some ⟨h.setOperator c out.1, rfl⟩

theorem updateState_simulates {nd nd' : Node} (hn : A.nodes[i]? = some nd)
    (hn' : B.nodes[i]? = some nd') (hst : nd'.state = nd.state)
    (hfill : ∀ st st', nd.state = some st →
      st.process_records records = some st' → F i → st'.Filled (B.width i)) :
    Option.Rel (Simulates F) (A.updateState i records) (B.updateState i records) := by
  unfold updateState
  simp only [hn, hn', bind_eq_bind, bind_some, hst]
  cases hs : nd.state with
  | none => exact .some h
  | some st =>
    cases hp : st.process_records records with
    | none =>
      simp only [hp]
      exact .none
    | some st' =>
      simp only [hp]
      exact .some (h.setState (hfill st st' hs hp))

end

theorem loop_simulates {A₁ : LocalExecutor} {l : List Nat} (hA : A.Shaped)
    (hl : ∀ c ∈ l, c ∈ A.children src) (h₁ : Simulates F A₁ B₁) (hsA : SameShape A A₁)
    (hsB : SameShape B B₁)
    (hprop : ∀ c ∈ l, ∀ a b results, Simulates F a b → SameShape A a → SameShape B b →
      Option.Rel (Simulates F) (a.propagate fa c results) (b.propagate fb c results)) :
    Option.Rel (fun a b => Simulates F a b ∧ SameShape A a ∧ SameShape B b)
      (l.foldlM (fun ex child => do
        let (ex, results) ← ex.processChild src child records
        propagate fa ex child results) A₁)
      (l.foldlM (fun ex child => do
        let (ex, results) ← ex.processChild src child records
        propagate fb ex child results) B₁) := by
  refine foldlM_option_rel (fun a b c hc hab => ?_) ⟨h₁, hsA, hsB⟩
  obtain ⟨hab, hsa, hsb⟩ := hab
  have hca : c ∈ a.children src := by
    rw [hsa.children_eq]
    exact hl c hc
  refine option_rel_bind (processChild_simulates hab (hA.sameShape hsa) hca records) ?_
  rintro ⟨a₁, results⟩ ⟨b₁, _⟩ ha₁ hb₁ ⟨hab₁, rfl⟩
  have hsa₁ := hsa.trans (processChild_frame ha₁).1
  have hsb₁ := hsb.trans (processChild_frame hb₁).1
  exact option_rel_mono (hprop c hc a₁ b₁ results hab₁ hsa₁ hsb₁) fun a₂ b₂ ha₂ hb₂ hab₂ =>
    ⟨hab₂, hsa₁.trans (propagate_frame ha₂).1, hsb₁.trans (propagate_frame hb₂).1⟩

/-- Below the base tables, the two executors go through the same states:
    the old nodes there have their old children only. -/
theorem propagate_simulates (h : Simulates F A B) (hA : A.Shaped)
    (hF : ∀ i, F i → i < A.nodes.length → A.parents i = []) (hpar : A.parents src ≠ [])
    (hfa : A.nodes.length ≤ src + fa) (hfb : B.nodes.length ≤ src + fb) (records : Records) :
    Option.Rel (Simulates F) (A.propagate fa src records) (B.propagate fb src records) := by
  induction fa generalizing fb A B src records with
  | zero =>
    refine absurd (parents_of_length_le ?_) hpar
    omega
  | succ fa ih =>
    have hlt : src < A.nodes.length := by
      by_contra hge
      exact hpar (parents_of_length_le (Nat.le_of_not_lt hge))
    have hn := getElem?_eq_getElem hlt
    obtain ⟨nd', hn', hext⟩ := h.nodes hn
    have hnd : (A.nodes[src]).parents ≠ [] := by
      rw [parents, hn] at hpar
      exact hpar
    have hltB := (List.getElem?_eq_some_iff.mp hn').1
    obtain ⟨fb, rfl⟩ : ∃ k, fb = k + 1 := ⟨fb - 1, by omega⟩
    unfold propagate
    split
    · exact .some h
    simp only [hn, hn', bind_eq_bind, bind_some, hext.children_eq hnd]
    refine option_rel_bind (updateState_simulates h hn hn' (hext.state_eq hnd)
      fun _ _ _ _ hFsrc => absurd (hF src hFsrc hlt) hpar) fun A₁ B₁ hA₁ hB₁ h₁ => ?_
    have hchildren : ∀ c ∈ (A.nodes[src]).children, c ∈ A.children src := by
      intro c hc
      rw [children, hn]
      exact hc
    refine option_rel_mono (loop_simulates hA hchildren h₁ (updateState_frame hA₁).1
      (updateState_frame hB₁).1 fun c hc a b results hab hsa hsb => ?_) fun _ _ _ _ hR => hR.1
    have hmem := hA.wf.mem_children.mp (hchildren c hc)
    have hgt := hA.wf.ascending c src hmem
    refine ih hab (hA.sameShape hsa) (fun i hi hlt' => ?_) ?_ ?_ ?_ results
    · rw [hsa.length_eq] at hlt'
      rw [hsa.parents_eq]
      exact hF i hi hlt'
    · rw [hsa.parents_eq]
      exact ne_nil_of_mem hmem
    · rw [hsa.length_eq]
      omega
    · rw [hsb.length_eq]
      omega

/-- Feeding the state of a base table: where only `B` has one, `A` stands still. -/
theorem updateState_base_simulates (h : Simulates F A B) (hB : B.Shaped) {b : Nat} {nd : Node}
    (hn : A.nodes[b]? = some nd) (hrows : ∀ r ∈ records, r.row.length = B.width b) :
    Option.Rel (Simulates F) (A.updateState b records) (B.updateState b records) := by
  obtain ⟨nd', hn', hext⟩ := h.nodes hn
  -- a state in use goes on to hold rows of its width
  have hfill : ∀ st, nd'.state = some st → F b → ∃ st', st.process_records records = some st' ∧
      st'.Filled (B.width b) := by
    intro st hst hFb
    have hstate : B.stateOf b = some st := by
      rw [stateOf, hn']
      exact hst
    refine MemoryState.process_records_filled (h.filled b st hFb hstate) ?_ hrows
    rw [width_of_node hn']
    exact hB.keys hn' hst
  rcases hext.state with heq | ⟨hpar, hnone, hFb⟩
  · refine updateState_simulates h hn hn' heq fun st st' hst hproc hFb => ?_
    obtain ⟨st'', hproc', hfilled⟩ := hfill st (heq.trans hst) hFb
    rw [hproc] at hproc'
    cases hproc'
    exact hfilled
  · have hAup : A.updateState b records = some A := by
      simp only [updateState, hn, hnone, bind_eq_bind, bind_some]
    rw [hAup]
    cases hst : nd'.state with
    | none =>
      have hBup : B.updateState b records = some B := by
        simp only [updateState, hn', hst, bind_eq_bind, bind_some]
      rw [hBup]
      exact .some h
    | some st =>
      obtain ⟨st', hproc, hfilled⟩ := hfill st hst hFb
      have hBup : B.updateState b records = some (B.setState b st') := by
        simp only [updateState, hn', hst, hproc, bind_eq_bind, bind_some]
      rw [hBup]
      refine .some ⟨?_, h.tables, h.known, h.filled.setState fun _ => hfilled⟩
      intro i ndi hi
      obtain ⟨ndi', hi', hexti⟩ := h.nodes hi
      rw [nodes_setState]
      split
      · rename_i hbi
        subst hbi
        rw [hn] at hi
        cases hi
        exact ⟨{ ndi' with state := some st' }, by rw [hi']; rfl, hexti.core, hexti.children,
          .inr ⟨hpar, hnone, hFb⟩⟩
      · exact ⟨ndi', hi', hexti⟩

theorem new_children_simulate {fuel : Nat} {extra : List Nat} (h₁ : Simulates F A B₁)
    (hs : SameShape B B₁) (hB : B.Shaped) (hfed : B.Fed F (A.nodes.length ≤ ·))
    (hnew : ∀ c ∈ extra, A.nodes.length ≤ c) (hmem : ∀ c ∈ extra, c ∈ B.children src)
    (hfuel : B.nodes.length ≤ src + 1 + fuel) (hrows : ∀ r ∈ records, r.row.length = B.width src) :
    ∃ B', extra.foldlM (fun ex child => do
        let (ex, results) ← ex.processChild src child records
        propagate fuel ex child results) B₁ = some B' ∧ Simulates F A B' := by
  obtain ⟨B', hB', h', -⟩ := foldlM_option_total (f := fun ex child => do
      let (ex, results) ← ex.processChild src child records
      propagate fuel ex child results)
    (P := fun b => Simulates F A b ∧ SameShape B b) (l := extra) (s := B₁)
    (fun b c hc hb => by
      obtain ⟨hAb, hsb⟩ := hb
      have hshb := hB.sameShape hsb
      have hfedb := hfed.sameShape hsb
      have hcb : c ∈ b.children src := by
        rw [hsb.children_eq]
        exact hmem c hc
      have hR := hnew c hc
      have hgt := hshb.wf.child_gt hcb
      obtain ⟨b₁, results, hpc, hfill₁, hres⟩ := processChild_typed hshb hAb.filled hcb
        (hfedb.inputs hR) (by rw [hsb.width_eq]; exact hrows)
      obtain ⟨hs₁, hframe₁⟩ := processChild_frame hpc
      have hshb₁ := hshb.sameShape hs₁
      obtain ⟨b₂, hprop, hfill₂⟩ := propagate_typed hshb₁ hfill₁
        (hfedb.sameShape hs₁) hR
        (by rw [hs₁.length_eq]; exact hshb.wf.child_lt_length hcb)
        (show _ ≤ _ + fuel by rw [hs₁.length_eq, hsb.length_eq]; omega)
        (by rw [hs₁.width_eq]; exact hres)
      obtain ⟨hs₂, hframe₂⟩ := propagate_frame hprop
      refine ⟨b₂, ?_, hAb.frame (hs₁.trans hs₂) hfill₂ fun i hi => ?_, hsb.trans (hs₁.trans hs₂)⟩
      · simp only [hpc, bind_eq_bind, bind_some, hprop]
      · have hbelow : ¬b₁.Reaches c i := by
          intro hr
          have := hshb₁.wf.le_of_reaches hr
          omega
        rw [hframe₂ i hbelow, hframe₁ i (by omega)])
    ⟨h₁, hs⟩
  exact ⟨B', hB', h'⟩

theorem apply_write_simulates (h : Simulates F A B) (hA : A.Shaped) (hB : B.Shaped)
    (hF : ∀ i, F i → i < A.nodes.length → A.parents i = []) (hfed : B.Fed F (A.nodes.length ≤ ·))
    {t : String}
    (hrows : ∀ b, B.base_tables.get? t = some b → ∀ r ∈ records, r.row.length = B.width b) :
    Option.Rel (Simulates F) (A.apply_write t records) (B.apply_write t records) := by
  unfold apply_write
  cases hget : A.base_tables.get? t with
  | none =>
    cases hgetB : B.base_tables.get? t with
    | none => exact .some h
    | some b =>
      -- a table that only the new view knows
      have hb : A.nodes.length ≤ b := by
        rcases h.known t b hgetB with hold | hnew
        · rw [hget] at hold
          cases hold
        · exact hnew
      obtain ⟨B', hB', hfill⟩ := propagate_typed hB h.filled hfed hb (hB.tables t b hgetB)
        (Nat.le_add_left _ _) (hrows b hgetB)
      obtain ⟨hs, hframe⟩ := propagate_frame hB'
      simp only [hB']
      refine .some (h.frame hs hfill fun i hi => hframe i fun hr => ?_)
      have := hB.wf.le_of_reaches hr
      omega
  | some b =>
    have hgetB := h.tables t b hget
    have hlt := hA.tables t b hget
    have hn := getElem?_eq_getElem hlt
    obtain ⟨nd', hn', hext⟩ := h.nodes hn
    have hltB := (List.getElem?_eq_some_iff.mp hn').1
    obtain ⟨fa, hfa⟩ : ∃ k, A.nodes.length = k + 1 := ⟨A.nodes.length - 1, by omega⟩
    obtain ⟨fb, hfb⟩ : ∃ k, B.nodes.length = k + 1 := ⟨B.nodes.length - 1, by omega⟩
    obtain ⟨extra, hchildren, hnew, -⟩ := hext.children
    simp only [hgetB, hfa, hfb]
    unfold propagate
    split
    · exact .some h
    simp only [hn, hn', bind_eq_bind, bind_some, hchildren, foldlM_append]
    refine option_rel_bind (updateState_base_simulates h hB hn (hrows b hgetB))
      fun A₁ B₁ hA₁ hB₁ h₁ => ?_
    have hmem : ∀ c ∈ (A.nodes[b]).children, c ∈ A.children b := by
      intro c hc
      rw [children, hn]
      exact hc
    -- the old children, then the new ones
    rw [← bind_fun_some (List.foldlM _ A₁ _)]
    refine option_rel_bind (loop_simulates hA hmem h₁ (updateState_frame hA₁).1
      (updateState_frame hB₁).1 fun c hc a b' results hab hsa hsb => ?_) ?_
    · have hpar := hA.wf.mem_children.mp (hmem c hc)
      have hgt := hA.wf.ascending c b hpar
      refine propagate_simulates hab (hA.sameShape hsa) (fun i hi hlt' => ?_) ?_ ?_ ?_ results
      · rw [hsa.length_eq] at hlt'
        rw [hsa.parents_eq]
        exact hF i hi hlt'
      · rw [hsa.parents_eq]
        exact ne_nil_of_mem hpar
      · rw [hsa.length_eq]
        omega
      · rw [hsb.length_eq]
        omega
    · rintro A₂ B₂ - - ⟨h₂, hsA, hsB⟩
      obtain ⟨B', hB', h'⟩ := new_children_simulate h₂ hsB hB
        (by rw [hsA.length_eq]; exact hfed)
        (show ∀ c ∈ extra, _ ≤ c by rw [hsA.length_eq]; exact hnew) (fun c hc => by
          rw [children, hn', map_some, getD_some, hchildren]
          exact mem_append_right _ hc) (show _ ≤ b + 1 + fb by omega) (hrows b hgetB)
      exact hB'.symm ▸ .some h'

/-- Rows that fit the tables they are written to. -/
def RowsFit (ex : LocalExecutor) (ws : List (String × Records)) : Prop :=
  ∀ w ∈ ws, ∀ b, ex.base_tables.get? w.1 = some b → ∀ r ∈ w.2, r.row.length = ex.width b

theorem apply_writes_simulates (h : Simulates F A B) (hA : A.Shaped) (hB : B.Shaped)
    (hF : ∀ i, F i → i < A.nodes.length → A.parents i = [])
    (hfed : B.Fed F (A.nodes.length ≤ ·)) {ws : List (String × Records)} (hws : B.RowsFit ws) :
    Option.Rel (Simulates F) (A.apply_writes ws) (B.apply_writes ws) := by
  refine option_rel_mono (foldlM_option_rel (R := fun a b => Simulates F a b ∧
    SameShape A a ∧ SameShape B b) (fun a b w hw hab => ?_) ⟨h, .refl A, .refl B⟩)
    fun _ _ _ _ hR => hR.1
  obtain ⟨hab, hsa, hsb⟩ := hab
  refine option_rel_mono (apply_write_simulates hab (hA.sameShape hsa) (hB.sameShape hsb) ?_ ?_ ?_)
    fun a' b' ha' hb' hab' =>
      ⟨hab', hsa.trans (apply_write_sameShape ha'), hsb.trans (apply_write_sameShape hb')⟩
  · intro i hi hlt
    rw [hsa.length_eq] at hlt
    rw [hsa.parents_eq]
    exact hF i hi hlt
  · rw [hsa.length_eq]
    exact hfed.sameShape hsb
  · intro b' hb' r hr
    rw [hsb.tables] at hb'
    rw [hsb.width_eq]
    exact hws w hw b' hb' r hr

theorem Simulates.lookup_eq (h : Simulates F A B) {view : ViewHandle}
    (hview : (A.stateOf view.node).isSome) (key : List DataType) :
    B.lookup view key = A.lookup view key := by
  obtain ⟨st, hst⟩ := isSome_iff_exists.mp hview
  obtain ⟨nd, hn, hst⟩ := bind_eq_some_iff.mp hst
  obtain ⟨nd', hn', hext⟩ := h.nodes hn
  simp only [lookup, hn, hn', hst, hext.state_eq_some hst, bind_eq_bind, bind_some]

end Steps

/-! ## Runs -/

/-- An executor reached by conversions, successful or not, and writes, with
    the views returned so far. -/
inductive Reached (conv : SqlConverter) : LocalExecutor → List ViewHandle → Prop
  | new : Reached conv .new []
  | select {ex ex' : LocalExecutor} {views : List ViewHandle} {view : ViewHandle} {env : SqlEnv}
      {sql : String} (h : Reached conv ex views)
      (hrun : SqlConverter.convert_select env conv sql ex = (.ok view, ex')) :
      Reached conv ex' (view :: views)
  | failed {ex ex' : LocalExecutor} {views : List ViewHandle} {e : SqlError} {env : SqlEnv}
      {sql : String} (h : Reached conv ex views)
      (hrun : SqlConverter.convert_select env conv sql ex = (.error e, ex')) :
      Reached conv ex' views
  | write {ex ex' : LocalExecutor} {views : List ViewHandle} {t : String} {records : Records}
      (h : Reached conv ex views) (hrun : ex.apply_write t records = some ex') :
      Reached conv ex' views

section Runs

variable {conv : SqlConverter}

theorem Extends.stateOf_isSome {old : LocalExecutor} (h : old.Extends touched ex)
    (hi : (old.stateOf i).isSome) : (ex.stateOf i).isSome := by
  have hlt : i < old.nodes.length := by
    by_contra hge
    rw [stateOf_none (Nat.le_of_not_lt hge)] at hi
    cases hi
  rcases h.state i hlt with heq | ⟨t, keys, -, -, heq⟩
  · rw [heq]
    exact hi
  · rw [heq]
    rfl

theorem Reached.sound (hcols : conv.HasColumns) {views : List ViewHandle}
    (h : Reached conv ex views) : ex.Sound conv ∧ ∀ v ∈ views, (ex.stateOf v.node).isSome := by
  induction h with
  | new => exact ⟨sound_new conv, fun v hv => absurd hv not_mem_nil⟩
  | select h hrun ih =>
    obtain ⟨hview, body, -, hgrow⟩ := (convert_select_ends hcols ih.1 _ _).ok hrun
    refine ⟨hgrow.sound, fun v hv => ?_⟩
    rcases mem_cons.mp hv with rfl | hv
    · exact hview
    · exact hgrow.extends_old.stateOf_isSome (ih.2 v hv)
  | failed h hrun ih =>
    obtain ⟨touched, hgrow⟩ := (convert_select_ends hcols ih.1 _ _).error hrun
    exact ⟨hgrow.sound, fun v hv => hgrow.extends_old.stateOf_isSome (ih.2 v hv)⟩
  | write h hrun ih =>
    have hs := apply_write_sameShape hrun
    refine ⟨ih.1.sameShape hs, fun v hv => ?_⟩
    rw [hs.stateOf_isSome]
    exact ih.2 v hv

/-- The tables that a query materializes have no state yet, or have just got the one it asks for. -/
def Compatible (ex : LocalExecutor) (touched : List (String × List Nat)) : Prop :=
  ∀ p ∈ touched, ∀ b, ex.base_tables.get? p.1 = some b →
    ex.stateOf b = none ∨ ex.stateOf b = some (.new p.2)

theorem Extends.simulates {A B : LocalExecutor} (h : A.Extends touched B) (hA : A.Sound conv)
    (hcomp : A.Compatible touched) : Simulates (NewOrTouched A touched B) A B := by
  -- a touched base has an empty state
  have htouched : ∀ {t : String} {keys : List Nat} {b : Nat}, (t, keys) ∈ touched →
      B.base_tables.get? t = some b → b < A.nodes.length →
      A.parents b = [] ∧ ∀ st, B.stateOf b = some st → st = .new st.key_columns := by
    intro t keys b hmem hget hlt
    have hold := (h.known t b hget).resolve_right (Nat.not_le.mpr hlt)
    obtain ⟨schema, -, hcore⟩ := hA.named t b hold
    refine ⟨parents_of_core hcore, fun st hst => ?_⟩
    rcases h.state b hlt with heq | ⟨t', keys', -, -, heq⟩
    · rw [heq] at hst
      rcases hcomp _ hmem b hold with hnone | hnew
      · rw [hnone] at hst
        cases hst
      · rw [hnew] at hst
        cases hst
        rfl
    · rw [heq] at hst
      cases hst
      rfl
  refine ⟨?_, h.tables, h.known, ?_⟩
  · intro i nd hn
    have hlt := (List.getElem?_eq_some_iff.mp hn).1
    obtain ⟨nd', hn', hcore⟩ := map_eq_some_iff.mp ((h.core i hlt).trans (core_of_node hn))
    have hstA : A.stateOf i = nd.state := by
      rw [stateOf, hn]
      rfl
    have hstB : B.stateOf i = nd'.state := by
      rw [stateOf, hn']
      rfl
    have hparA : A.parents i = nd.parents := by
      rw [parents, hn]
      rfl
    refine ⟨nd', hn', hcore, ?_, ?_⟩
    · obtain ⟨extra, hchi, hnew, hnone⟩ := h.children i hlt
      simp only [LocalExecutor.children, hn, hn', map_some, getD_some] at hchi
      rw [hparA] at hnone
      exact ⟨extra, hchi, hnew, hnone⟩
    · rw [← hstA, ← hstB, ← hparA]
      rcases h.state i hlt with heq | ⟨t, keys, hmem, hget, heq⟩
      · exact .inl heq
      · rcases hcomp _ hmem i hget with hnone | hnew
        · have hgetB := h.tables t i hget
          exact .inr ⟨(htouched hmem hgetB hlt).1, hnone, .inr ⟨t, keys, hmem, hgetB⟩⟩
        · exact .inl (heq.trans hnew.symm)
  · intro i st hi hst
    have hempty : st = .new st.key_columns := by
      by_cases hlt : i < A.nodes.length
      · rcases hi with hnew | ⟨t, keys, hmem, hget⟩
        · omega
        · exact (htouched hmem hget hlt).2 st hst
      · exact h.fresh i st (Nat.le_of_not_lt hlt) hst
    rw [hempty]
    exact MemoryState.filled_new _ _

theorem Growing.fed {A B : LocalExecutor} (h : Growing conv A touched B) :
    B.Fed (NewOrTouched A touched B) (A.nodes.length ≤ ·) where
  own _ hi := .inl hi
  child _ hi _ hc := Nat.le_trans hi (Nat.le_of_lt (h.sound.shaped.wf.child_gt hc))
  inputs hc hn hop p hp := h.extends_old.inputs _ _ _ hc (core_of_node hn) hop p hp

/-- One more view, where the states of the tables it materializes are not in use, leaves the answers
    of the earlier views as they are; and whatever rows of full width are written later, both
    executors panic or the earlier views answer the same in both. -/
theorem earlier_views_undisturbed (hcols : conv.HasColumns) {A B : LocalExecutor}
    {views : List ViewHandle} {view : ViewHandle} {env : SqlEnv} {sql : String} {body : SelectBody}
    (hA : Reached conv A views) (hparse : env.parse sql = .ok (some (.select (.select body))))
    (hrun : SqlConverter.convert_select env conv sql A = (.ok view, B))
    (hcomp : A.Compatible (selectTouches env conv body)) :
    (∀ v ∈ views, ∀ key, B.lookup v key = A.lookup v key) ∧
      ∀ ws, B.RowsFit ws → Option.Rel
        (fun A' B' => ∀ v ∈ views, ∀ key, B'.lookup v key = A'.lookup v key)
        (A.apply_writes ws) (B.apply_writes ws) := by
  obtain ⟨hsound, hviews⟩ := hA.sound hcols
  obtain ⟨-, body', hparse', hgrow⟩ := (convert_select_ends hcols hsound env sql).ok hrun
  obtain rfl : body' = body := by
    rw [hparse] at hparse'
    cases hparse'
    rfl
  have hsim := hgrow.extends_old.simulates hsound hcomp
  have hbases : ∀ i, NewOrTouched A (selectTouches env conv body') B i → i < A.nodes.length →
      A.parents i = [] := by
    rintro i (hnew | ⟨t, keys, -, hget⟩) hlt
    · omega
    · obtain ⟨schema, -, hcore⟩ := hgrow.sound.named t i hget
      rw [hgrow.extends_old.core i hlt] at hcore
      exact parents_of_core hcore
  refine ⟨fun v hv key => hsim.lookup_eq (hviews v hv) key, fun ws hws => ?_⟩
  refine option_rel_mono (apply_writes_simulates hsim hsound.shaped hgrow.sound.shaped hbases
    hgrow.fed hws) fun A' B' hA' _ hsim' v hv key => hsim'.lookup_eq ?_ key
  rw [(apply_writes_sameShape hA').stateOf_isSome]
  exact hviews v hv

end Runs

/-! ### Two views of one table -/

/-- Tables `a(k)` and `b(k)`. -/
def keyTables : SqlConverter := ⟨[⟨"a", ["k"]⟩, ⟨"b", ["k"]⟩]⟩

def selectAll (where_clause : Option Expr) : SelectBody :=
  ⟨[.star], some ⟨some (.table "a" none), none⟩, where_clause, none⟩

/-- `SELECT * FROM a JOIN b ON a.k = b.k`. -/
def selectJoin : SelectBody :=
  ⟨[.star], some ⟨some (.table "a" none), some [⟨.typedJoin none, .table "b" none,
    some (.onExpr (.binary (.qualified "a" "k") .equals (.qualified "b" "k")))⟩]⟩, none, none⟩

/-- A fresh executor with one view. -/
def viewOnly (where_clause : Option Expr) : LocalExecutor :=
  (SqlConverter.convert_select (queryEnv (selectAll where_clause)) keyTables "" .new).2

def oneView (where_clause : Option Expr) : LocalExecutor :=
  ((viewOnly where_clause).apply_write "a" [.positive [.int 1]]).getD .new

/-- The executor with the join view on top. -/
def twoViews (where_clause : Option Expr) : LocalExecutor :=
  (SqlConverter.convert_select (queryEnv selectJoin) keyTables "" (oneView where_clause)).2

/-- The join replaces the state of `a`, which is the state of the first
    view: the row written before is gone from it. -/
theorem shared_base_state_lost :
    Reached keyTables (oneView none) [⟨0, [0]⟩] ∧
      SqlConverter.convert_select (queryEnv selectJoin) keyTables "" (oneView none)
        = (.ok ⟨2, [0]⟩, twoViews none) ∧
      (oneView none).lookup ⟨0, [0]⟩ [.int 1] = some (some [[.int 1]]) ∧
      (twoViews none).lookup ⟨0, [0]⟩ [.int 1] = some none := by
  have hview : SqlConverter.convert_select (queryEnv (selectAll none)) keyTables "" .new
      = (.ok ⟨0, [0]⟩, viewOnly none) := rfl
  have hwrite : (viewOnly none).apply_write "a" [.positive [.int 1]] = some (oneView none) := rfl
  exact ⟨(Reached.new.select hview).write hwrite, rfl, rfl, rfl⟩

/-- `a.k = ?`. -/
def byKey : Expr := .binary (.qualified "a" "k") .equals (.variable "?")

/-- Rows for both tables. -/
def keyWrites : List (String × Records) :=
  [("b", [.positive [.int 1]]), ("a", [.positive [.int 1]])]

/-- With a filter of its own the first view keeps its rows, and gets those written later. -/
theorem filtered_view_undisturbed :
    ∃ A' B',
      (twoViews (some byKey)).lookup ⟨1, [0]⟩ [.int 1]
        = (oneView (some byKey)).lookup ⟨1, [0]⟩ [.int 1] ∧
      (oneView (some byKey)).apply_writes keyWrites = some A' ∧
      (twoViews (some byKey)).apply_writes keyWrites = some B' ∧
      A'.lookup ⟨1, [0]⟩ [.int 1] = some (some [[.int 1], [.int 1]]) ∧
      B'.lookup ⟨1, [0]⟩ [.int 1] = A'.lookup ⟨1, [0]⟩ [.int 1] := by
  have hview : SqlConverter.convert_select (queryEnv (selectAll (some byKey))) keyTables "" .new
      = (.ok ⟨1, [0]⟩, viewOnly (some byKey)) := rfl
  have hwrite : (viewOnly (some byKey)).apply_write "a" [.positive [.int 1]]
      = some (oneView (some byKey)) := rfl
  have hA : Reached keyTables (oneView (some byKey)) [⟨1, [0]⟩] :=
    (Reached.new.select hview).write hwrite
  have hcomp : (oneView (some byKey)).Compatible
      (selectTouches (queryEnv selectJoin) keyTables selectJoin) := by
    intro p hp b hb
    rcases mem_cons.mp hp with rfl | hp
    · cases hb
      exact .inl rfl
    · rw [mem_singleton.mp hp] at hb
      cases hb
  have hrun : SqlConverter.convert_select (queryEnv selectJoin) keyTables "" (oneView (some byKey))
      = (.ok ⟨3, [0]⟩, twoViews (some byKey)) := rfl
  obtain ⟨hnow, hlater⟩ := earlier_views_undisturbed
    (by unfold SqlConverter.HasColumns; decide) hA rfl hrun hcomp
  have hrel := hlater keyWrites (by
    intro w hw b hb r hr
    rcases mem_cons.mp hw with rfl | hw
    · cases hb
      rw [mem_singleton.mp hr]
      rfl
    · rw [mem_singleton.mp hw] at hb hr
      cases hb
      rw [mem_singleton.mp hr]
      rfl)
  refine ⟨_, _, hnow _ (mem_singleton_self _) _, rfl, rfl, rfl, ?_⟩
  cases hrel with
  | some heq => exact heq _ (mem_singleton_self _) _

end LocalExecutor

end Noria.Sqlite

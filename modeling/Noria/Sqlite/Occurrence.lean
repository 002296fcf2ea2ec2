import Noria.Sqlite.Chain

/-! # Batches for tables with several occurrences

  A batch for a table that occurs several times in a chain is processed correctly when no
  combination of rows uses a row of the batch at two of the occurrences, and a table that is joined
  with itself by the first join contributes no row of the batch to that join. The condition is
  stated on the rows alone (`NoDouble`, `NoSelf`), and is void for a table that occurs once.
-/

namespace Noria.Sqlite

open Bag List

/-! ## The conditions

  The tables of a query are a first table and a list of joined tables, each with its join. A table
  may be named (in the query) or be a node (in the graph). -/

section Condition

variable {κ : Type*}

/-- No row of the batch `D` for table `b` meets itself: `all` are the combinations so far, `marked`
    those that use a row of the batch, and the list has the tables still to be joined. -/
def NoDouble (P : κ → Set VRow) (b : κ) (D : Set VRow) :
    Set VRow → Set VRow → List (κ × JoinOp) → Prop
  | _, _, [] => True
  | all, marked, (t, op) :: rest =>
    (t = b → ∀ a ∈ marked, ∀ d ∈ D, ¬op.Matches a d) ∧
      NoDouble P b D (LocalExecutor.joinSet op all (P t))
        (LocalExecutor.joinSet op marked (P t) ∪
          { v | t = b ∧ v ∈ LocalExecutor.joinSet op all D }) rest

/-- A batch for a table that the first join joins with itself has no row
    that takes part in that join. -/
def NoSelf (P : κ → Set VRow) (b : κ) (D : Set VRow) (first : κ) : List (κ × JoinOp) → Prop
  | [] => True
  | (t, op) :: _ =>
    first = b → t = b → ∀ d ∈ D, ∀ r ∈ P b, ¬op.Matches d r ∧ ¬op.Matches r d

/-- The whole condition on a batch `D` for table `b` when the tables have the contents `T`. -/
def NoRepeat (T : κ → Multiset VRow) (b : κ) (D : Set VRow) (first : κ)
    (tables : List (κ × JoinOp)) : Prop :=
  let P := fun t => { v | v ∈ T t ∨ (t = b ∧ v ∈ D) }
  NoSelf P b D first tables ∧
    NoDouble P b D (P first) { v | first = b ∧ v ∈ D } tables

/-- The right join column at the last occurrence of table `t`. -/
def lastKey [DecidableEq κ] (t : κ) : List (κ × JoinOp) → Option Nat
  | [] => none
  | (s, op) :: rest =>
    match lastKey t rest with
    | some k => some k
    | none => if s = t then some op.right_key else none

/-- Every table is joined on one column: the same one at all its
    occurrences on the right of a join, and at the head of the query, except
    where the first join is one of the first table with itself. -/
structure Indexed [DecidableEq κ] (first : κ) (tables : List (κ × JoinOp)) : Prop where
  right : ∀ p ∈ tables, lastKey p.1 tables = some p.2.right_key
  left : ∀ p rest, tables = p :: rest → p.1 ≠ first → ∀ k, lastKey first tables = some k →
    k = p.2.left_key

theorem lastKey_of_notMem [DecidableEq κ] {t : κ} {tables : List (κ × JoinOp)}
    (h : t ∉ tables.map Prod.fst) : lastKey t tables = none := by
  induction tables with
  | nil => rfl
  | cons p rest ih =>
    obtain ⟨s, op⟩ := p
    rw [map_cons, mem_cons, not_or] at h
    rw [lastKey, ih h.2]
    exact if_neg (Ne.symm h.1)

theorem indexed_of_nodup [DecidableEq κ] {first : κ} {tables : List (κ × JoinOp)}
    (h : (first :: tables.map Prod.fst).Nodup) : Indexed first tables := by
  rw [nodup_cons] at h
  obtain ⟨hfirst, hnd⟩ := h
  constructor
  · intro p hp
    clear hfirst
    induction tables with
    | nil => cases hp
    | cons q rest ih =>
      obtain ⟨s, op⟩ := q
      rw [map_cons, nodup_cons] at hnd
      rcases mem_cons.mp hp with rfl | hp
      · rw [lastKey, lastKey_of_notMem hnd.1]
        exact if_pos rfl
      · rw [lastKey, ih hnd.2 hp]
  · intro p rest _ _ k hk
    rw [lastKey_of_notMem hfirst] at hk
    cases hk

/-- A table that is not among the tables to come cannot meet itself. -/
theorem noDouble_of_notMem {P : κ → Set VRow} {b : κ} {D : Set VRow}
    {tables : List (κ × JoinOp)} (h : ∀ p ∈ tables, p.1 ≠ b) (all marked : Set VRow) :
    NoDouble P b D all marked tables := by
  induction tables generalizing all marked with
  | nil => trivial
  | cons p rest ih =>
    obtain ⟨t, op⟩ := p
    refine ⟨fun ht => absurd ht (h (t, op) mem_cons_self), ?_⟩
    exact ih (forall_mem_cons.mp h).2 _ _

theorem joinSet_empty (op : JoinOp) (S : Set VRow) : LocalExecutor.joinSet op ∅ S = ∅ := by
  ext v
  simp [LocalExecutor.joinSet]

theorem noRepeat_of_nodup {first : κ} {tables : List (κ × JoinOp)}
    (h : (first :: tables.map Prod.fst).Nodup) (T : κ → Multiset VRow) (b : κ) (D : Set VRow) :
    NoRepeat T b D first tables := by
  rw [nodup_cons] at h
  obtain ⟨hfirst, hnd⟩ := h
  constructor
  · cases tables with
    | nil => trivial
    | cons p rest =>
      rintro rfl ht
      exact absurd (mem_map.mpr ⟨p, mem_cons_self, ht⟩) hfirst
  · by_cases hb : first = b
    · subst hb
      refine noDouble_of_notMem (fun p hp hpb => hfirst ?_) _ _
      exact mem_map.mpr ⟨p, hp, hpb⟩
    · -- nothing is marked up to the one occurrence, and nothing follows it
      have hnone : ∀ {tables : List (κ × JoinOp)}, (tables.map Prod.fst).Nodup →
          ∀ all : Set VRow, NoDouble (fun t => { v | v ∈ T t ∨ (t = b ∧ v ∈ D) }) b D all ∅
            tables := by
        intro tables hnd
        induction tables with
        | nil => exact fun _ => trivial
        | cons p rest ih =>
          obtain ⟨t, op⟩ := p
          rw [map_cons, nodup_cons] at hnd
          intro all
          refine ⟨fun _ a ha => absurd ha (Set.notMem_empty a), ?_⟩
          rw [joinSet_empty, Set.empty_union]
          by_cases ht : t = b
          · refine noDouble_of_notMem (fun q hq hqb => hnd.1 ?_) _ _
            exact mem_map.mpr ⟨q, hq, hqb.trans ht.symm⟩
          · have : { v | t = b ∧ v ∈ LocalExecutor.joinSet op all D } = ∅ := by
              ext v
              simp [ht]
            rw [this]
            exact ih hnd.2 _
      have hempty : { v | first = b ∧ v ∈ D } = (∅ : Set VRow) := by
        ext v
        simp [hb]
      rw [hempty]
      exact hnone hnd _

/-! ### From names to nodes -/

section Transport

variable {κ' : Type*} {T : κ → Multiset VRow} {B : κ' → Multiset VRow} {t : κ} {b : κ'}

/-- Two spellings of one list of tables, with their contents. -/
def SameTables (T : κ → Multiset VRow) (B : κ' → Multiset VRow) (t : κ) (b : κ') :
    List (κ × JoinOp) → List (κ' × JoinOp) → Prop :=
  List.Forall₂ fun p q => p.2 = q.2 ∧ T p.1 = B q.1 ∧ (p.1 = t ↔ q.1 = b)

theorem NoDouble.transport {D : Set VRow} {tables : List (κ × JoinOp)}
    {nodes : List (κ' × JoinOp)} (hsame : SameTables T B t b tables nodes) {all marked : Set VRow}
    (h : NoDouble (fun s => { v | v ∈ T s ∨ (s = t ∧ v ∈ D) }) t D all marked tables) :
    NoDouble (fun n => { v | v ∈ B n ∨ (n = b ∧ v ∈ D) }) b D all marked nodes := by
  induction hsame generalizing all marked with
  | nil => trivial
  | @cons p q _ _ hpq _ ih =>
    obtain ⟨s, op⟩ := p
    obtain ⟨n, op'⟩ := q
    obtain ⟨rfl, hT, hiff⟩ : op = op' ∧ T s = B n ∧ (s = t ↔ n = b) := hpq
    obtain ⟨hno, hrest⟩ := h
    refine ⟨fun hn => hno (hiff.mpr hn), ?_⟩
    have := ih hrest
    simp only [hT, hiff] at this
    exact this

/-- The condition on a batch does not depend on how tables are named. -/
theorem NoRepeat.transport {D : Set VRow} {first : κ} {first' : κ'} {tables : List (κ × JoinOp)}
    {nodes : List (κ' × JoinOp)} (hfirst : T first = B first' ∧ (first = t ↔ first' = b))
    (hsame : SameTables T B t b tables nodes) (ht : T t = B b)
    (h : NoRepeat T t D first tables) : NoRepeat B b D first' nodes := by
  obtain ⟨hself, hdouble⟩ := h
  constructor
  · cases hsame with
    | nil => trivial
    | @cons p q _ _ hpq _ =>
      obtain ⟨s, op⟩ := p
      obtain ⟨n, op'⟩ := q
      obtain ⟨rfl, -, hiff⟩ : op = op' ∧ T s = B n ∧ (s = t ↔ n = b) := hpq
      intro hf hn d hd r hr
      refine hself (hfirst.2.mpr hf) (hiff.mpr hn) d hd r ?_
      simpa [ht] using hr
  · have := hdouble.transport hsame
    simp only [hfirst.1, hfirst.2] at this
    exact this

end Transport

end Condition

/-! ## What it gives -/

namespace LocalExecutor

theorem joinSet_mono {op : JoinOp} {S S' U U' : Set VRow} (hS : S ⊆ S') (hU : U ⊆ U') :
    joinSet op S U ⊆ joinSet op S' U' := by
  rintro v ⟨a, ha, r, hr, hm, hv⟩
  exact ⟨a, hS ha, r, hU hr, hm, hv⟩

section Quiet

variable {B B' : Nat → Multiset VRow} {b : Nat} {D : Set VRow} {records : Records}

/-- Rows after a batch are old rows or rows of the batch. -/
theorem mem_of_applies {m m' : Multiset VRow} {cs : List (Change VRow)} (h : Applies m cs m')
    {v : VRow} (hv : v ∈ m') : v ∈ m ∨ ∃ c ∈ cs, c.elem = v := by
  induction h with
  | nil m => exact .inl hv
  | @ins a m m' cs _ ih =>
    rcases ih hv with h | ⟨c, hc, rfl⟩
    · rcases Multiset.mem_cons.mp h with rfl | h
      · exact .inr ⟨.ins v, mem_cons_self, rfl⟩
      · exact .inl h
    · exact .inr ⟨c, mem_cons_of_mem _ hc, rfl⟩
  | @del a m m' cs _ ih =>
    rcases ih hv with h | ⟨c, hc, rfl⟩
    · exact .inl (Multiset.mem_cons_of_mem h)
    · exact .inr ⟨c, mem_cons_of_mem _ hc, rfl⟩

theorem filter_eq_of_applies {m m' : Multiset VRow} {cs : List (Change VRow)}
    (h : Applies m cs m') (p : VRow → Prop) [DecidablePred p] (hno : ∀ c ∈ cs, ¬p c.elem) :
    m'.filter p = m.filter p := by
  have hf := h.filter p
  have hnil : (cs.filter fun c => p c.elem) = [] := by
    rw [filter_eq_nil_iff]
    intro c hc
    simpa using hno c hc
  rw [hnil, Applies.nil_iff] at hf
  exact hf.symm

variable (hsame : ∀ n, n ≠ b → B' n = B n) (happ : Applies (B b) records.changes (B' b))
  (hD : ∀ r ∈ records, Row.val r.row ∈ D)

include hsame happ hD

theorem mem_pool {n : Nat} {v : VRow} (hv : v ∈ B' n) : v ∈ B n ∨ (n = b ∧ v ∈ D) := by
  by_cases hn : n = b
  · subst hn
    rcases mem_of_applies happ hv with h | ⟨c, hc, rfl⟩
    · exact .inl h
    · obtain ⟨r, hr, rfl⟩ := mem_map.mp hc
      exact .inr ⟨rfl, by rw [Record.elem_change]; exact hD r hr⟩
  · rw [hsame n hn] at hv
    exact .inl hv

theorem safe_of_noDouble {links : List Link} {all marked F : Set VRow}
    (h : NoDouble (fun t => { v | v ∈ B t ∨ (t = b ∧ v ∈ D) }) b D all marked
      (links.map fun l => (l.right, l.op))) (hF : F ⊆ marked) : Safe B' F (versions B links) := by
  induction links generalizing all marked F with
  | nil => trivial
  | cons l rest ih =>
    obtain ⟨hno, hrest⟩ := h
    refine ⟨fun a ha => ?_, ?_⟩
    · by_cases hb : l.right = b
      · rw [hb]
        refine filter_eq_of_applies happ _ fun c hc => ?_
        obtain ⟨r, hr, rfl⟩ := mem_map.mp hc
        rw [Record.elem_change]
        exact hno hb a (hF ha) _ (hD r hr)
      · rw [hsame _ hb]
    · refine ih hrest ?_
      refine Set.subset_union_of_subset_left ?_ _
      refine joinSet_mono hF fun v hv => ?_
      exact mem_pool hsame happ hD hv

theorem quiet_of_noDouble {links : List Link} {all marked : Set VRow} {L : Multiset VRow}
    (h : NoDouble (fun t => { v | v ∈ B t ∨ (t = b ∧ v ∈ D) }) b D all marked
      (links.map fun l => (l.right, l.op))) (hL : ∀ v ∈ L, v ∈ all) : Quiet B B' b D L links := by
  induction links generalizing all marked L with
  | nil => trivial
  | cons l rest ih =>
    obtain ⟨-, hrest⟩ := h
    refine ⟨fun hb => ?_, ih hrest ?_⟩
    · refine safe_of_noDouble hsame happ hD hrest ?_
      refine Set.subset_union_of_subset_right ?_ _
      intro v hv
      exact ⟨hb, joinSet_mono (fun a ha => hL a ha) (fun _ hd => hd) hv⟩
    · intro v hv
      obtain ⟨a, ha, hv⟩ := Multiset.mem_bind.mp hv
      obtain ⟨r, hr, rfl⟩ := Multiset.mem_map.mp hv
      rw [Multiset.mem_filter] at hr
      exact ⟨a, hL a ha, r, mem_pool hsame happ hD hr.1, hr.2, rfl⟩

theorem quietBatch_of_noRepeat {first : Nat} {l₁ : Link} {rest : List Link}
    (h : NoRepeat B b D first ((l₁ :: rest).map fun l => (l.right, l.op))) :
    QuietBatch B B' b D first l₁ rest := by
  obtain ⟨hself, hfirst, hrest⟩ := h
  have hsub : ∀ {n : Nat}, ∀ v ∈ B' n, v ∈ B n ∨ (n = b ∧ v ∈ D) := fun v hv =>
    mem_pool hsame happ hD hv
  refine ⟨?_, ?_, ?_, ?_, ?_⟩
  · intro hf hr d hd
    rw [Multiset.filter_eq_nil]
    intro r hr'
    exact (hself hf hr d hd r (hsub r hr')).1
  · -- neither side of the self join has a row of the batch
    intro hf hr
    have hleft : ∀ d ∈ D, ∀ r, r ∈ B b ∨ r ∈ B' b → ¬l₁.op.Matches d r ∧ ¬l₁.op.Matches r d := by
      intro d hd r hr'
      refine hself hf hr d hd r ?_
      rcases hr' with h | h
      · exact .inl h
      · exact hsub r h
    have hone : ∀ l, l ∈ B b ∨ l ∈ B' b →
        (B' b).filter (l₁.op.Matches l) = (B b).filter (l₁.op.Matches l) := by
      intro l hl
      refine filter_eq_of_applies happ _ fun c hc => ?_
      obtain ⟨r, hr', rfl⟩ := mem_map.mp hc
      rw [Record.elem_change]
      exact (hleft _ (hD r hr') l hl).2
    have hinner : l₁.op.inner (B' b) (B' b) = l₁.op.inner (B' b) (B b) := by
      refine Multiset.bind_congr fun l hl => ?_
      rw [hone l (.inr hl)]
    rw [hinner, ← JoinOp.bind_rightRows, ← JoinOp.bind_rightRows]
    refine Multiset.bind_congr fun r hr' => ?_
    unfold JoinOp.rightRows
    rw [filter_eq_of_applies happ (fun l => l₁.op.Matches l r) fun c hc => ?_]
    obtain ⟨r₀, hr₀, rfl⟩ := mem_map.mp hc
    rw [Record.elem_change]
    exact (hleft _ (hD r₀ hr₀) r (.inl hr')).1
  · intro hf _
    refine safe_of_noDouble hsame happ hD hrest ?_
    refine Set.subset_union_of_subset_left ?_ _
    exact joinSet_mono (fun d hd => ⟨hf, hd⟩) fun r hr => hsub r hr
  · intro _ hr
    refine safe_of_noDouble hsame happ hD hrest ?_
    refine Set.subset_union_of_subset_right ?_ _
    intro v hv
    exact ⟨hr, joinSet_mono (fun a ha => hsub a ha) (fun _ hd => hd) hv⟩
  · refine quiet_of_noDouble hsame happ hD hrest fun v hv => ?_
    obtain ⟨a, ha, hv⟩ := Multiset.mem_bind.mp hv
    obtain ⟨r, hr, rfl⟩ := Multiset.mem_map.mp hv
    rw [Multiset.mem_filter] at hr
    exact ⟨a, hsub a ha, r, hsub r hr.1, hr.2, rfl⟩

end Quiet

end LocalExecutor

end Noria.Sqlite

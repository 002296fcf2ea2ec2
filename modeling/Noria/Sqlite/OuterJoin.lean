import Noria.Sqlite.InnerJoin

/-! # Outer joins over whole runs

  SQL's joins, in which NULL equals nothing, and which rows of a left or right join are padded. The
  operator pads a left row when it arrives without a match and never looks back: padding is neither
  taken away when a match arrives on the right nor restored when the last one goes, and a right join
  does not pad at all. The join therefore follows SQL in the runs in which padding is never due to
  change (`outer_joins_follow_sql`).
-/

namespace Noria.Sqlite

open Bag List

variable {T : String → Multiset VRow}

/-! ## Joins in SQL -/

namespace JoinOp

/-- Two rows match in SQL: their join columns are equal, and not NULL. -/
def SqlMatches (op : JoinOp) (l r : VRow) : Prop :=
  l.getD op.left_key .null ≠ .null ∧ op.Matches l r

instance (op : JoinOp) (l r : VRow) : Decidable (op.SqlMatches l r) :=
  inferInstanceAs (Decidable (_ ∧ _))

def padRightV (op : JoinOp) (r : VRow) : VRow :=
  op.emit.map fun e => if e.1 then .null else r.getD e.2 .null

/-- What a left row becomes in a left join. -/
def sqlLeftRows (op : JoinOp) (right : Multiset VRow) (l : VRow) : Multiset VRow :=
  if right.filter (op.SqlMatches l) = 0 then {op.padV l}
  else (right.filter (op.SqlMatches l)).map (op.combineV l)

def sqlRightRows (op : JoinOp) (left : Multiset VRow) (r : VRow) : Multiset VRow :=
  if (left.filter fun l => op.SqlMatches l r) = 0 then {op.padRightV r}
  else (left.filter fun l => op.SqlMatches l r).map fun l => op.combineV l r

/-- The join of two tables in SQL. -/
def sqlJoin (op : JoinOp) (left right : Multiset VRow) : Multiset VRow :=
  match op.join_type with
  | .inner => left.bind fun l => (right.filter (op.SqlMatches l)).map (op.combineV l)
  | .left => left.bind (op.sqlLeftRows right)
  | .right => right.bind (op.sqlRightRows left)

/-- At most one of the two tables has rows with NULL in the join column. -/
def NullsApart (op : JoinOp) (left right : Multiset VRow) : Prop :=
  (∀ l ∈ left, l.getD op.left_key .null ≠ .null) ∨
    ∀ r ∈ right, r.getD op.right_key .null ≠ .null

/-- Does the left row have a match? -/
def HasMatch (op : JoinOp) (right : Multiset VRow) (l : VRow) : Prop :=
  ∃ r ∈ right, op.SqlMatches l r

variable {op : JoinOp} {L R R' : Multiset VRow}

/-- Where NULL never meets NULL, the operator's matches are SQL's. -/
theorem NullsApart.matches_iff (h : op.NullsApart L R) {l r : VRow} (hl : l ∈ L) (hr : r ∈ R) :
    op.Matches l r ↔ op.SqlMatches l r := by
  constructor
  · intro hm
    refine ⟨?_, hm⟩
    rcases h with h | h
    · exact h l hl
    · -- the two join columns are equal
      intro hnull
      have hm' : l.getD op.left_key .null = r.getD op.right_key .null := hm
      exact h r hr (hm'.symm.trans hnull)
  · exact fun hm => hm.2

theorem NullsApart.filter_eq (h : op.NullsApart L R) {l : VRow} (hl : l ∈ L) :
    R.filter (op.Matches l) = R.filter (op.SqlMatches l) :=
  Multiset.filter_congr fun _ hr => h.matches_iff hl hr

theorem hasMatch_iff (op : JoinOp) (R : Multiset VRow) (l : VRow) :
    op.HasMatch R l ↔ R.filter (op.SqlMatches l) ≠ 0 := by
  rw [Ne, Multiset.filter_eq_nil]
  constructor
  · rintro ⟨r, hr, hm⟩ hnone
    exact hnone r hr hm
  · intro h
    by_contra hno
    exact h fun r hr hm => hno ⟨r, hr, hm⟩

/-- A left join, as the operator sees it from the left. -/
theorem bind_leftRows_left (hop : op.join_type = .left) (h : op.NullsApart L R) :
    L.bind (op.leftRows R) = op.sqlJoin L R := by
  unfold sqlJoin
  rw [hop]
  refine Multiset.bind_congr fun l hl => ?_
  rw [leftRows, sqlLeftRows, h.filter_eq hl]
  simp only [hop, true_and]

/-- The padded rows of a left join. -/
def paddedRows (op : JoinOp) (left right : Multiset VRow) : Multiset VRow :=
  left.bind fun l => if right.filter (op.SqlMatches l) = 0 then {op.padV l} else 0

/-- A left join, as its matches and its padded rows. -/
theorem sqlJoin_left (hop : op.join_type = .left) (h : op.NullsApart L R) :
    op.sqlJoin L R = op.inner L R + op.paddedRows L R := by
  unfold sqlJoin inner paddedRows
  rw [hop, ← Multiset.bind_add]
  refine Multiset.bind_congr fun l hl => ?_
  rw [sqlLeftRows, h.filter_eq hl]
  by_cases hnone : R.filter (op.SqlMatches l) = 0
  · rw [if_pos hnone, if_pos hnone, hnone, Multiset.map_zero, zero_add]
  · rw [if_neg hnone, if_neg hnone, add_zero]

theorem paddedRows_congr (h : ∀ l ∈ L, op.HasMatch R l ↔ op.HasMatch R' l) :
    op.paddedRows L R = op.paddedRows L R' := by
  refine Multiset.bind_congr fun l hl => ?_
  have hiff : R.filter (op.SqlMatches l) = 0 ↔ R'.filter (op.SqlMatches l) = 0 := by
    have := h l hl
    rw [hasMatch_iff, hasMatch_iff] at this
    exact not_iff_not.mp this
  simp only [hiff]

theorem sqlJoin_inner (hop : op.join_type = .inner) (h : op.NullsApart L R) :
    op.sqlJoin L R = op.inner L R := by
  unfold sqlJoin inner
  rw [hop]
  refine Multiset.bind_congr fun l hl => ?_
  rw [h.filter_eq hl]

/-- A right join in which every right row has a match. -/
theorem sqlJoin_right (hop : op.join_type = .right)
    (h : ∀ r ∈ R, ∃ l ∈ L, op.SqlMatches l r) : op.sqlJoin L R = op.inner L R := by
  have hapart : op.NullsApart L R := by
    refine .inr fun r hr hnull => ?_
    obtain ⟨l, -, hl, hm⟩ := h r hr
    have hm' : l.getD op.left_key .null = r.getD op.right_key .null := hm
    exact hl (hm'.trans hnull)
  unfold sqlJoin
  rw [hop, ← bind_rightRows]
  refine Multiset.bind_congr fun r hr => ?_
  have hsome : (L.filter fun l => op.SqlMatches l r) ≠ 0 := by
    obtain ⟨l, hl, hm⟩ := h r hr
    intro hnone
    exact Multiset.filter_eq_nil.mp hnone l hl hm
  rw [sqlRightRows, if_neg hsome, rightRows]
  rw [Multiset.filter_congr fun l hl => hapart.matches_iff hl hr]

/-- Contents on which the operator and SQL agree: NULL does not meet NULL
    and, in a right join, no right row needs padding. -/
def Settled (op : JoinOp) (left right : Multiset VRow) : Prop :=
  match op.join_type with
  | .right => ∀ r ∈ right, ∃ l ∈ left, op.SqlMatches l r
  | _ => op.NullsApart left right

theorem Settled.eq_leftRows (h : op.Settled L R) : op.sqlJoin L R = L.bind (op.leftRows R) := by
  unfold Settled at h
  cases hop : op.join_type with
  | inner =>
    rw [hop] at h
    rw [sqlJoin_inner hop h, bind_leftRows (by rw [hop]; decide)]
  | left =>
    rw [hop] at h
    exact (bind_leftRows_left hop h).symm
  | right =>
    rw [hop] at h
    rw [sqlJoin_right hop h, bind_leftRows (by rw [hop]; decide)]

/-- SQL's join, as the operator sees it from the right: its matches, and
    the padding, which is the same before and after a batch. -/
theorem Settled.eq_inner (h : op.Settled L R) (h' : op.Settled L R')
    (hpad : op.join_type = .left → ∀ l ∈ L, op.HasMatch R l ↔ op.HasMatch R' l) :
    ∃ P, op.sqlJoin L R = op.inner L R + P ∧ op.sqlJoin L R' = op.inner L R' + P := by
  unfold Settled at h h'
  cases hop : op.join_type with
  | inner =>
    rw [hop] at h h'
    refine ⟨0, ?_, ?_⟩
    · rw [sqlJoin_inner hop h, add_zero]
    · rw [sqlJoin_inner hop h', add_zero]
  | left =>
    rw [hop] at h h'
    refine ⟨op.paddedRows L R, sqlJoin_left hop h, ?_⟩
    rw [sqlJoin_left hop h', paddedRows_congr (hpad hop)]
  | right =>
    rw [hop] at h h'
    refine ⟨0, ?_, ?_⟩
    · rw [sqlJoin_right hop h, add_zero]
    · rw [sqlJoin_right hop h', add_zero]

theorem settled_zero (op : JoinOp) : op.Settled 0 0 := by
  unfold Settled NullsApart
  cases op.join_type <;> simp

end JoinOp

/-! ## Two tables and their join -/

namespace LocalExecutor

/-- Two base tables, `a` and `l.right`, whose only child is their join. -/
structure TwoTables (ex : LocalExecutor) (w : Nat → Nat) (a : Nat) (l : Link) : Prop where
  join : ex.JoinAt w a (w a) l
  apart : l.right ≠ a
  index : ex.HasIndex a l.op.left_key
  keys_left : ex.KeysBelow a (w a)
  keys_right : ex.KeysBelow l.right (w l.right)
  children_left : ex.children a = [l.node]
  children_right : ex.children l.right = [l.node]
  children_join : ex.children l.node = []

theorem TwoTables.sameShape {ex ex' : LocalExecutor} {w : Nat → Nat} {a : Nat} {l : Link}
    (h : SameShape ex ex') (ht : ex.TwoTables w a l) : ex'.TwoTables w a l where
  join := ht.join.sameShape h
  apart := ht.apart
  index := ht.index.sameShape h
  keys_left := ht.keys_left.sameShape h
  keys_right := ht.keys_right.sameShape h
  children_left := by
    rw [h.children_eq]
    exact ht.children_left
  children_right := by
    rw [h.children_eq]
    exact ht.children_right
  children_join := by
    rw [h.children_eq]
    exact ht.children_join

section Propagate

variable {ex : LocalExecutor} {b node wb wj : Nat} {records : Records}
  {M M' J J' : Multiset VRow}

theorem propagate_to_join (hlt : b < node) (hnode : node < ex.nodes.length)
    (hchildren : ex.children b = [node]) (hleaf : ex.children node = [])
    (hkeys : ex.KeysBelow b wb) (hjkeys : ex.KeysBelow node wj) (hM : ex.StateAt b M)
    (hJ : ex.StateAt node J) (hrows : ∀ r ∈ records, r.row.length = wb)
    (happ : Applies M records.changes M') (hnil : records = [] → J' = J)
    (hjoin : ∀ ex₁, SameShape ex ex₁ → ex₁.StateAt b M' →
      (∀ i, i ≠ b → ex₁.nodes[i]? = ex.nodes[i]?) →
      ∃ results, ex₁.processChild b node records = some (ex₁, results) ∧
        Applies J (Records.changes results) J' ∧ ∀ r ∈ results, r.row.length = wj) :
    ∃ ex', ex.propagate ex.nodes.length b records = some ex' ∧ ex'.StateAt b M' ∧
      ex'.StateAt node J' ∧ ∀ i, i ≠ b → i ≠ node → ex'.nodes[i]? = ex.nodes[i]? := by
  obtain ⟨fuel, hfuel⟩ : ∃ k, ex.nodes.length = k + 1 := ⟨ex.nodes.length - 1, by omega⟩
  rw [hfuel]
  unfold propagate
  split
  · rename_i hempty
    rw [List.isEmpty_iff] at hempty
    rw [hempty, Records.changes_nil, Applies.nil_iff] at happ
    rw [hnil hempty, ← happ]
    exact ⟨ex, rfl, hM, hJ, fun _ _ _ => rfl⟩
  · have hblt : b < ex.nodes.length := Nat.lt_trans hlt hnode
    obtain ⟨ex₁, hup, hst₁, nd, nd₁, hn, -, -, -, -⟩ := updateState_bag hblt hM
      (fun nd st hn hst r hr k hk => by
        rw [hrows r hr]
        exact hkeys nd st hn hst k hk) happ
    obtain ⟨hs₁, hf₁⟩ := updateState_frame hup
    obtain ⟨results, hproc, happ', hwidth⟩ := hjoin ex₁ hs₁ hst₁ hf₁
    have hnode₁ : node < ex₁.nodes.length := by
      rw [hs₁.length_eq]
      exact hnode
    have hfuel₁ : ex₁.nodes.length ≤ node + fuel := by
      rw [hs₁.length_eq]
      omega
    obtain ⟨ex₂, hprop, hst₂, hf₂⟩ := propagate_leaf hnode₁ hfuel₁ (hjkeys.sameShape hs₁)
      (by rw [hs₁.children_eq]; exact hleaf) (hJ.congr (hf₁ node (Nat.ne_of_gt hlt))) hwidth happ'
    have hchi : nd.children = [node] := by
      rwa [children, hn] at hchildren
    refine ⟨ex₂, ?_, hst₁.congr (hf₂ b (Nat.ne_of_lt hlt)), hst₂, fun i hib hin =>
      (hf₂ i hin).trans (hf₁ i hib)⟩
    simp [hn, hup, hchi, hproc, hprop]

end Propagate

section Batch

variable {ex : LocalExecutor} {w : Nat → Nat} {a : Nat} {l : Link} {records : Records}
  {L L' R R' P : Multiset VRow}

theorem TwoTables.propagate_left (h : ex.TwoTables w a l) (hL : ex.StateAt a L)
    (hR : ex.StateAt l.right R) (hJ : ex.StateAt l.node (L.bind (l.op.leftRows R) + P))
    (hwR : ∀ v ∈ R, v.length = w l.right) (hrows : ∀ r ∈ records, r.row.length = w a)
    (happ : Applies L records.changes L') :
    ∃ ex', ex.propagate ex.nodes.length a records = some ex' ∧ ex'.StateAt a L' ∧
      ex'.StateAt l.right R ∧ ex'.StateAt l.node (L'.bind (l.op.leftRows R) + P) := by
  obtain ⟨nd, hn, -⟩ := h.join.node
  have hnil : records = [] → L'.bind (l.op.leftRows R) + P = L.bind (l.op.leftRows R) + P := by
    rintro rfl
    rw [Records.changes_nil, Applies.nil_iff] at happ
    rw [happ]
  obtain ⟨ex', hprop, hL', hJ', hf⟩ := propagate_to_join h.join.gt
    (List.getElem?_eq_some_iff.mp hn).1 h.children_left h.children_join h.keys_left h.join.keys hL
    hJ hrows happ hnil (fun ex₁ hs₁ _ hf₁ => by
      obtain ⟨results, hproc, happ', hmem⟩ := processChild_leftRows (h.join.sameShape hs₁)
        (hR.congr (hf₁ _ h.apart)) hwR hrows (fun _ _ => rfl) happ
      refine ⟨results, hproc, happ'.add_right P, fun r hr => ?_⟩
      obtain ⟨r₀, -, hv⟩ := hmem r hr
      rw [← Row.length_val]
      exact JoinOp.length_of_mem_leftRows hv)
  exact ⟨ex', hprop, hL', hR.congr (hf _ h.apart (Nat.ne_of_lt h.join.right_lt)), hJ'⟩

theorem TwoTables.propagate_right (h : ex.TwoTables w a l) (hL : ex.StateAt a L)
    (hR : ex.StateAt l.right R) (hJ : ex.StateAt l.node (l.op.inner L R + P))
    (hwL : ∀ v ∈ L, v.length = w a) (hrows : ∀ r ∈ records, r.row.length = w l.right)
    (happ : Applies R records.changes R') :
    ∃ ex', ex.propagate ex.nodes.length l.right records = some ex' ∧ ex'.StateAt a L ∧
      ex'.StateAt l.right R' ∧ ex'.StateAt l.node (l.op.inner L R' + P) := by
  obtain ⟨nd, hn, -⟩ := h.join.node
  have hnil : records = [] → l.op.inner L R' + P = l.op.inner L R + P := by
    rintro rfl
    rw [Records.changes_nil, Applies.nil_iff] at happ
    rw [happ]
  obtain ⟨ex', hprop, hR', hJ', hf⟩ := propagate_to_join h.join.right_lt
    (List.getElem?_eq_some_iff.mp hn).1 h.children_right h.children_join h.keys_right h.join.keys
    hR hJ hrows happ hnil (fun ex₁ hs₁ _ hf₁ => by
      obtain ⟨results, hproc, happ', hmem⟩ := processChild_right (h.join.sameShape hs₁) h.apart
        (h.index.sameShape hs₁) (hL.congr (hf₁ _ (Ne.symm h.apart))) hwL
        (fun r hr => ⟨hrows r hr, Set.mem_univ _⟩) happ
      exact ⟨results, hproc, happ'.add_right P, fun r hr => (hmem r hr).1⟩)
  exact ⟨ex', hprop, hL.congr (hf _ (Ne.symm h.apart) (Nat.ne_of_lt h.join.gt)), hR', hJ'⟩

end Batch

/-! ## Runs -/

/-- A batch that no padding depends on: the tables stay settled and, in a left join, every left row
    that has a match keeps one and no other gets one. -/
def OuterBatch (op : JoinOp) (a b : String) (T : String → Multiset VRow) (t : String)
    (records : Records) : Prop :=
  ∀ M, Applies (T t) records.changes M →
    op.Settled (Function.update T t M a) (Function.update T t M b) ∧
      (op.join_type = .left → ∀ l ∈ T a,
        op.HasMatch (T b) l ↔ op.HasMatch (Function.update T t M b) l)

section Run

variable {conv : SqlConverter} {a b : String} {op : JoinOp} {keys : List Nat} {node first : Nat}
  {l : Link} {ex₀ : LocalExecutor}

theorem twoTables_of_built (hdiff : b ≠ a)
    (hb : BuiltJoins conv ⟨a, [⟨b, op⟩]⟩ keys node ex₀ first [l]) :
    ex₀.TwoTables (ex₀.baseWidth conv) first l ∧ l.op = op ∧
      ex₀.base_tables.get? b = some l.right := by
  obtain ⟨⟨hop, hget⟩, -⟩ := forall₂_cons.mp hb.joins
  have hidx : Indexed a [(b, op)] := by
    refine indexed_of_nodup ?_
    simp [Ne.symm hdiff]
  have hapart : l.right ≠ first := fun heq =>
    hdiff ((table_iff_node hb.named hget hb.first_table).mpr heq)
  have hfirst : first ∈ bases first [l] := mem_cons_self
  have hright : l.right ∈ bases first [l] := right_mem_bases mem_cons_self
  refine ⟨⟨?_, hapart, hb.hasIndex_first hidx hapart, hb.keysBelow hfirst, hb.keysBelow hright,
    ?_, ?_, ?_⟩, hop, hget⟩
  · exact hb.joinAt (fun l' hl' => absurd hl' not_mem_nil) hidx
  · rw [hb.children_base hfirst]
    simp [edgesTo, hapart]
  · rw [hb.children_base hright]
    simp [edgesTo, Ne.symm hapart]
  · exact (hb.linked_rest (fun l' hl' => absurd hl' not_mem_nil) hidx).1

/-- The two tables and the join in the middle of a run. -/
structure OuterJoining (ex₀ : LocalExecutor) (a b : String) (first : Nat) (l : Link)
    (ex : LocalExecutor) (T : String → Multiset VRow) : Prop where
  shape : SameShape ex₀ ex
  left : ex.StateAt first (T a)
  right : ex.StateAt l.right (T b)
  join : ex.StateAt l.node (l.op.sqlJoin (T a) (T b))
  settled : l.op.Settled (T a) (T b)

theorem OuterJoining.of_eq {ex : LocalExecutor} {L R : Multiset VRow} (ha : T a = L) (hb : T b = R)
    (hshape : SameShape ex₀ ex) (hleft : ex.StateAt first L) (hright : ex.StateAt l.right R)
    (hjoin : ex.StateAt l.node (l.op.sqlJoin L R)) (hsettled : l.op.Settled L R) :
    OuterJoining ex₀ a b first l ex T := by
  subst ha hb
  exact ⟨hshape, hleft, hright, hjoin, hsettled⟩

theorem apply_write_outer (hdiff : b ≠ a)
    (hb : BuiltJoins conv ⟨a, [⟨b, op⟩]⟩ keys node ex₀ first [l]) {ex : LocalExecutor}
    (hJ : OuterJoining ex₀ a b first l ex T) (hT : ∀ s, ∀ v ∈ T s, v.length = conv.width s)
    {t : String} {records : Records} {M : Multiset VRow}
    (hwidth : ∀ r ∈ records, r.row.length = conv.width t) (happ : Applies (T t) records.changes M)
    (hbatch : OuterBatch op a b T t records) :
    ∃ ex', ex.apply_write t records = some ex' ∧
      OuterJoining ex₀ a b first l ex' (Function.update T t M) := by
  obtain ⟨htwo₀, rfl, hget⟩ := twoTables_of_built hdiff hb
  have htwo := htwo₀.sameShape hJ.shape
  have hwa := baseWidth_of_table hb.named hb.first_table
  have hwb := baseWidth_of_table hb.named hget
  obtain ⟨hsettled, hpad⟩ := hbatch M happ
  unfold apply_write
  rw [hJ.shape.tables]
  by_cases hta : t = a
  · -- the left table: the join's rows are those of its left rows
    subst hta
    have hself : Function.update T t M t = M := Function.update_self ..
    have hother : Function.update T t M b = T b := Function.update_of_ne hdiff ..
    rw [hself, hother] at hsettled
    have hjoin := hJ.join
    rw [hJ.settled.eq_leftRows, ← add_zero (Multiset.bind _ _)] at hjoin
    obtain ⟨ex', hprop, hl, hr, hj⟩ := htwo.propagate_left hJ.left hJ.right hjoin
      (fun v hv => (hT b v hv).trans hwb.symm) (fun r hr => (hwidth r hr).trans hwa.symm) happ
    rw [add_zero, ← hsettled.eq_leftRows] at hj
    rw [hb.first_table]
    exact ⟨ex', hprop, .of_eq hself hother (hJ.shape.trans (propagate_frame hprop).1) hl hr hj
      hsettled⟩
  · have hsame : Function.update T t M a = T a := Function.update_of_ne (Ne.symm hta) ..
    rw [hsame] at hsettled
    by_cases htb : t = b
    · -- the right table: the matches change, the padding does not
      subst htb
      have hself : Function.update T t M t = M := Function.update_self ..
      rw [hself] at hsettled hpad
      obtain ⟨P, hP, hP'⟩ := hJ.settled.eq_inner hsettled hpad
      have hjoin := hJ.join
      rw [hP] at hjoin
      obtain ⟨ex', hprop, hl, hr, hj⟩ := htwo.propagate_right hJ.left hJ.right hjoin
        (fun v hv => (hT a v hv).trans hwa.symm) (fun r hr => (hwidth r hr).trans hwb.symm) happ
      rw [← hP'] at hj
      rw [hget]
      exact ⟨ex', hprop, .of_eq hsame hself (hJ.shape.trans (propagate_frame hprop).1) hl hr hj
        hsettled⟩
    · -- a table that the query does not mention has no node
      have hnone : ex₀.base_tables.get? t = none := by
        cases hget' : ex₀.base_tables.get? t with
        | none => rfl
        | some n =>
          rcases hb.known t n hget' with rfl | ⟨s, hs, rfl⟩
          · exact absurd rfl hta
          · rw [mem_singleton.mp hs] at htb
            exact absurd rfl htb
      rw [hnone]
      exact ⟨ex, rfl, .of_eq hsame (Function.update_of_ne (Ne.symm htb) ..) hJ.shape hJ.left
        hJ.right hJ.join hJ.settled⟩

theorem apply_writes_outer (hdiff : b ≠ a)
    (hb : BuiltJoins conv ⟨a, [⟨b, op⟩]⟩ keys node ex₀ first [l]) {T' : String → Multiset VRow}
    {ws : List (String × Records)} (hw : TableWrites conv (OuterBatch op a b) T ws T')
    {ex : LocalExecutor} (hJ : OuterJoining ex₀ a b first l ex T)
    (hT : ∀ s, ∀ v ∈ T s, v.length = conv.width s) :
    ∃ ex', ex.apply_writes ws = some ex' ∧ OuterJoining ex₀ a b first l ex' T' := by
  induction hw generalizing ex with
  | nil T => exact ⟨ex, rfl, hJ⟩
  | batch hwidth happ hbatch _ ih =>
    obtain ⟨ex₁, hex₁, hJ₁⟩ := apply_write_outer hdiff hb hJ hT hwidth happ hbatch
    obtain ⟨ex', hex', hJ'⟩ := ih hJ₁ (width_update hT hwidth happ)
    refine ⟨ex', ?_, hJ'⟩
    simp only [apply_writes, foldlM_cons, hex₁, Option.bind_eq_bind, Option.bind_some]
    exact hex'

end Run

/-- A left or right join of two different tables has SQL's join of them
    after every sequence of exact batches on which no padding depends. -/
theorem outer_joins_follow_sql {conv : SqlConverter} {from_clause : FromClause}
    {keys : List Nat} {node : Nat} {ex : LocalExecutor} {a b : String} {op : JoinOp}
    (hcols : conv.HasColumns) (hview : JoinView conv from_clause keys node ex)
    (hq : conv.joinQuery from_clause = some ⟨a, [⟨b, op⟩]⟩) (hdiff : b ≠ a)
    {ws : List (String × Records)} {T : String → Multiset VRow}
    (hw : TableWrites conv (OuterBatch op a b) (fun _ => 0) ws T) :
    ∃ ex' nd st, ex.apply_writes ws = some ex' ∧ ex'.nodes[node]? = some nd ∧
      nd.state = some st ∧ st.key_columns = keys ∧ st.Ok ∧ st.bag = op.sqlJoin (T a) (T b) := by
  obtain ⟨first, links, hb⟩ := joins_of_view hcols hview hq
  obtain ⟨l, rest, rfl⟩ := hb.exists_cons (by simp)
  have hrest : rest = [] := by
    have := hb.joins.length_eq
    simpa using this
  subst hrest
  obtain ⟨-, rfl, -⟩ := twoTables_of_built hdiff hb
  have hzero : l.op.sqlJoin 0 0 = 0 := by
    rw [(JoinOp.settled_zero l.op).eq_leftRows]
    rfl
  obtain ⟨ex', hex', hJ⟩ := apply_writes_outer hdiff hb hw
    ⟨.refl ex, hb.empty _, hb.empty _, by rw [hzero]; exact hb.empty _, JoinOp.settled_zero _⟩
    (fun _ _ hv => absurd hv (Multiset.notMem_zero _))
  obtain ⟨nd, st, hn, hst, hkeys⟩ := hb.view_state hJ.shape
  have hlast : node = l.node := hb.last
  rw [hlast] at hn ⊢
  obtain ⟨hok, hbag⟩ := hJ.join nd st hn hst
  exact ⟨ex', nd, st, hex', hn, hst, hkeys, hok, hbag⟩

/-! ### A table of keys and one of values -/

/-- Tables `a(k)` and `b(k, v)`. -/
def keysAndValues : SqlConverter := ⟨[⟨"a", ["k"]⟩, ⟨"b", ["k", "v"]⟩]⟩

/-- `FROM a LEFT JOIN b ON a.k = b.k`, and the same as a right join. -/
def outerJoined (flags : JoinFlags) : FromClause :=
  ⟨some (.table "a" none),
    some [⟨.typedJoin (some flags), .table "b" none,
      some (.onExpr (.binary (.qualified "a" "k") .equals (.qualified "b" "k")))⟩]⟩

def outerOp (flags : JoinFlags) : JoinOp :=
  SqlConverter.joinOpFor (.typedJoin (some flags)) 0 0 1 2

/-- A left row is padded on arrival and stays padded when its match
    arrives; a right row without a match is not there at all. -/
theorem outerJoined_padding_wrong :
    (∃ T ex' nd st,
      JoinView keysAndValues (outerJoined ⟨true, false⟩) [0] 2
        (joinExecutor keysAndValues (outerJoined ⟨true, false⟩) [0]) ∧
      TableWrites keysAndValues (fun _ _ _ => True) (fun _ => 0)
        [("a", [.positive [.int 1]]), ("b", [.positive [.int 1, .int 5]])] T ∧
      (joinExecutor keysAndValues (outerJoined ⟨true, false⟩) [0]).apply_writes
        [("a", [.positive [.int 1]]), ("b", [.positive [.int 1, .int 5]])] = some ex' ∧
      ex'.nodes[2]? = some nd ∧ nd.state = some st ∧
      st.bag = {[.int 1, .null], [.int 1, .int 5]} ∧
      (outerOp ⟨true, false⟩).sqlJoin (T "a") (T "b") = {[.int 1, .int 5]}) ∧
    ∃ T ex' nd st,
      JoinView keysAndValues (outerJoined ⟨false, true⟩) [0] 2
        (joinExecutor keysAndValues (outerJoined ⟨false, true⟩) [0]) ∧
      TableWrites keysAndValues (fun _ _ _ => True) (fun _ => 0)
        [("b", [.positive [.int 1, .int 5]])] T ∧
      (joinExecutor keysAndValues (outerJoined ⟨false, true⟩) [0]).apply_writes
        [("b", [.positive [.int 1, .int 5]])] = some ex' ∧
      ex'.nodes[2]? = some nd ∧ nd.state = some st ∧ st.bag = 0 ∧
      (outerOp ⟨false, true⟩).sqlJoin (T "a") (T "b") = {[.null, .int 5]} := by
  refine ⟨⟨_, _, _, _, ⟨["k", "v"], _, ⟨2, [0]⟩, rfl, by decide, rfl⟩,
    .batch (by decide) (.ins (.nil _)) trivial
      (.batch (by decide) (.ins (.nil _)) trivial (.nil _)), rfl, rfl, rfl, rfl, rfl⟩, ⟨_, _, _, _, ⟨["k", "v"], _, ⟨2, [0]⟩, rfl, by decide, rfl⟩,
    .batch (by decide) (.ins (.nil _)) trivial (.nil _), rfl, rfl, rfl, rfl, rfl⟩⟩

/-- Values first, then keys with and without one, then another value for a
    key that has one already. -/
def outerWrites : List (String × Records) :=
  [("b", [.positive [.int 1, .int 5]]), ("a", [.positive [.int 1], .positive [.int 2]]),
    ("b", [.positive [.int 1, .int 6]])]

theorem outerJoined_followed :
    ∃ (T : String → Multiset VRow) (ex' : LocalExecutor) (nd : Node) (st : MemoryState),
      (joinExecutor keysAndValues (outerJoined ⟨true, false⟩) [0]).apply_writes outerWrites
        = some ex' ∧
      ex'.nodes[2]? = some nd ∧ nd.state = some st ∧
      st.bag = (outerOp ⟨true, false⟩).sqlJoin (T "a") (T "b") ∧
      (outerOp ⟨true, false⟩).sqlJoin (T "a") (T "b")
        = {[.int 2, .null], [.int 1, .int 6], [.int 1, .int 5]} := by
  have hbatch₁ : OuterBatch (outerOp ⟨true, false⟩) "a" "b" (fun _ => 0) "b"
      [.positive [.int 1, .int 5]] := by
    intro M hM
    simp [JoinOp.Settled, JoinOp.NullsApart, outerOp, SqlConverter.joinOpFor,
      SqlConverter.joinTypeOf]
  have hbatch₂ : OuterBatch (outerOp ⟨true, false⟩) "a" "b"
      (Function.update (fun _ => 0) "b" {[.int 1, .int 5]}) "a"
      [.positive [.int 1], .positive [.int 2]] := by
    intro M hM
    simp [JoinOp.Settled, JoinOp.NullsApart, outerOp, SqlConverter.joinOpFor,
      SqlConverter.joinTypeOf]
  have hbatch₃ : OuterBatch (outerOp ⟨true, false⟩) "a" "b"
      (Function.update (Function.update (fun _ => 0) "b" {[.int 1, .int 5]}) "a"
        {[.int 2], [.int 1]}) "b" [.positive [.int 1, .int 6]] := by
    intro M hM
    obtain rfl : M = {[.int 1, .int 6], [.int 1, .int 5]} := hM.unique (.ins (.nil _))
    simp [JoinOp.Settled, JoinOp.NullsApart, JoinOp.HasMatch, JoinOp.SqlMatches, JoinOp.Matches,
      outerOp, SqlConverter.joinOpFor, SqlConverter.joinTypeOf]
  have hw : TableWrites keysAndValues (OuterBatch (outerOp ⟨true, false⟩) "a" "b") (fun _ => 0)
      outerWrites _ :=
    .batch (by decide) (.ins (.nil _)) hbatch₁ (.batch (by decide) (.ins (.ins (.nil _))) hbatch₂
      (.batch (by decide) (.ins (.nil _)) hbatch₃ (.nil _)))
  have hview : JoinView keysAndValues (outerJoined ⟨true, false⟩) [0] 2
      (joinExecutor keysAndValues (outerJoined ⟨true, false⟩) [0]) :=
    ⟨["k", "v"], _, ⟨2, [0]⟩, rfl, by decide, rfl⟩
  obtain ⟨ex', nd, st, hex', hn, hst, -, -, hbag⟩ := outer_joins_follow_sql
    (by unfold SqlConverter.HasColumns; decide) hview rfl (by decide) hw
  exact ⟨_, ex', nd, st, hex', hn, hst, hbag, rfl⟩

end LocalExecutor

end Noria.Sqlite

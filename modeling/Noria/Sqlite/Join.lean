import Noria.Sqlite.Delta

/-! # Delta laws of the join

  One batch from one side of a join, against the state of the other side. The other side's state is
  read as it is when the batch arrives, so the laws keep that side fixed: `processRecord_left` for
  left rows, `processRecord_right` for right rows. Both hold of every join type; what a type makes
  of the two sides together is said elsewhere.
-/

namespace Noria.Sqlite

open Bag List

variable {l : Row} {record : Record} {st : MemoryState} {records : Records} {L R : Multiset VRow}
  {v : VRow}

/-! ## Rows of one record -/

theorem Record.expands_iff (r : Record) (f : VRow → Multiset VRow) (cs : List (Change VRow)) :
    r.change.Expands f cs ↔
      ∃ l : List VRow, (l : Multiset VRow) = f (Row.val r.row) ∧ cs = l.map r.signed := by
  cases r <;> rfl

namespace JoinOp

/-- The columns a join reads exist in rows of the given widths. -/
structure Reads (op : JoinOp) (wl wr : Nat) : Prop where
  left : op.left_key < wl
  right : op.right_key < wr
  emit : ∀ e ∈ op.emit, e.2 < if e.1 then wl else wr

variable {op : JoinOp} {wl wr : Nat}

theorem combine_eq (h : op.Reads wl wr) {r : Row} (hl : l.length = wl) (hr : r.length = wr) :
    ∃ row, op.combine l r = some row ∧ Row.val row = op.combineV (Row.val l) (Row.val r) := by
  refine Row.mapM_val fun e he => ?_
  have hlt := h.emit e he
  cases hb : e.1 with
  | true =>
    rw [hb, if_pos rfl, ← hl] at hlt
    simpa using Row.getElem?_val _ hlt
  | false =>
    rw [hb, if_neg (by simp), ← hr] at hlt
    simpa using Row.getElem?_val _ hlt

theorem pad_eq (h : op.Reads wl wr) (hl : l.length = wl) :
    ∃ row, op.pad l = some row ∧ Row.val row = op.padV (Row.val l) := by
  refine Row.mapM_val fun e he => ?_
  have hlt := h.emit e he
  cases hb : e.1 with
  | true =>
    rw [hb, if_pos rfl, ← hl] at hlt
    simpa using Row.getElem?_val _ hlt
  | false => exact ⟨DataType.none, by simp, rfl⟩

/-- What a left row joins to: its matches or, without one in a left join, the padded row. -/
def leftRows (op : JoinOp) (right : Multiset VRow) (l : VRow) : Multiset VRow :=
  if op.join_type = .left ∧ right.filter (op.Matches l) = 0 then {op.padV l}
  else (right.filter (op.Matches l)).map (op.combineV l)

/-- What a right row joins to: its matches. -/
def rightRows (op : JoinOp) (left : Multiset VRow) (r : VRow) : Multiset VRow :=
  (left.filter fun l => op.Matches l r).map fun l => op.combineV l r

theorem val_mem_bag_of_bucket (hok : st.Ok) {k : StateKey} {row : Row} (h : row ∈ st.bucket k) :
    Row.val row ∈ st.bag := by
  have : Row.val row ∈ (((st.bucket k).map Row.val : List VRow) : Multiset VRow) :=
    Multiset.mem_coe.mpr (mem_map_of_mem h)
  rw [MemoryState.bucket_eq_filter hok] at this
  exact Multiset.mem_of_mem_filter this

/-- The three answers of a lookup, by the bucket of the key. -/
theorem lookup_snapshot (st : MemoryState) (key : List DataType) :
    (∃ rows, st.snapshot.lookup key = .some rows ∧ rows ≠ [] ∧
      st.bucket (StateKey.from_slice key) = rows) ∨
    ((st.snapshot.lookup key = .empty ∨ st.snapshot.lookup key = .missing) ∧
      st.bucket (StateKey.from_slice key) = []) := by
  unfold StateSnapshot.lookup lookupIn MemoryState.bucket MemoryState.snapshot
  rcases st.data.get? (StateKey.from_slice key) with _ | _ | ⟨row, rows⟩
  · exact .inr ⟨.inr rfl, rfl⟩
  · exact .inr ⟨.inl rfl, rfl⟩
  · exact .inl ⟨row :: rows, rfl, by simp, rfl⟩

theorem bucket_single (hok : st.Ok) {c : Nat} (hkeys : st.key_columns = [c]) (d : DataType) :
    ((st.bucket (StateKey.from_slice [d])).map Row.val : Multiset VRow)
      = st.bag.filter fun v => v.getD c .null = d.val := by
  rw [MemoryState.bucket_eq_filter hok, hkeys]
  refine Multiset.filter_congr fun v _ => ?_
  show [v.getD c .null] = [d.val] ↔ _
  rw [List.cons.injEq, and_iff_left rfl]

theorem mapM_withRow (record : Record) {rows : List Row} {f : Row → Option Row} {g : VRow → VRow}
    (h : ∀ r ∈ rows, ∃ row, f r = some row ∧ Row.val row = g (Row.val r)) :
    ∃ out : Records, (rows.mapM fun r => (f r).map record.withRow) = some out ∧
      out.changes = ((rows.map Row.val).map g).map record.signed := by
  induction rows with
  | nil => exact ⟨[], rfl, rfl⟩
  | cons r rs ih =>
    obtain ⟨row, hrow, hval⟩ := h r mem_cons_self
    obtain ⟨out, hout, hch⟩ := ih (forall_mem_cons.mp h).2
    refine ⟨record.withRow row :: out, ?_, ?_⟩
    · simp [mapM_cons, hrow, hout]
    · rw [Records.changes_cons, hch, Record.change_withRow_signed, hval]
      rfl

theorem processRecord_left (h : op.Reads wl wr) (hok : st.Ok)
    (hkeys : st.key_columns = [op.right_key]) (hwr : ∀ v ∈ st.bag, v.length = wr)
    (hrow : record.row.length = wl) :
    ∃ out look, op.processRecord 0 st.snapshot record = some (out, look) ∧
      record.change.Expands (op.leftRows st.bag) (Records.changes out) := by
  obtain ⟨d, hd, hval⟩ := Row.getElem?_val record.row (by rw [hrow]; exact h.left)
  have hbucket := bucket_single hok hkeys d
  have hmatch : (st.bag.filter fun v => v.getD op.right_key .null = d.val)
      = st.bag.filter (op.Matches (Row.val record.row)) := by
    refine Multiset.filter_congr fun v _ => ?_
    rw [Matches, hval]
    exact eq_comm
  rw [hmatch] at hbucket
  simp only [Record.expands_iff]
  rcases lookup_snapshot st [d] with ⟨rows, hlook, hne, hrows⟩ | ⟨hlook, hnil⟩
  · rw [hrows] at hbucket
    have hcomb : ∀ r ∈ rows, ∃ row, op.combine record.row r = some row ∧
        Row.val row = op.combineV (Row.val record.row) (Row.val r) := by
      intro r hr
      refine combine_eq h hrow ?_
      rw [← Row.length_val]
      exact hwr _ (val_mem_bag_of_bucket hok (by rw [hrows]; exact hr))
    obtain ⟨out, hout, hch⟩ := mapM_withRow record hcomb
    refine ⟨out, [], ?_, (rows.map Row.val).map (op.combineV (Row.val record.row)), ?_, hch⟩
    · simp [processRecord, hd, hlook, hout]
    · have hsome : ¬(op.join_type = .left ∧
          st.bag.filter (op.Matches (Row.val record.row)) = 0) := by
        rintro ⟨-, hzero⟩
        rw [hzero, Multiset.coe_eq_zero] at hbucket
        exact hne (map_eq_nil_iff.mp hbucket)
      rw [leftRows, if_neg hsome, ← hbucket]
      rfl
  · rw [hnil] at hbucket
    have hzero : st.bag.filter (op.Matches (Row.val record.row)) = 0 := hbucket.symm
    unfold leftRows
    by_cases hleft : op.join_type = .left
    · obtain ⟨row, hpad, hpadv⟩ := pad_eq h hrow
      have hcs : Records.changes [record.withRow row]
          = [op.padV (Row.val record.row)].map record.signed := by
        rw [← hpadv, map_singleton, ← Record.change_withRow_signed]
        rfl
      rcases hlook with hlook | hlook
      · exact ⟨_, [], by simp [processRecord, hd, hlook, hleft, hpad], _,
          by rw [if_pos ⟨hleft, hzero⟩]; rfl, hcs⟩
      · exact ⟨_, [[d]], by simp [processRecord, hd, hlook, hleft, hpad], _,
          by rw [if_pos ⟨hleft, hzero⟩]; rfl, hcs⟩
    · rcases hlook with hlook | hlook
      · exact ⟨[], [], by simp [processRecord, hd, hlook, hleft], [],
          by rw [if_neg (fun hc => hleft hc.1), hzero]; rfl, rfl⟩
      · exact ⟨[], [[d]], by simp [processRecord, hd, hlook, hleft], [],
          by rw [if_neg (fun hc => hleft hc.1), hzero]; rfl, rfl⟩

theorem processRecord_right (h : op.Reads wl wr) (hok : st.Ok)
    (hkeys : st.key_columns = [op.left_key]) (hwl : ∀ v ∈ st.bag, v.length = wl)
    (hrow : record.row.length = wr) :
    ∃ out look, op.processRecord 1 st.snapshot record = some (out, look) ∧
      record.change.Expands (op.rightRows st.bag) (Records.changes out) := by
  obtain ⟨d, hd, hval⟩ := Row.getElem?_val record.row (by rw [hrow]; exact h.right)
  have hbucket := bucket_single hok hkeys d
  have hmatch : (st.bag.filter fun v => v.getD op.left_key .null = d.val)
      = st.bag.filter fun l => op.Matches l (Row.val record.row) := by
    refine Multiset.filter_congr fun v _ => ?_
    rw [Matches, hval]
  rw [hmatch] at hbucket
  simp only [Record.expands_iff]
  rcases lookup_snapshot st [d] with ⟨rows, hlook, -, hrows⟩ | ⟨hlook, hnil⟩
  · rw [hrows] at hbucket
    have hcomb : ∀ r ∈ rows, ∃ row, op.combine r record.row = some row ∧
        Row.val row = op.combineV (Row.val r) (Row.val record.row) := by
      intro r hr
      refine combine_eq h ?_ hrow
      rw [← Row.length_val]
      exact hwl _ (val_mem_bag_of_bucket hok (by rw [hrows]; exact hr))
    obtain ⟨out, hout, hch⟩ := mapM_withRow (f := fun r => op.combine r record.row)
      (g := fun l => op.combineV l (Row.val record.row)) record hcomb
    refine ⟨out, [], ?_, _, ?_, hch⟩
    · simp [processRecord, hd, hlook, hout]
    · rw [rightRows, ← hbucket]
      rfl
  · rw [hnil] at hbucket
    have hnone : ([] : List VRow) = op.rightRows st.bag (Row.val record.row) := by
      rw [rightRows, ← hbucket]
      rfl
    rcases hlook with hlook | hlook
    · exact ⟨[], [], by simp [processRecord, hd, hlook], [], hnone, rfl⟩
    · exact ⟨[], [[d]], by simp [processRecord, hd, hlook], [], hnone, rfl⟩

/-! ## Batches -/

/-- The loop over a batch, when every record's rows are known. -/
theorem process_of_expands {side : Nat} {s : StateSnapshot} {f : VRow → Multiset VRow}
    (h : ∀ r ∈ records, ∃ out look, op.processRecord side s r = some (out, look) ∧
      r.change.Expands f (Records.changes out)) {M M' : Multiset VRow}
    (happ : Applies M records.changes M') :
    ∃ results look, op.process side records (some s) = some ⟨results, look⟩ ∧
      Applies (M.bind f) (Records.changes results) (M'.bind f) ∧
      ∀ r ∈ results, ∃ r₀ ∈ records, Row.val r.row ∈ f (Row.val r₀.row) := by
  have hmap : ∃ outs, records.mapM (op.processRecord side s) = some outs ∧
      List.Forall₂ (Change.Expands f) records.changes (outs.map fun o => Records.changes o.1) := by
    clear happ
    induction records with
    | nil => exact ⟨[], rfl, .nil⟩
    | cons r rs ih =>
      obtain ⟨out, look, hout, hexp⟩ := h r mem_cons_self
      obtain ⟨outs, houts, hexps⟩ := ih (forall_mem_cons.mp h).2
      exact ⟨(out, look) :: outs, by simp [mapM_cons, hout, houts], .cons hexp hexps⟩
  obtain ⟨outs, houts, hexps⟩ := hmap
  have hch : Records.changes (outs.map Prod.fst).flatten
      = (outs.map fun o => Records.changes o.1).flatten := by
    rw [Records.changes, map_flatten, map_map]
    rfl
  refine ⟨(outs.map Prod.fst).flatten, (outs.map Prod.snd).flatten, ?_, ?_, ?_⟩
  · simp [process, houts]
  · rw [hch]
    exact happ.bind hexps
  · intro r hr
    have hmem : r.change ∈ (outs.map fun o => Records.changes o.1).flatten := by
      rw [← hch]
      exact mem_map_of_mem hr
    obtain ⟨c, hc, hin⟩ := Change.mem_of_expands hexps hmem
    obtain ⟨r₀, hr₀, rfl⟩ := mem_map.mp hc
    rw [Record.elem_change, Record.elem_change] at hin
    exact ⟨r₀, hr₀, hin⟩

theorem length_of_mem_leftRows {l : VRow} (h : v ∈ op.leftRows R l) :
    v.length = op.emit.length := by
  rw [leftRows] at h
  split at h
  · rw [Multiset.mem_singleton.mp h, padV, length_map]
  · obtain ⟨w, -, hw⟩ := Multiset.mem_map.mp h
    rw [← hw, combineV, length_map]

theorem length_of_mem_rightRows {r : VRow} (h : v ∈ op.rightRows L r) :
    v.length = op.emit.length := by
  obtain ⟨w, -, hw⟩ := Multiset.mem_map.mp h
  rw [← hw, combineV, length_map]

/-! ## Inner joins -/

theorem bind_leftRows (hinner : op.join_type ≠ .left) (L R : Multiset VRow) :
    L.bind (op.leftRows R) = op.inner L R := by
  refine Multiset.bind_congr fun l _ => ?_
  rw [leftRows, if_neg fun hc => hinner hc.1]

theorem inner_eq_bind (op : JoinOp) (L R : Multiset VRow) :
    op.inner L R = L.bind fun l => R.bind fun r =>
      if op.Matches l r then {op.combineV l r} else 0 :=
  Multiset.bind_congr fun l _ => map_filter_eq_bind R (op.Matches l) (op.combineV l)

theorem bind_rightRows (op : JoinOp) (L R : Multiset VRow) :
    R.bind (op.rightRows L) = op.inner L R := by
  rw [inner_eq_bind, Multiset.bind_bind]
  exact Multiset.bind_congr fun r _ =>
    map_filter_eq_bind L (fun l => op.Matches l r) fun l => op.combineV l r

theorem length_of_mem_inner (h : v ∈ op.inner L R) : v.length = op.emit.length := by
  obtain ⟨l, -, hv⟩ := Multiset.mem_bind.mp h
  obtain ⟨r, -, rfl⟩ := Multiset.mem_map.mp hv
  rw [combineV, length_map]

end JoinOp

end Noria.Sqlite

import Noria.Server.Grouped

/-! # MIN and MAX

  `ExtremumOperator` is the inner operation of a grouped operator for MIN and MAX
  (`dataflow/src/ops/grouped/extremum.rs`). It knows nothing of a group but the value that is shown
  for it. Among the records of a batch it looks at those that are at least as extreme as this value,
  and it gives up when none of the values it has seen is left.

  `collect_keeps`: what it has collected are the group's values that are more extreme than the one
  shown, with their multiplicities, and some of those equal to it. So a value that it returns is the
  extremum (`extremum_of_collected`), and `extremum_histories` says that the state shows the extrema
  for as long as the operator returns.
-/

namespace Noria.Server

open Bag List
open Noria.Sqlite (Record Records)

/-! ## The operation -/

inductive Extremum where
  | MIN
  | MAX
  deriving DecidableEq

structure ExtremumOperator where
  op : Extremum
  over_col : Nat
  group : List Nat

/-- `Extremum::over`, which does not let the aggregation column be grouped by. -/
def Extremum.over (op : Extremum) (us over_col : Nat) (group_by : List Nat) :
    Option (GroupedOperator ExtremumOperator) :=
  if group_by.contains over_col then none else some (.new us ⟨op, over_col, group_by⟩)

inductive DiffType where
  | insert (v : Int)
  | remove (v : Int)

/-- `Vec::swap_remove`: the last element takes the place of the one that is removed. -/
def swap_remove {α : Type} (l : List α) (i : Nat) : List α :=
  match l.getLast? with
  | some last => (l.set i last).dropLast
  | none => l

variable {e : ExtremumOperator} {n : Int} {h : Records} {db : MemoryState} {f : VRow → Int}
  {replay_key_cols : Option (List Nat)} {v : Int} {M M' : Multiset VRow} {rs : Records}

namespace ExtremumOperator

def setup (e : ExtremumOperator) (fields : Nat) : Option ExtremumOperator :=
  if e.over_col < fields then some e else none

theorem setup_eq_some {e' : ExtremumOperator} {fields : Nat} :
    e.setup fields = some e' ↔ e.over_col < fields ∧ e' = e := by
  simp [setup, eq_comm]

def to_diff (e : ExtremumOperator) (r : Row) (pos : Bool) : Option DiffType := do
  let v ← r[e.over_col]?
  let v ← v.to_i128
  some (if pos then .insert v else .remove v)

/-- `x` is at least as extreme as the value that is shown. -/
def is_extreme_value (op : Extremum) (current : Option Int) (x : Int) : Bool :=
  match current with
  | some n =>
    match op with
    | .MAX => x ≥ n
    | .MIN => x ≤ n
  | none => true

/-- One round of the loop over the records of a group. -/
def collect (op : Extremum) (current : Option Int) (extreme_values : List Int) :
    DiffType → List Int
  | .insert v =>
    if is_extreme_value op current v then extreme_values ++ [v] else extreme_values
  | .remove v =>
    if is_extreme_value op current v then
      match extreme_values.findIdx? (· == v) with
      | some i => swap_remove extreme_values i
      | none => extreme_values
    else extreme_values

/-- The value that is shown, as a number. -/
def currentInt : Option DataType → Option (Option Int)
  | none => some none
  | some data => data.to_i128.map some

def extreme (op : Extremum) (extreme_values : List Int) : Option Int :=
  match op with
  | .MIN => extreme_values.min?
  | .MAX => extreme_values.max?

/-- Without a value left it would have to query the parent, which is unimplemented. -/
def apply (e : ExtremumOperator) (current : Option DataType) (diffs : List DiffType) :
    Option DataType := do
  let current ← currentInt current
  let extreme_values := diffs.foldl (collect e.op current) current.toList
  let v ← extreme e.op extreme_values
  DataType.from_i128 v

instance : GroupedOperation ExtremumOperator where
  Diff := DiffType
  setup := setup
  group_by := group
  to_diff := to_diff
  apply := apply

end ExtremumOperator

/-! ## Extrema -/

namespace Extremum

/-- `b` is at least as extreme as `a`. -/
def le (op : Extremum) (a b : Int) : Prop :=
  match op with
  | .MAX => a ≤ b
  | .MIN => b ≤ a

variable {op : Extremum} {a b c : Int}

theorem le_refl (op : Extremum) (a : Int) : op.le a a := by
  cases op <;> exact Int.le_refl a

theorem le_trans (h : op.le a b) (h' : op.le b c) : op.le a c := by
  cases op with
  | MIN => exact Int.le_trans h' h
  | MAX => exact Int.le_trans h h'

theorem le_total (op : Extremum) (a b : Int) : op.le a b ∨ op.le b a := by
  cases op with
  | MIN => exact Int.le_total b a
  | MAX => exact Int.le_total a b

theorem le_antisymm (h : op.le a b) (h' : op.le b a) : a = b := by
  cases op with
  | MIN => exact Int.le_antisymm h' h
  | MAX => exact Int.le_antisymm h h'

/-- The minimum, respectively the maximum, of a bag of numbers. -/
def IsExtremum (op : Extremum) (X : Multiset Int) (n : Int) : Prop :=
  n ∈ X ∧ ∀ v ∈ X, op.le v n

/-- At least as extreme as the value that is shown, if there is one. -/
def Extreme (op : Extremum) (current : Option Int) (x : Int) : Prop :=
  ∀ n ∈ current, op.le n x

end Extremum

/-- A difference, as a change of the group's values. -/
def DiffType.change : DiffType → Change Int
  | .insert v => .ins v
  | .remove v => .del v

/-- The difference that a change makes. -/
def DiffType.ofChange : Change Int → DiffType
  | .ins v => .insert v
  | .del v => .remove v

@[simp] theorem DiffType.change_ofChange (c : Change Int) : (ofChange c).change = c := by
  cases c <;> rfl

namespace ExtremumOperator

variable {op : Extremum} {current : Option Int} {E : List Int} {X : Multiset Int}

theorem is_extreme_value_iff {x : Int} :
    is_extreme_value op current x = true ↔ op.Extreme current x := by
  cases current with
  | none => simp [is_extreme_value, Extremum.Extreme]
  | some n => cases op <;> simp [is_extreme_value, Extremum.Extreme, Extremum.le]

theorem extreme_eq_some : extreme op E = some n ↔ n ∈ E ∧ ∀ v ∈ E, op.le v n := by
  cases op with
  | MIN => exact min?_eq_some_iff
  | MAX => exact max?_eq_some_iff

theorem perm_swap_remove {α : Type} {l : List α} {i : Nat} (hi : i < l.length) :
    (swap_remove l i).Perm (l.eraseIdx i) := by
  obtain ⟨a, x, b, rfl, rfl⟩ : ∃ a x b, l = a ++ x :: b ∧ a.length = i :=
    ⟨l.take i, l[i], l.drop (i + 1), by simp, length_take_of_le (Nat.le_of_lt hi)⟩
  rcases eq_nil_or_concat b with rfl | ⟨b, y, rfl⟩
  · have hlast : (a ++ [x]).getLast? = some x := getLast?_concat ..
    rw [swap_remove, hlast, eraseIdx_append_of_length_le (Nat.le_refl _), Nat.sub_self]
    simp
  · rw [concat_eq_append]
    have hlast : (a ++ x :: (b ++ [y])).getLast? = some y := by
      rw [← cons_append, ← append_assoc, getLast?_concat]
    have hset : ((a ++ x :: (b ++ [y])).set a.length y).dropLast = a ++ y :: b := by
      rw [set_append_right _ _ (Nat.le_refl _), Nat.sub_self, set_cons_zero,
        ← cons_append, ← append_assoc, dropLast_concat]
    simp only [swap_remove, hlast, hset]
    rw [eraseIdx_append_of_length_le (Nat.le_refl _), Nat.sub_self, eraseIdx_cons_zero]
    exact (perm_append_singleton y b).symm.append_left a

theorem collect_insert (hv : op.Extreme current v) :
    collect op current E (.insert v) = E ++ [v] := if_pos (is_extreme_value_iff.mpr hv)

theorem collect_remove (hv : op.Extreme current v) :
    (collect op current E (.remove v)).Perm (E.erase v) := by
  rw [collect, if_pos (is_extreme_value_iff.mpr hv), erase_eq_eraseIdx, List.idxOf?]
  cases hi : E.findIdx? (· == v) with
  | none => rfl
  | some i => exact perm_swap_remove (findIdx?_eq_some_iff_getElem.mp hi).1

theorem collect_of_not_extreme {d : DiffType} (hd : d = .insert v ∨ d = .remove v)
    (hv : ¬op.Extreme current v) : collect op current E d = E := by
  rw [← is_extreme_value_iff] at hv
  rcases hd with rfl | rfl
  · exact if_neg hv
  · exact if_neg hv

/-- What has been collected of the group's values `X`: all that are more
    extreme than the one shown, and some of those equal to it. -/
structure Keeps (op : Extremum) (current : Option Int) (E : List Int) (X : Multiset Int) :
    Prop where
  le : ∀ v, E.count v ≤ X.count v
  eq : ∀ v, op.Extreme current v → some v ≠ current → E.count v = X.count v
  extreme : ∀ v ∈ E, op.Extreme current v

theorem keeps_start (hsome : ∀ c ∈ current, op.IsExtremum X c) (hnone : current = none → X = 0) :
    Keeps op current current.toList X := by
  cases current with
  | none =>
    rw [hnone rfl]
    exact ⟨fun v => Nat.le_refl _, fun v _ _ => rfl, fun v hv => by cases hv⟩
  | some c =>
    obtain ⟨hc, hX⟩ := hsome c rfl
    have hone : 1 ≤ X.count c := Multiset.one_le_count_iff_mem.mpr hc
    refine ⟨fun v => ?_, fun v hv hne => ?_, fun v hv => ?_⟩
    · rw [Option.toList_some, count_singleton]
      split
      · rename_i hvc
        rwa [eq_of_beq hvc] at hone
      · exact Nat.zero_le _
    · -- a value of the group that is as extreme is the one shown
      have hnot : v ∉ X := by
        intro hmem
        exact hne (congrArg some (Extremum.le_antisymm (hX v hmem) (hv c rfl)))
      have hcv : v ≠ c := fun h => hne (congrArg some h)
      rw [Multiset.count_eq_zero_of_notMem hnot, Option.toList_some]
      exact count_eq_zero_of_not_mem (by simpa using hcv)
    · obtain rfl := mem_singleton.mp hv
      intro n hn
      cases hn
      exact Extremum.le_refl op v

theorem keeps_insert (h : Keeps op current E X) :
    Keeps op current (collect op current E (.insert v)) (v ::ₘ X) := by
  by_cases hv : op.Extreme current v
  · rw [collect_insert hv]
    have hcount : ∀ w, (E ++ [v]).count w = E.count w + if w = v then 1 else 0 := by
      intro w
      by_cases hwv : w = v
      · simp [hwv]
      · simp [hwv, Ne.symm hwv]
    refine ⟨fun w => ?_, fun w hw hne => ?_, fun w hw => ?_⟩
    · rw [hcount, Multiset.count_cons]
      exact Nat.add_le_add_right (h.le w) _
    · rw [hcount, Multiset.count_cons, h.eq w hw hne]
    · rcases mem_append.mp hw with hw | hw
      · exact h.extreme w hw
      · rwa [mem_singleton.mp hw]
  · rw [collect_of_not_extreme (.inl rfl) hv]
    refine ⟨fun w => ?_, fun w hw hne => ?_, h.extreme⟩
    · exact Nat.le_trans (h.le w) (Multiset.count_le_count_cons ..)
    · have hwv : w ≠ v := by
        rintro rfl
        exact hv hw
      rw [Multiset.count_cons_of_ne hwv, h.eq w hw hne]

theorem keeps_remove (h : Keeps op current E (v ::ₘ X)) :
    Keeps op current (collect op current E (.remove v)) X := by
  have hle : ∀ w, w ≠ v → E.count w ≤ X.count w := by
    intro w hw
    have := h.le w
    rwa [Multiset.count_cons_of_ne hw] at this
  have heq : ∀ w, w ≠ v → op.Extreme current w → some w ≠ current → E.count w = X.count w := by
    intro w hw hext hne
    have := h.eq w hext hne
    rwa [Multiset.count_cons_of_ne hw] at this
  by_cases hv : op.Extreme current v
  · have hperm := collect_remove (E := E) hv
    have hself : (E.erase v).count v = E.count v - 1 := count_erase_self
    have hother : ∀ w, w ≠ v → (E.erase v).count w = E.count w :=
      fun w hw => count_erase_of_ne hw
    refine ⟨fun w => ?_, fun w hw hne => ?_, fun w hw => ?_⟩
    · rw [hperm.count_eq]
      by_cases hwv : w = v
      · subst hwv
        have := h.le w
        rw [Multiset.count_cons_self] at this
        omega
      · rw [hother w hwv]
        exact hle w hwv
    · rw [hperm.count_eq]
      by_cases hwv : w = v
      · subst hwv
        have := h.eq w hw hne
        rw [Multiset.count_cons_self] at this
        omega
      · rw [hother w hwv]
        exact heq w hwv hw hne
    · exact h.extreme w (mem_of_mem_erase (hperm.mem_iff.mp hw))
  · rw [collect_of_not_extreme (.inr rfl) hv]
    have hnot : v ∉ E := fun hmem => hv (h.extreme v hmem)
    refine ⟨fun w => ?_, fun w hw hne => ?_, h.extreme⟩
    · by_cases hwv : w = v
      · rw [hwv, count_eq_zero_of_not_mem hnot]
        exact Nat.zero_le _
      · exact hle w hwv
    · exact heq w (fun hwv => hv (hwv ▸ hw)) hw hne

/-- **The loop.** -/
theorem collect_keeps {diffs : List DiffType} {X' : Multiset Int} (h : Keeps op current E X)
    (happ : Applies X (diffs.map DiffType.change) X') :
    Keeps op current (diffs.foldl (collect op current) E) X' := by
  induction diffs generalizing E X with
  | nil =>
    rw [map_nil, Applies.nil_iff] at happ
    rwa [← happ]
  | cons d diffs ih =>
    cases d with
    | insert v =>
      exact ih (keeps_insert h) (Applies.ins_iff.mp happ)
    | remove v =>
      obtain ⟨X₁, rfl, hrest⟩ := Applies.del_iff.mp happ
      exact ih (keeps_remove h) hrest

/-- **What is returned** is the extremum of the group's values. -/
theorem extremum_of_collected (h : Keeps op current E X) (hn : extreme op E = some n) :
    op.IsExtremum X n := by
  obtain ⟨hmem, hbest⟩ := extreme_eq_some.mp hn
  have hsub : ∀ v ∈ E, v ∈ X := by
    intro v hv
    exact Multiset.one_le_count_iff_mem.mp (Nat.le_trans (one_le_count_iff.mpr hv) (h.le v))
  refine ⟨hsub n hmem, fun v hv => ?_⟩
  by_cases hext : op.Extreme current v
  · by_cases hcur : some v = current
    · exact h.extreme n hmem v hcur.symm
    · have hcount := Multiset.one_le_count_iff_mem.mpr hv
      rw [← h.eq v hext hcur] at hcount
      exact hbest v (one_le_count_iff.mp hcount)
  · -- less extreme than the value shown, and so than `n`
    unfold Extremum.Extreme at hext
    push Not at hext
    obtain ⟨c, hc, hnot⟩ := hext
    rcases op.le_total c v with hcv | hvc
    · exact absurd hcv hnot
    · exact Extremum.le_trans hvc (h.extreme n hmem c hc)

/-! ## Groups -/

def valueOf (e : ExtremumOperator) (v : VRow) : Int := (v.getD e.over_col .null).intOf

def values (e : ExtremumOperator) (group_by : List Nat) (M : Multiset VRow) (k : VRow) :
    Multiset Int :=
  (M.filter fun v => VRow.proj group_by v = k).map e.valueOf

/-- The aggregated column holds an integer. -/
def IntAt (e : ExtremumOperator) (r : Row) : Prop := ∃ d, r[e.over_col]? = some d ∧ d.kind = .int

theorem to_diff_eq {r : Record} (h : e.IntAt r.row) :
    e.to_diff r.row r.is_positive = some (.ofChange (r.change.map e.valueOf)) := by
  obtain ⟨d, hd, hint⟩ := h
  have hval : e.valueOf (Row.val r.row) = d.val.intOf := by
    rw [valueOf, Row.val_getD r.row e.over_col hd]
  have hread : d.to_i128 = some d.val.intOf := by
    cases d <;> first | rfl | cases hint
  rw [to_diff, hd, Option.bind_eq_bind, Option.bind_some, hread, Option.bind_eq_bind,
    Option.bind_some, ← hval]
  cases r with
  | positive row => rfl
  | negative row => rfl

theorem applies_values (e : ExtremumOperator) (group_by : List Nat)
    (happ : Applies M (Records.changes rs) M') (k : VRow) : Applies (e.values group_by M k)
      ((GroupedOperator.recordsOf group_by rs k).map fun r => r.change.map e.valueOf)
      (e.values group_by M' k) := by
  have h := (happ.filter fun v => VRow.proj group_by v = k).map e.valueOf
  have hchanges : ((Records.changes rs).filter fun c => VRow.proj group_by c.elem = k).map
      (Change.map e.valueOf)
      = (GroupedOperator.recordsOf group_by rs k).map fun r => r.change.map e.valueOf := by
    rw [Records.changes, filter_map, map_map]
    simp only [Function.comp_def, Record.elem_change]
    rfl
  rwa [hchanges] at h

theorem currentInt_of_val {current : Option DataType} {n : Option Int}
    (h : current.map DataType.val = n.map Value.int) : currentInt current = some n := by
  cases n with
  | none =>
    cases Option.map_eq_none_iff.mp h
    rfl
  | some n =>
    obtain ⟨c, rfl, hc⟩ := Option.map_eq_some_iff.mp h
    rw [currentInt, DataType.to_i128_of_val hc]
    rfl

/-- **The records of one group.** A value that the operation returns is the
    extremum of the group's rows after the batch. -/
theorem newValue_extremum {g : GroupedOperator ExtremumOperator}
    (hint : ∀ r ∈ rs, g.inner.IntAt r.row) (happ : Applies M (Records.changes rs) M') {k : VRow}
    {current : Option DataType} {n : Option Int}
    (hcurrent : current.map DataType.val = n.map Value.int)
    (hsome : ∀ c ∈ n, g.inner.op.IsExtremum (g.inner.values g.group_by M k) c)
    (hnone : n = none → g.inner.values g.group_by M k = 0) {d : DataType}
    (hd : g.newValue rs k current = some d) :
    ∃ m, d.val = .int m ∧ g.inner.op.IsExtremum (g.inner.values g.group_by M' k) m := by
  have hdiffs : (GroupedOperator.recordsOf g.group_by rs k).mapM (fun r =>
      GroupedOperation.to_diff g.inner r.row r.is_positive) =
        some ((GroupedOperator.recordsOf g.group_by rs k).map fun r =>
          DiffType.ofChange (r.change.map g.inner.valueOf)) :=
    mapM_option_map fun r hr => to_diff_eq (hint r (mem_filter.mp hr).1)
  rw [GroupedOperator.newValue, hdiffs, Option.bind_some] at hd
  change apply g.inner current _ = some d at hd
  rw [apply, currentInt_of_val hcurrent, Option.bind_eq_bind, Option.bind_some,
    Option.bind_eq_bind, Option.bind_eq_some_iff] at hd
  obtain ⟨m, hm, hd⟩ := hd
  generalize hds : (GroupedOperator.recordsOf g.group_by rs k).map (fun r =>
    DiffType.ofChange (r.change.map g.inner.valueOf)) = diffs at hm
  have hvalues : Applies (g.inner.values g.group_by M k) (diffs.map DiffType.change)
      (g.inner.values g.group_by M' k) := by
    rw [← hds, map_map]
    simpa only [Function.comp_def, DiffType.change_ofChange] using
      applies_values g.inner g.group_by happ k
  have hkeeps := collect_keeps (keeps_start hsome hnone) hvalues
  exact ⟨m, DataType.val_of_from_i128 hd, extremum_of_collected hkeeps hm⟩

end ExtremumOperator

/-! ## Runs -/

namespace GroupedOperator

variable {g : GroupedOperator ExtremumOperator}

/-- The state shows the extremum of each group that has occurred in the history `h`, which has left
    the rows `M`. Each of these groups still has rows. -/
structure ShowsExtrema (g : GroupedOperator ExtremumOperator) (h : Records) (M : Multiset VRow)
    (db : MemoryState) (f : VRow → Int) : Prop where
  complete : db.Complete (shown (groupsIn g.group_by h) fun k => .int (f k))
  extremum : ∀ k ∈ groupsIn g.group_by h,
    g.inner.op.IsExtremum (g.inner.values g.group_by M k) (f k)
  occurred : ∀ v ∈ M, VRow.proj g.group_by v ∈ groupsIn g.group_by h

/-- **One batch.** If the operator returns, its output can be applied, and
    the state then shows the extrema after the batch. -/
theorem advance_extrema (hshows : g.ShowsExtrema h M db f) (hg : g.Indexed db)
    (hcols : ∀ key ∈ db.keys, ∀ c ∈ key, c ≤ g.group_by.length) (hin : Groupable g.group_by rs)
    (hint : ∀ r ∈ rs, g.inner.IntAt r.row) (happ : Applies M (Records.changes rs) M')
    {res : ProcessingResult} (hres : g.on_input rs replay_key_cols db = some res) :
    ∃ db' f', g.advance replay_key_cols db rs = some db' ∧ db'.keys = db.keys ∧
      g.ShowsExtrema (h ++ rs) M' db' f' := by
  obtain ⟨current, hcurrent, hreturns, hdefined⟩ := on_input_shown hg hshows.complete
    (fun k hk => length_of_mem_groupsIn hk) hin replay_key_cols
  have hnew : ∀ k ∈ groupsIn g.group_by rs, ∃ d m, g.newValue rs k (current k) = some d ∧
      d.val = .int m ∧ g.inner.op.IsExtremum (g.inner.values g.group_by M' k) m := by
    intro k hk
    obtain ⟨d, hd⟩ := Option.isSome_iff_exists.mp (hdefined res hres k hk)
    by_cases hold : k ∈ groupsIn g.group_by h
    · have hval : (current k).map DataType.val = (some (f k)).map Value.int := by
        rw [hcurrent k hk, if_pos hold, Option.map_some]
      obtain ⟨m, hm, hext⟩ := ExtremumOperator.newValue_extremum hint happ hval
        (fun c hc => by cases hc; exact hshows.extremum k hold) (fun hnone => by cases hnone) hd
      exact ⟨d, m, hd, hm, hext⟩
    · -- a new group has no rows yet
      have hval : (current k).map DataType.val = (none : Option Int).map Value.int := by
        rw [hcurrent k hk, if_neg hold, Option.map_none]
      have hempty : g.inner.values g.group_by M k = 0 := by
        rw [ExtremumOperator.values, Multiset.map_eq_zero, Multiset.filter_eq_nil]
        rintro v hv rfl
        exact hold (hshows.occurred v hv)
      obtain ⟨m, hm, hext⟩ := ExtremumOperator.newValue_extremum hint happ hval
        (fun c hc => by cases hc) (fun _ => hempty) hd
      exact ⟨d, m, hd, hm, hext⟩
  have : Nonempty DataType := ⟨.none⟩
  choose! new m hvalue hval hext using hnew
  obtain ⟨res', hres', hout, hlength⟩ := hreturns new hvalue
  obtain rfl : res = res' := Option.some.inj (hres.symm.trans hres')
  have hfits : db.Fits res.results := by
    intro r hr s hs c hc
    have := hcols s.key (mem_map_of_mem hs) c hc
    rw [hlength r hr]
    omega
  obtain ⟨db', hdb', hcomplete, hkeys⟩ := hshows.complete.process_records hfits hout
  refine ⟨db', fun k => if k ∈ groupsIn g.group_by rs then m k else f k, ?_, hkeys, ?_, ?_, ?_⟩
  · simp [advance, hres, hdb']
  · rw [groupsIn_append]
    rw [shown_congr] at hcomplete
    · exact hcomplete
    · intro k _
      unfold nextShown
      split
      · rename_i hk
        exact hval k hk
      · rfl
  · intro k hk
    split
    · rename_i hrs
      exact hext k hrs
    · rename_i hrs
      rw [ExtremumOperator.values, ← rows_unchanged happ hrs]
      rw [groupsIn_append, Finset.mem_union] at hk
      exact hshows.extremum k (hk.resolve_right hrs)
  · intro v hv
    rw [groupsIn_append, Finset.mem_union]
    by_cases hrs : VRow.proj g.group_by v ∈ groupsIn g.group_by rs
    · exact .inr hrs
    · have hmem : v ∈ M'.filter fun w => VRow.proj g.group_by w = VRow.proj g.group_by v :=
        Multiset.mem_filter.mpr ⟨hv, rfl⟩
      rw [← rows_unchanged happ hrs] at hmem
      exact .inl (hshows.occurred v (Multiset.mem_filter.mp hmem).1)

theorem foldlM_extrema {db' : MemoryState} (hshows : g.ShowsExtrema h M db f) (hg : g.Indexed db)
    (hcols : ∀ key ∈ db.keys, ∀ c ∈ key, c ≤ g.group_by.length) {batches : List Records}
    (hin : ∀ rs ∈ batches, Groupable g.group_by rs)
    (hint : ∀ rs ∈ batches, ∀ r ∈ rs, g.inner.IntAt r.row)
    (happ : Applies M (Records.changes batches.flatten) M')
    (hrun : batches.foldlM (g.advance replay_key_cols) db = some db') :
    ∃ f', g.ShowsExtrema (h ++ batches.flatten) M' db' f' ∧ db'.keys = db.keys := by
  induction batches generalizing h M db f with
  | nil =>
    cases hrun
    rw [flatten_nil, Records.changes, map_nil, Applies.nil_iff] at happ
    rw [flatten_nil, append_nil, ← happ]
    exact ⟨f, hshows, rfl⟩
  | cons rs batches ih =>
    rw [flatten_cons, Records.changes, map_append, Applies.append_iff] at happ
    obtain ⟨M₁, happ₁, happ₂⟩ := happ
    obtain ⟨db₁, hdb₁, hrun⟩ := Option.bind_eq_some_iff.mp hrun
    obtain ⟨res, hres⟩ : ∃ res, g.on_input rs replay_key_cols db = some res := by
      rw [advance, Option.bind_eq_bind, Option.bind_eq_some_iff] at hdb₁
      exact ⟨hdb₁.choose, hdb₁.choose_spec.1⟩
    obtain ⟨db₁', f₁, hdb₁', hkeys₁, hshows₁⟩ := advance_extrema hshows hg hcols
      (hin rs mem_cons_self) (hint rs mem_cons_self) happ₁ hres
    obtain rfl : db₁ = db₁' := Option.some.inj (hdb₁.symm.trans hdb₁')
    rw [← hkeys₁] at hcols
    obtain ⟨f', hshows', hkeys'⟩ := ih hshows₁ ⟨hg.out, hkeys₁ ▸ hg.own, hg.length⟩ hcols
      (forall_mem_cons.mp hin).2 (forall_mem_cons.mp hint).2 happ₂ hrun
    rw [append_assoc] at hshows'
    exact ⟨f', hshows', hkeys'.trans hkeys₁⟩

end GroupedOperator

/-! ## The law of extrema -/

/-- **MIN and MAX over histories.** For any group-by columns of the parent and any sequence of
    batches that delete only rows that are there, each processed against the operator's own state
    and then applied to it, as long as the operator returns: afterwards the state has exactly one
    row for each group that ever occurred, with the minimum, respectively the maximum, over the
    group's current rows in its last column; in particular the group has rows. A further batch for
    which the operator returns can be applied too. -/
theorem extremum_histories {op : Extremum} {us over_col fields : Nat} {group_by : List Nat}
    {g₀ g : GroupedOperator ExtremumOperator} (hover : op.over us over_col group_by = some g₀)
    (hconnected : g₀.on_connected fields = some g)
    (hgroup : ∀ c ∈ group_by, c < fields) {keys : List (List Nat)} {db₀ : MemoryState}
    (hdb₀ : MemoryState.withKeys keys = some db₀) (hown : g.out_key ∈ keys)
    (hkeys : ∀ key ∈ keys, ∀ c ∈ key, c ≤ group_by.length) {batches : List Records}
    (hwidth : ∀ rs ∈ batches, ∀ r ∈ rs, r.row.length = fields)
    (hint : ∀ rs ∈ batches, ∀ r ∈ rs, ∀ d, r.row[over_col]? = some d → d.kind = .int)
    (hkinds : ∀ rs ∈ batches, ∀ r ∈ rs, ∀ r' ∈ rs, ∀ c ∈ group_by,
      r.row[c]?.map DataType.kind = r'.row[c]?.map DataType.kind)
    {before after : List Records} (hbatches : batches = before ++ after) {M : Multiset VRow}
    (happ : Applies 0 (Records.changes batches.flatten) M)
    {replay_key_cols : Option (List Nat)} {db : MemoryState}
    (hrun : before.foldlM (g.advance replay_key_cols) db₀ = some db) :
    (∃ f M₁, Applies 0 (Records.changes before.flatten) M₁ ∧
      g.ShowsExtrema before.flatten M₁ db f ∧
      ∀ key : Row, key.length = group_by.length →
        ∃ rs, db.lookup g.out_key key = some (.some rs) ∧ (rs.map Row.val : Multiset VRow) =
          if Row.val key ∈ GroupedOperator.groupsIn g.group_by before.flatten
          then {Row.val key ++ [.int (f (Row.val key))]} else 0) ∧
    ∀ rs rest res, after = rs :: rest → g.on_input rs replay_key_cols db = some res →
      ∃ db', g.advance replay_key_cols db rs = some db' := by
  unfold Extremum.over at hover
  split at hover
  · cases hover
  cases hover
  obtain ⟨hsetup, hsorted, hout⟩ := GroupedOperator.on_connected_new hconnected
  obtain ⟨hlt, hinner⟩ := ExtremumOperator.setup_eq_some.mp hsetup
  rw [hinner] at hsorted
  change g.group_by = group_by.insertionSort _ at hsorted
  obtain ⟨hlength, hcomplete, hg₀, hcols₀, hin⟩ := GroupedOperator.connected_ready hsorted hout
    hgroup hdb₀ hown hkeys hwidth hkinds
  have hintAt : ∀ rs ∈ batches, ∀ r ∈ rs, g.inner.IntAt r.row := by
    intro rs hrs r hr
    rw [hinner]
    have hcol : over_col < r.row.length := by rw [hwidth rs hrs r hr]; exact hlt
    have hd := getElem?_eq_getElem hcol
    exact ⟨r.row[over_col], hd, hint rs hrs r hr _ hd⟩
  subst hbatches
  rw [flatten_append, Records.changes, map_append, Applies.append_iff] at happ
  obtain ⟨M₁, happ₁, happ₂⟩ := happ
  have hstart : g.ShowsExtrema [] 0 db₀ fun _ => 0 :=
    ⟨hcomplete, fun k hk => absurd hk (Finset.notMem_empty k), fun v hv => by cases hv⟩
  obtain ⟨f, hshows, hdbk⟩ := GroupedOperator.foldlM_extrema hstart hg₀ hcols₀
    (fun rs hrs => hin rs (mem_append_left _ hrs))
    (fun rs hrs => hintAt rs (mem_append_left _ hrs)) happ₁ hrun
  have hg : g.Indexed db := ⟨hout, by rw [hdbk]; exact hg₀.own, hg₀.length⟩
  refine ⟨⟨f, M₁, happ₁, hshows, fun key hkey => ?_⟩, ?_⟩
  · have hkout : key.length = g.out_key.length := by rw [hout, length_range, hlength, hkey]
    obtain ⟨rs, hrs, hbag⟩ := hshows.complete.lookup hg.own hkout
    refine ⟨rs, hrs, ?_⟩
    rw [hbag, hout,
      GroupedOperator.rowsOf_shown fun k hk => GroupedOperator.length_of_mem_groupsIn hk]
    rfl
  · rintro rs rest res rfl hres
    rw [flatten_cons, map_append, Applies.append_iff] at happ₂
    obtain ⟨M₂, happ₂, -⟩ := happ₂
    have hrs : rs ∈ before ++ rs :: rest := mem_append_right _ mem_cons_self
    obtain ⟨db', -, hdb', -⟩ := GroupedOperator.advance_extrema hshows hg
      (by rw [hdbk]; exact hcols₀) (hin rs hrs) (hintAt rs hrs) happ₂ hres
    exact ⟨db', hdb'⟩

def maxBy : GroupedOperator ExtremumOperator := ⟨0, ⟨.MAX, 1, [0]⟩, 2, [0], [0], [0]⟩

def maxByState : MemoryState := ⟨[⟨[0], ∅, false, 0⟩], ∅⟩

/-- One group, with two records added and the smaller one removed again. -/
def maxByBatches : List Records :=
  [[.positive [.int 1, .int 5], .positive [.int 1, .int 6]], [.negative [.int 1, .int 5]]]

theorem maxBy_extremum : ∃ db, maxByBatches.foldlM (maxBy.advance none) maxByState = some db ∧
    ∃ rs, db.lookup [0] [.int 1] = some (.some rs) ∧
      (rs.map Row.val : Multiset VRow) = {[.int 1, .int 6]} := by
  have hover : Extremum.MAX.over 0 1 [0] = some (.new 0 ⟨.MAX, 1, [0]⟩) := rfl
  have hconnected : (GroupedOperator.new 0 (⟨.MAX, 1, [0]⟩ : ExtremumOperator)).on_connected 2 =
      some maxBy := rfl
  have hstate : MemoryState.withKeys [[0]] = some maxByState := rfl
  have happ : Applies 0 (Records.changes maxByBatches.flatten) {[.int 1, .int 6]} := by
    refine .ins (.ins ?_)
    rw [Multiset.cons_swap]
    exact .del (.nil _)
  obtain ⟨db, hrun⟩ : ∃ db, maxByBatches.foldlM (maxBy.advance none) maxByState = some db :=
    ⟨_, rfl⟩
  have hint : ∀ rs ∈ maxByBatches, ∀ r ∈ rs, ∀ d, r.row[1]? = some d → d.kind = .int := by
    have hall : ∀ rs ∈ maxByBatches, ∀ r ∈ rs, r.row[1]?.map DataType.kind = some .int := by decide
    intro rs hrs r hr d hd
    have hkind := hall rs hrs r hr
    rw [hd] at hkind
    exact Option.some.inj hkind
  obtain ⟨⟨f, M, hM, hshows, hlookup⟩, -⟩ := extremum_histories hover hconnected (by decide) hstate
    (by decide) (by decide) (by decide) hint (by decide) (append_nil _).symm happ hrun
  obtain rfl := happ.unique hM
  obtain ⟨rs, hrs, hbag⟩ := hlookup [.int 1] rfl
  refine ⟨db, hrun, rs, hrs, hbag.trans ?_⟩
  have hmem : Row.val [.int 1] ∈
      GroupedOperator.groupsIn maxBy.group_by maxByBatches.flatten := by decide
  have hmax : f (Row.val [.int 1]) = 6 := Multiset.mem_singleton.mp (hshows.extremum _ hmem).1
  rw [if_pos hmem, hmax]
  rfl

end Noria.Server

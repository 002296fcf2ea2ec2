import Mathlib.Data.List.Sort

/-! # Sorting a batch and cutting it into runs

  A batch is often handled key by key: it is sorted by the key, with a stable sort, and then cut
  wherever the key changes. `runs` is the loop that does the cutting; it compares with the first
  element of the current run.

  The comparison need not be an order on everything, only on what is in the batch. There it is given
  by a `rank`, and then (`runs_insertionSort`) the runs are the elements of each rank, in the order
  of the batch, one run for each rank that occurs. Where no key occurs twice it need not be an order
  at all (`runs_insertionSort_of_nodup`).
-/

open List

variable {α : Type*}

/-- The runs of a list, given the (nonempty) run that is being collected. -/
def runsFrom (same : α → α → Bool) : List α → List α → List (List α)
  | run, [] => [run]
  | [], a :: rest => runsFrom same [a] rest
  | first :: run, a :: rest =>
    if same first a then runsFrom same (first :: run ++ [a]) rest
    else (first :: run) :: runsFrom same [a] rest

/-- Cut a list where an element differs from the first of its run. -/
def runs (same : α → α → Bool) : List α → List (List α)
  | [] => []
  | a :: rest => runsFrom same [a] rest

/-- A sort only depends on how the elements of the list compare. -/
theorem insertionSort_congr {r r' : α → α → Prop} [DecidableRel r] [DecidableRel r'] {l : List α}
    (h : ∀ a ∈ l, ∀ b ∈ l, r a b ↔ r' a b) : l.insertionSort r = l.insertionSort r' := by
  have hmap := map_insertionSort r r' id l h
  rwa [map_id, map_id] at hmap

section Rank

variable {L : Type*} [LinearOrder L] (rank : α → L)

theorem filter_rank_insertionSort (l : List α) (k : L) :
    (l.insertionSort fun a b => rank a ≤ rank b).filter (fun a => rank a = k) =
      l.filter fun a => rank a = k := by
  have hpair : (l.filter fun a => rank a = k).Pairwise fun a b => rank a ≤ rank b := by
    rw [pairwise_filter]
    refine pairwise_of_forall fun a b ha hb => ?_
    rw [decide_eq_true_iff] at ha hb
    rw [ha, hb]
  have hsub := (sublist_insertionSort hpair filter_sublist).filter fun a => rank a = k
  rw [filter_filter] at hsub
  simp only [Bool.and_self] at hsub
  refine (hsub.eq_of_length ?_).symm
  exact ((perm_insertionSort _ l).filter _).length_eq.symm

theorem runsFrom_sorted {same : α → α → Bool} {k : L} {run rest : List α} (hrun : run ≠ [])
    (hk : ∀ a ∈ run, rank a = k) (hle : ∀ a ∈ rest, k ≤ rank a)
    (hsorted : rest.Pairwise fun a b => rank a ≤ rank b)
    (hsame : ∀ a ∈ run ++ rest, ∀ b ∈ run ++ rest, same a b = true ↔ rank a = rank b) :
    ∃ ks : List L, (k :: ks).Pairwise (· < ·) ∧
      (∀ k', k' ∈ k :: ks ↔ ∃ a ∈ run ++ rest, rank a = k') ∧
      runsFrom same run rest =
        (k :: ks).map fun k' => (run ++ rest).filter fun a => rank a = k' := by
  induction rest generalizing run k with
  | nil =>
    obtain ⟨first, run, rfl⟩ := exists_cons_of_ne_nil hrun
    refine ⟨[], pairwise_singleton _ _, fun k' => ?_, ?_⟩
    · rw [append_nil, mem_singleton]
      constructor
      · rintro rfl
        exact ⟨first, mem_cons_self, hk first mem_cons_self⟩
      · rintro ⟨a, ha, rfl⟩
        exact hk a ha
    · rw [append_nil, map_singleton, filter_eq_self.mpr]
      · rfl
      · exact fun a ha => decide_eq_true (hk a ha)
  | cons b rest ih =>
    obtain ⟨first, run, rfl⟩ := exists_cons_of_ne_nil hrun
    rw [pairwise_cons] at hsorted
    have hfirst : same first b = true ↔ k = rank b := by
      rw [hsame first (by simp) b (by simp), hk first mem_cons_self]
    unfold runsFrom
    by_cases hb : k = rank b
    · rw [if_pos (hfirst.mpr hb)]
      have happend : first :: run ++ [b] ++ rest = first :: run ++ b :: rest := by simp
      have hk' : ∀ a ∈ first :: run ++ [b], rank a = k := by
        intro a ha
        rcases mem_append.mp ha with ha | ha
        · exact hk a ha
        · rw [mem_singleton.mp ha, hb]
      have hrest := ih (cons_ne_nil first (run ++ [b])) hk'
        (forall_mem_cons.mp hle).2 hsorted.2 (by rwa [← happend] at hsame)
      rwa [← happend]
    · rw [if_neg (mt hfirst.mp hb)]
      have hlt : k < rank b := lt_of_le_of_ne (hle b mem_cons_self) hb
      obtain ⟨ks, hks, hmem, hruns⟩ := ih (k := rank b) (cons_ne_nil b []) (by simp)
        hsorted.1 hsorted.2
        (fun a ha c hc => hsame a (mem_append_right _ ha) c (mem_append_right _ hc))
      -- all later ranks are above `k`
      have habove : ∀ k' ∈ rank b :: ks, k < k' := by
        intro k' hk'
        obtain ⟨a, ha, rfl⟩ := (hmem k').mp hk'
        rcases mem_cons.mp ha with rfl | ha
        · exact hlt
        · exact hlt.trans_le (hsorted.1 a ha)
      refine ⟨rank b :: ks, pairwise_cons.mpr ⟨habove, hks⟩, fun k' => ?_, ?_⟩
      · rw [mem_cons, hmem k']
        constructor
        · rintro (rfl | ⟨a, ha, rfl⟩)
          · exact ⟨first, by simp, hk first mem_cons_self⟩
          · exact ⟨a, mem_append_right _ ha, rfl⟩
        · rintro ⟨a, ha, rfl⟩
          rcases mem_append.mp ha with ha | ha
          · exact .inl (hk a ha)
          · exact .inr ⟨a, ha, rfl⟩
      · rw [map_cons, hruns]
        congr 1
        · rw [filter_append, filter_eq_self.mpr fun a ha => decide_eq_true (hk a ha),
            filter_eq_nil_iff.mpr, append_nil]
          intro a ha heq
          rw [decide_eq_true_iff] at heq
          have := habove (rank a) ((hmem _).mpr ⟨a, ha, rfl⟩)
          rw [heq] at this
          exact lt_irrefl k this
        · refine map_congr_left fun k' hk' => ?_
          have hnil : ((first :: run).filter fun a => rank a = k') = [] := by
            rw [filter_eq_nil_iff]
            intro a ha heq
            rw [decide_eq_true_iff] at heq
            have := habove k' hk'
            rw [← heq, hk a ha] at this
            exact lt_irrefl k this
          show (b :: rest).filter _ = _
          rw [filter_append, hnil, nil_append]

/-- **The runs of a sorted batch** are the elements of each rank, in the
    order they had in the batch. -/
theorem runs_insertionSort {le : α → α → Prop} [DecidableRel le] {same : α → α → Bool} {l : List α}
    (hle : ∀ a ∈ l, ∀ b ∈ l, le a b ↔ rank a ≤ rank b)
    (hsame : ∀ a ∈ l, ∀ b ∈ l, same a b = true ↔ rank a = rank b) :
    ∃ ks : List L, ks.Nodup ∧ (∀ k, k ∈ ks ↔ ∃ a ∈ l, rank a = k) ∧
      runs same (l.insertionSort le) = ks.map fun k => l.filter fun a => rank a = k := by
  rw [insertionSort_congr hle]
  have htotal : Std.Total fun a b : α => rank a ≤ rank b := ⟨fun a b => le_total _ _⟩
  have htrans : IsTrans α fun a b => rank a ≤ rank b := ⟨fun a b c => le_trans⟩
  have hsorted := pairwise_insertionSort (fun a b => rank a ≤ rank b) l
  have hfilter := filter_rank_insertionSort rank l
  have hmem : ∀ a, a ∈ l.insertionSort (fun a b => rank a ≤ rank b) ↔ a ∈ l := fun a =>
    mem_insertionSort _
  generalize l.insertionSort (fun a b => rank a ≤ rank b) = sorted at hsorted hfilter hmem
  cases sorted with
  | nil =>
    refine ⟨[], nodup_nil, fun k => ?_, rfl⟩
    simp [← hmem]
  | cons a rest =>
    rw [pairwise_cons] at hsorted
    obtain ⟨ks, hks, hmem', hruns⟩ := runsFrom_sorted rank (k := rank a)
      (cons_ne_nil a []) (by simp) hsorted.1 hsorted.2
      fun b hb c hc => hsame b ((hmem b).mp hb) c ((hmem c).mp hc)
    refine ⟨rank a :: ks, hks.imp fun h => ne_of_lt h, fun k => ?_, ?_⟩
    · rw [hmem' k]
      simp only [singleton_append, hmem]
    · show runsFrom same [a] rest = _
      rw [hruns]
      exact map_congr_left fun k _ => hfilter k

/-- The runs of a sorted batch, for what the rank stands for. -/
theorem runs_insertionSort_class {β : Type*} [DecidableEq β] (cls : α → β) {le : α → α → Prop}
    [DecidableRel le] {same : α → α → Bool} {l : List α}
    (hle : ∀ a ∈ l, ∀ b ∈ l, le a b ↔ rank a ≤ rank b)
    (hsame : ∀ a ∈ l, ∀ b ∈ l, same a b = true ↔ rank a = rank b)
    (hcls : ∀ a ∈ l, ∀ b ∈ l, rank a = rank b ↔ cls a = cls b) :
    ∃ ks : List β, ks.Nodup ∧ (∀ k, k ∈ ks ↔ ∃ a ∈ l, cls a = k) ∧
      runs same (l.insertionSort le) = ks.map fun k => l.filter fun a => cls a = k := by
  obtain ⟨ks, hnodup, hmem, hruns⟩ := runs_insertionSort rank hle hsame
  -- each rank that occurs is the rank of some element, and so is its class
  choose elem helem hrank using fun k (hk : k ∈ ks) => (hmem k).mp hk
  refine ⟨ks.attach.map fun k => cls (elem k.1 k.2), ?_, fun b => ?_, ?_⟩
  · refine (nodup_attach.mpr hnodup).map_on ?_
    intro k _ k' _ heq
    rw [← hcls _ (helem k.1 k.2) _ (helem k'.1 k'.2), hrank, hrank] at heq
    exact Subtype.ext heq
  · simp only [mem_map, mem_attach, true_and, Subtype.exists]
    constructor
    · rintro ⟨k, hk, rfl⟩
      exact ⟨elem k hk, helem k hk, rfl⟩
    · rintro ⟨a, ha, rfl⟩
      have hk : rank a ∈ ks := (hmem _).mpr ⟨a, ha, rfl⟩
      exact ⟨rank a, hk, (hcls _ (helem _ hk) a ha).mp (hrank _ hk)⟩
  · rw [hruns, map_map]
    conv_lhs => rw [← attach_map_subtype_val ks, map_map]
    refine map_congr_left fun k _ => ?_
    refine filter_congr fun a ha => ?_
    simp only [decide_eq_decide]
    rw [← hcls a ha _ (helem k.1 k.2), hrank]

end Rank

section Distinct

variable {β : Type*} [DecidableEq β] (cls : α → β)

theorem runs_of_pairwise {same : α → α → Bool} {l : List α}
    (h : l.Pairwise fun a b => same a b = false) : runs same l = l.map fun a => [a] := by
  cases l with
  | nil => rfl
  | cons a l =>
    show runsFrom same [a] l = _
    induction l generalizing a with
    | nil => rfl
    | cons b l ih =>
      rw [pairwise_cons] at h
      have hcut : ¬same a b = true := by simp [h.1 b mem_cons_self]
      rw [runsFrom, if_neg hcut, ih b h.2]
      rfl

theorem filter_eq_singleton {l : List α} (h : (l.map cls).Nodup) {a : α} (ha : a ∈ l) :
    (l.filter fun b => cls b = cls a) = [a] := by
  induction l with
  | nil => exact absurd ha not_mem_nil
  | cons b l ih =>
    rw [map_cons, nodup_cons] at h
    rcases mem_cons.mp ha with rfl | ha
    · have hrest : (l.filter fun b => cls b = cls a) = [] := by
        rw [filter_eq_nil_iff]
        intro b hb heq
        exact h.1 (of_decide_eq_true heq ▸ mem_map_of_mem hb)
      rw [filter_cons, if_pos (decide_eq_true rfl), hrest]
    · have hne : ¬decide (cls b = cls a) = true := by
        intro heq
        exact h.1 (of_decide_eq_true heq ▸ mem_map_of_mem ha)
      rw [filter_cons, if_neg hne, ih h.2 ha]

/-- Whatever the sort makes of elements of different classes, each is a run of its own. -/
theorem runs_insertionSort_of_nodup {le : α → α → Prop} [DecidableRel le] {same : α → α → Bool}
    {l : List α} (h : (l.map cls).Nodup)
    (hsame : ∀ a ∈ l, ∀ b ∈ l, same a b = true ↔ cls a = cls b) :
    ∃ ks : List β, ks.Nodup ∧ (∀ k, k ∈ ks ↔ ∃ a ∈ l, cls a = k) ∧
      runs same (l.insertionSort le) = ks.map fun k => l.filter fun a => cls a = k := by
  have hperm := perm_insertionSort le l
  have hnodup : ((l.insertionSort le).map cls).Nodup := (hperm.map cls).nodup_iff.mpr h
  refine ⟨(l.insertionSort le).map cls, hnodup, fun k => ?_, ?_⟩
  · simp only [mem_map, hperm.mem_iff]
  · have hruns : (l.insertionSort le).Pairwise fun a b => same a b = false := by
      refine (pairwise_map.mp hnodup).imp_of_mem fun ha hb hne => ?_
      rw [Bool.eq_false_iff]
      exact mt (hsame _ (hperm.mem_iff.mp ha) _ (hperm.mem_iff.mp hb)).mp hne
    rw [runs_of_pairwise hruns, map_map]
    exact map_congr_left fun a ha => (filter_eq_singleton cls h (hperm.mem_iff.mp ha)).symm

end Distinct

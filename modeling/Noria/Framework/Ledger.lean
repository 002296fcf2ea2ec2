import Mathlib.Data.List.Nodup
import Mathlib.Data.List.ProdSigma
import Mathlib.Data.List.Perm.Subperm

/-! # A ledger of open requests

  A request has a tag and asks for some keys; it is open until all its
  keys have been answered. An answer closes the same keys on several tags
  at once, and so may close many requests, or only part of one.

  The ledger lists the open requests with the keys that are left of them. `pairs` forgets how the
  keys are batched into requests. How many requests an answer closes is bounded by the number of
  pairs it closes (`length_le_close`), and when every request has one key only it is equal to it
  (`length_close`).
-/

/-- The open requests. -/
abbrev Ledger (τ κ : Type*) := List (τ × List κ)

namespace Ledger

open List

variable {τ κ : Type*}

/-- What is being asked for, on which tag. -/
def pairs (l : Ledger τ κ) : List (τ × κ) := l.flatMap fun r => r.2.map fun k => (r.1, k)

@[simp] theorem pairs_nil : pairs ([] : Ledger τ κ) = [] := rfl

theorem pairs_cons (r : τ × List κ) (l : Ledger τ κ) :
    pairs (r :: l) = (r.2.map fun k => (r.1, k)) ++ pairs l := rfl

@[simp] theorem pairs_append (l l' : Ledger τ κ) : pairs (l ++ l') = pairs l ++ pairs l' :=
  flatMap_append

theorem mem_pairs {l : Ledger τ κ} {t : τ} {k : κ} :
    (t, k) ∈ pairs l ↔ ∃ r ∈ l, r.1 = t ∧ k ∈ r.2 := by
  unfold pairs
  simp only [mem_flatMap, mem_map, Prod.mk.injEq]
  constructor
  · rintro ⟨r, hr, k', hk', rfl, rfl⟩
    exact ⟨r, hr, rfl, hk'⟩
  · rintro ⟨r, hr, rfl, hk⟩
    exact ⟨r, hr, k, hk, rfl, rfl⟩

theorem pairs_filter_nonempty (l : Ledger τ κ) :
    pairs (l.filter fun r => !r.2.isEmpty) = pairs l := by
  induction l with
  | nil => rfl
  | cons r l ih =>
    rw [filter_cons, pairs_cons]
    split
    · rw [pairs_cons, ih]
    · next hempty =>
      rw [Bool.not_eq_true, Bool.not_eq_false', List.isEmpty_iff] at hempty
      rw [hempty, ih]
      rfl

theorem length_pairs {l : Ledger τ κ} (h : ∀ r ∈ l, ∃ k, r.2 = [k]) :
    (pairs l).length = l.length := by
  induction l with
  | nil => rfl
  | cons r l ih =>
    obtain ⟨k, hk⟩ := h r mem_cons_self
    rw [pairs_cons, hk, length_append, ih (forall_mem_cons.mp h).2, length_cons]
    simp only [map_cons, map_nil, length_singleton]
    omega

theorem pairs_map (ts : List τ) (ks : List κ) : pairs (ts.map fun t => (t, ks)) = ts ×ˢ ks := by
  unfold pairs
  rw [flatMap_map]
  rfl

theorem mem_pairs_map {ts : List τ} {ks : List κ} {t : τ} {k : κ} :
    (t, k) ∈ pairs (ts.map fun t => (t, ks)) ↔ t ∈ ts ∧ k ∈ ks := by
  rw [pairs_map]
  exact pair_mem_product

theorem mem_request {l q : Ledger τ κ} {ts ts' : List τ} {ks : List κ} {r : τ × List κ}
    (h : r ∈ (l ++ ts.map fun t => (t, ks)) ++ (q ++ ts'.map fun t => (t, ks))) :
    r ∈ l ++ q ∨ r.1 ∈ ts ++ ts' ∧ r.2 = ks := by
  simp only [mem_append, mem_map] at h ⊢
  rcases h with (h | ⟨t, ht, rfl⟩) | (h | ⟨t, ht, rfl⟩)
  · exact .inl (.inl h)
  · exact .inr ⟨.inl ht, rfl⟩
  · exact .inl (.inr h)
  · exact .inr ⟨.inr ht, rfl⟩

/-- **New requests.** The same keys are asked for on some tags, on the
    first of them now and on the others later. -/
theorem pairs_request (l q : Ledger τ κ) (ts ts' : List τ) (ks : List κ) :
    (pairs ((l ++ ts.map fun t => (t, ks)) ++ (q ++ ts'.map fun t => (t, ks)))).Perm
      (pairs (l ++ q) ++ (ts ++ ts') ×ˢ ks) := by
  rw [← pairs_map, ← pairs_append]
  refine List.Perm.flatMap_right _ ?_
  rw [map_append, append_assoc, append_assoc]
  refine List.Perm.append_left l ?_
  rw [← append_assoc, ← append_assoc]
  exact perm_append_comm.append_right _

theorem mem_pairs_request {l q : Ledger τ κ} {ts ts' : List τ} {ks : List κ} {t : τ} {k : κ} :
    (t, k) ∈ pairs ((l ++ ts.map fun t => (t, ks)) ++ (q ++ ts'.map fun t => (t, ks))) ↔
      (t, k) ∈ pairs (l ++ q) ∨ t ∈ ts ++ ts' ∧ k ∈ ks := by
  rw [(pairs_request l q ts ts' ks).mem_iff, mem_append, ← pairs_map, mem_pairs_map]

theorem nodup_request {l q : Ledger τ κ} {ts ts' : List τ} {ks : List κ}
    (hold : (pairs (l ++ q)).Nodup) (hts : (ts ++ ts').Nodup) (hks : ks.Nodup)
    (hnew : ∀ t ∈ ts ++ ts', ∀ k ∈ ks, (t, k) ∉ pairs (l ++ q)) :
    (pairs ((l ++ ts.map fun t => (t, ks)) ++ (q ++ ts'.map fun t => (t, ks)))).Nodup := by
  rw [(pairs_request l q ts ts' ks).nodup_iff, nodup_append]
  refine ⟨hold, hts.product hks, ?_⟩
  rintro p hp ⟨t, k⟩ hq rfl
  obtain ⟨ht, hk⟩ := pair_mem_product.mp hq
  exact hnew t ht k hk hp

section Close

variable [DecidableEq τ] [DecidableEq κ]

/-- Some keys are answered on some tags. -/
def close (tags : List τ) (keys : List κ) (l : Ledger τ κ) : Ledger τ κ :=
  (l.map fun r => if r.1 ∈ tags then (r.1, r.2.filter (· ∉ keys)) else r).filter
    fun r => !r.2.isEmpty

variable {tags : List τ} {keys : List κ} {l : Ledger τ κ}

theorem close_nonempty {r : τ × List κ} (h : r ∈ close tags keys l) : r.2 ≠ [] := by
  have := (mem_filter.mp h).2
  intro hnil
  rw [hnil] at this
  cases this

theorem mem_close {r : τ × List κ} (h : r ∈ close tags keys l) :
    ∃ r₀ ∈ l, r₀.1 = r.1 ∧ r.2.Sublist r₀.2 := by
  obtain ⟨r₀, hr₀, rfl⟩ := mem_map.mp (mem_filter.mp h).1
  refine ⟨r₀, hr₀, ?_⟩
  split
  · exact ⟨rfl, filter_sublist⟩
  · exact ⟨rfl, .refl _⟩

theorem close_one (h : ∀ r ∈ l, ∃ k, r.2 = [k]) : ∀ r ∈ close tags keys l, ∃ k, r.2 = [k] := by
  intro r hr
  obtain ⟨r₀, hr₀, -, hsub⟩ := mem_close hr
  obtain ⟨k, hk⟩ := h r₀ hr₀
  rw [hk, sublist_singleton] at hsub
  exact ⟨k, hsub.resolve_left (close_nonempty hr)⟩

/-- **Exactly the answered pairs are closed.** -/
theorem pairs_close (tags : List τ) (keys : List κ) (l : Ledger τ κ) :
    pairs (close tags keys l) = (pairs l).filter fun p => ¬(p.1 ∈ tags ∧ p.2 ∈ keys) := by
  unfold close
  rw [pairs_filter_nonempty]
  induction l with
  | nil => rfl
  | cons r l ih =>
    rw [map_cons, pairs_cons, pairs_cons, filter_append, ← ih, filter_map]
    by_cases ht : r.1 ∈ tags
    · have hkeys : r.2.filter ((fun p : τ × κ => decide ¬(p.1 ∈ tags ∧ p.2 ∈ keys)) ∘
          fun k => (r.1, k)) = r.2.filter (· ∉ keys) := filter_congr fun k _ => by simp [ht]
      rw [if_pos ht, hkeys]
    · have hkeys : r.2.filter ((fun p : τ × κ => decide ¬(p.1 ∈ tags ∧ p.2 ∈ keys)) ∘
          fun k => (r.1, k)) = r.2 := filter_eq_self.mpr fun k _ => by simp [ht]
      rw [if_neg ht, hkeys]

theorem countP_close_le {p : τ × List κ → Bool}
    (hp : ∀ r ks, ks.Sublist r.2 → p (r.1, ks) = true → p r = true) :
    (close tags keys l).countP p ≤ l.countP p := by
  refine Nat.le_trans filter_sublist.countP_le ?_
  rw [countP_map]
  refine countP_mono_left fun r _ hr => ?_
  rw [Function.comp_apply] at hr
  split at hr
  · exact hp r _ filter_sublist hr
  · exact hr

theorem close_eq_self (h : ∀ r ∈ l, r.1 ∉ tags ∧ r.2 ≠ []) : close tags keys l = l := by
  have hmap : (l.map fun r => if r.1 ∈ tags then (r.1, r.2.filter (· ∉ keys)) else r) = l :=
    (map_congr_left fun r hr => if_neg (h r hr).1).trans (map_id' l)
  unfold close
  rw [hmap, filter_eq_self]
  intro r hr
  simp [(h r hr).2]

theorem nodup_close (tags : List τ) (keys : List κ) {q : Ledger τ κ} (h : (pairs (l ++ q)).Nodup) :
    (pairs (close tags keys l ++ q)).Nodup := by
  rw [pairs_append] at h
  rw [pairs_append, pairs_close]
  exact h.sublist (filter_sublist.append_right _)

/-- The pairs that an answer closes. -/
def closed (tags : List τ) (keys : List κ) (l : Ledger τ κ) : List (τ × κ) :=
  (pairs l).filter fun p => p.1 ∈ tags ∧ p.2 ∈ keys

theorem length_closed_add (tags : List τ) (keys : List κ) (l : Ledger τ κ) :
    (closed tags keys l).length + (pairs (close tags keys l)).length = (pairs l).length := by
  rw [pairs_close, closed, ← length_append]
  refine List.Perm.length_eq ?_
  have hnot : (fun p : τ × κ => decide ¬(p.1 ∈ tags ∧ p.2 ∈ keys)) =
      fun p => !decide (p.1 ∈ tags ∧ p.2 ∈ keys) := by
    funext p
    exact decide_not
  rw [hnot]
  exact filter_append_perm _ _

/-- **An answer closes no more requests than pairs.** -/
theorem length_le_close_add_closed (tags : List τ) (keys : List κ) (hne : ∀ r ∈ l, r.2 ≠ []) :
    l.length ≤ (close tags keys l).length + (closed tags keys l).length := by
  induction l with
  | nil => exact Nat.zero_le _
  | cons r l ih =>
    have hl := ih (forall_mem_cons.mp hne).2
    have hclosed : closed tags keys (r :: l) = closed tags keys [r] ++ closed tags keys l := by
      unfold closed
      rw [pairs_cons, filter_append]
      congr 2
      exact (append_nil _).symm
    have hclose : close tags keys (r :: l) = close tags keys [r] ++ close tags keys l := by
      unfold close
      rw [map_cons, ← singleton_append, filter_append]
      rfl
    -- a request is still open, or has lost a pair
    have hone : 1 ≤ (close tags keys [r]).length + (closed tags keys [r]).length := by
      by_contra hnone
      have hzero : (closed tags keys [r]).length = 0 := by omega
      have hsum := length_closed_add tags keys [r]
      have hopen : close tags keys [r] = [] := length_eq_zero_iff.mp (by omega)
      rw [hopen, hzero, pairs_cons, length_append, length_map] at hsum
      have hr := length_pos_of_ne_nil (hne r mem_cons_self)
      omega
    rw [hclosed, hclose, length_append, length_append, length_cons]
    omega

theorem length_closed_le (tags : List τ) (keys : List κ) (hnodup : (pairs l).Nodup) :
    (closed tags keys l).length ≤ tags.length * keys.length := by
  have hsub : closed tags keys l ⊆ tags ×ˢ keys := by
    intro p hp
    have := of_decide_eq_true (mem_filter.mp hp).2
    exact pair_mem_product.mpr this
  have := ((hnodup.filter _).subperm hsub).length_le
  rwa [length_product] at this

/-- **The bound on what an answer closes**: one request for each tag and key. -/
theorem length_le_close (tags : List τ) (keys : List κ) (hne : ∀ r ∈ l, r.2 ≠ [])
    (hnodup : (pairs l).Nodup) :
    l.length ≤ (close tags keys l).length + tags.length * keys.length := by
  have h₁ := length_le_close_add_closed tags keys hne
  have h₂ := length_closed_le tags keys hnodup
  omega

/-- **What an answer closes exactly**, when each request has one key: one
    request for each key and each of the tags it is open on. -/
theorem length_close (ts : List τ) (hone : ∀ r ∈ l, ∃ k, r.2 = [k]) (hnodup : (pairs l).Nodup)
    (hts : ts.Nodup) (hkeys : keys.Nodup) (hopen : ∀ t ∈ ts, ∀ k ∈ keys, (t, k) ∈ pairs l)
    (htags : ∀ t ∈ ts, t ∈ tags) (honly : ∀ t k, (t, k) ∈ pairs l → t ∈ tags → t ∈ ts) :
    (close tags keys l).length + ts.length * keys.length = l.length := by
  have hclosed : (closed tags keys l).Perm (ts ×ˢ keys) := by
    refine (perm_ext_iff_of_nodup (hnodup.filter _) (hts.product hkeys)).mpr ?_
    rintro ⟨t, k⟩
    rw [mem_filter, decide_eq_true_iff]
    constructor
    · rintro ⟨hmem, ht, hk⟩
      exact pair_mem_product.mpr ⟨honly t k hmem ht, hk⟩
    · intro hmem
      obtain ⟨ht, hk⟩ := pair_mem_product.mp hmem
      exact ⟨hopen t ht k hk, htags t ht, hk⟩
  have hsum := length_closed_add tags keys l
  rw [hclosed.length_eq, length_product, length_pairs hone,
    length_pairs (close_one hone)] at hsum
  omega

end Close

end Ledger

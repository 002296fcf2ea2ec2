import Mathlib.Algebra.BigOperators.Group.Finset.Basic
import Noria.Framework.AssocMap

/-! # Sets over a key equality, and loops over a map

  A hash set is a hash map without values. What is added here to `AssocMap` is what loops over sets
  and maps need: keeping some of the entries (`retain`), changing every value in place
  (`updateAll`), and how many entries a map has when its keys come from a finite set.
-/

/-- A key equality that compares something else for equality. -/
theorem EquivBEq.of_iff {κ β : Type*} [BEq κ] (f : κ → β)
    (h : ∀ a b : κ, (a == b) = true ↔ f a = f b) : EquivBEq κ where
  rfl := (h _ _).mpr rfl
  symm hab := (h _ _).mpr ((h _ _).mp hab).symm
  trans hab hbc := (h _ _).mpr (((h _ _).mp hab).trans ((h _ _).mp hbc))

namespace AssocMap

open List

variable {κ : Type*} {ν : Type*} [BEq κ]

/-- Change every value, in place; `none` where one of the changes panics. -/
def updateAll (m : AssocMap κ ν) (f : κ → ν → Option ν) : Option (AssocMap κ ν) :=
  m.entries.foldlM (fun m e => (f e.1 e.2).map (m.insert e.1)) m

theorem contains_eq (m : AssocMap κ ν) (k : κ) : m.contains k = (m.get? k).isSome := rfl

theorem entries_eq_nil_iff [EquivBEq κ] (m : AssocMap κ ν) :
    m.entries = [] ↔ ∀ k, m.get? k = none := by
  constructor
  · intro h k
    rw [get?, h]
    rfl
  · intro h
    rw [eq_nil_iff_forall_not_mem]
    intro e he
    have hget := m.get?_of_mem he
    rw [h] at hget
    cases hget

section Equiv

variable [EquivBEq κ]

/-- The loop of `updateAll` over some of the entries: it changes their values and no other. -/
theorem foldlM_insert_get? {f : κ → ν → Option ν} {l : List (κ × ν)} {m m' : AssocMap κ ν}
    (hdistinct : l.Pairwise fun a b => (a.1 == b.1) = false)
    (h : l.foldlM (fun m e => (f e.1 e.2).map (m.insert e.1)) m = some m') :
    (∀ e ∈ l, m'.get? e.1 = f e.1 e.2) ∧
      ∀ k, (∀ e ∈ l, (e.1 == k) = false) → m'.get? k = m.get? k := by
  induction l generalizing m with
  | nil =>
    rw [foldlM_nil, Option.pure_def, Option.some.injEq] at h
    subst h
    simp
  | cons a l ih =>
    rw [pairwise_cons] at hdistinct
    obtain ⟨m₁, hm₁, h⟩ := Option.bind_eq_some_iff.mp h
    rw [Option.map_eq_some_iff] at hm₁
    obtain ⟨v, hv, rfl⟩ := hm₁
    obtain ⟨hin, hout⟩ := ih hdistinct.2 h
    refine ⟨fun e he => ?_, fun k hk => ?_⟩
    · rcases mem_cons.mp he with rfl | he
      · -- the later changes are to other keys
        rw [hout e.1 fun e' he' => ?_, get?_insert_self, hv]
        rw [BEq.comm]
        exact hdistinct.1 e' he'
      · exact hin e he
    · rw [hout k (forall_mem_cons.mp hk).2, get?_insert, hk a mem_cons_self]
      rfl

/-- **`updateAll` changes each value by itself.** -/
theorem get?_updateAll {f : κ → ν → Option ν} {m m' : AssocMap κ ν}
    (hf : ∀ k k' v, (k == k') = true → f k v = f k' v) (h : m.updateAll f = some m') (k : κ) :
    m'.get? k = (m.get? k).bind (f k) := by
  obtain ⟨hin, hout⟩ := foldlM_insert_get? m.distinct h
  cases hk : m.get? k with
  | none =>
    rw [Option.bind_none, hout k fun e he => ?_, hk]
    rw [Bool.eq_false_iff]
    intro heq
    have hget := m.get?_of_mem he
    rw [m.get?_congr heq, hk] at hget
    cases hget
  | some v =>
    obtain ⟨k₀, hk₀, hmem⟩ := m.mem_of_get? hk
    rw [Option.bind_some, ← m'.get?_congr hk₀, hin _ hmem]
    exact hf _ _ _ hk₀

theorem updateAll_isSome {f : κ → ν → Option ν} {m : AssocMap κ ν}
    (h : ∀ k v, m.get? k = some v → ∃ w, f k v = some w) : ∃ m', m.updateAll f = some m' := by
  have hmem : ∀ e ∈ m.entries, ∃ w, f e.1 e.2 = some w := fun e he => h _ _ (m.get?_of_mem he)
  unfold updateAll
  generalize m.entries = l at hmem
  clear h
  induction l generalizing m with
  | nil => exact ⟨m, rfl⟩
  | cons a l ih =>
    obtain ⟨w, hw⟩ := hmem a mem_cons_self
    obtain ⟨m', hm'⟩ := ih (m := m.insert a.1 w) (forall_mem_cons.mp hmem).2
    refine ⟨m', ?_⟩
    rw [foldlM_cons, hw]
    exact hm'

end Equiv

/-! ## Counting entries -/

section Count

variable [DecidableEq κ] [LawfulBEq κ]

def keys (m : AssocMap κ ν) : Finset κ := (m.entries.map Prod.fst).toFinset

theorem mem_keys (m : AssocMap κ ν) (k : κ) : k ∈ m.keys ↔ (m.get? k).isSome = true := by
  unfold keys
  rw [mem_toFinset, mem_map]
  constructor
  · rintro ⟨e, he, rfl⟩
    rw [m.get?_of_mem he]
    rfl
  · intro h
    obtain ⟨v, hv⟩ := Option.isSome_iff_exists.mp h
    obtain ⟨k₀, hk₀, hmem⟩ := m.mem_of_get? hv
    exact ⟨(k₀, v), hmem, eq_of_beq hk₀⟩

theorem card_keys (m : AssocMap κ ν) : m.keys.card = m.entries.length := by
  unfold keys
  rw [toFinset_card_of_nodup, length_map]
  refine pairwise_map.mpr (m.distinct.imp ?_)
  intro a b hab
  exact beq_eq_false_iff_ne.mp hab

theorem sum_entries {M : Type*} [AddCommMonoid M] (m : AssocMap κ ν) (f : κ × ν → M)
    {g : κ → M} (h : ∀ e ∈ m.entries, f e = g e.1) : (m.entries.map f).sum = ∑ k ∈ m.keys, g k := by
  have hnodup : (m.entries.map Prod.fst).Nodup :=
    pairwise_map.mpr (m.distinct.imp fun hab => beq_eq_false_iff_ne.mp hab)
  rw [keys, sum_toFinset g hnodup, map_map, map_congr_left h]
  rfl

theorem length_eq_pred_iff (m : AssocMap κ ν) {P : Finset κ} {k : κ} (hk : k ∈ P)
    (hnone : m.get? k = none) (hP : ∀ k', (m.get? k').isSome = true → k' ∈ P) :
    m.entries.length = P.card - 1 ↔ ∀ k' ∈ P, k' ≠ k → (m.get? k').isSome = true := by
  have hsub : m.keys ⊆ P.erase k := by
    intro k' hk'
    rw [mem_keys] at hk'
    refine Finset.mem_erase.mpr ⟨?_, hP k' hk'⟩
    rintro rfl
    rw [hnone] at hk'
    cases hk'
  rw [← card_keys, ← Finset.card_erase_of_mem hk]
  constructor
  · intro hcard k' hk' hne
    have heq := Finset.eq_of_subset_of_card_le hsub hcard.ge
    rw [← mem_keys, heq]
    exact Finset.mem_erase.mpr ⟨hne, hk'⟩
  · intro hall
    refine congrArg Finset.card (hsub.antisymm ?_)
    intro k' hk'
    obtain ⟨hne, hk'⟩ := Finset.mem_erase.mp hk'
    exact (mem_keys m k').mpr (hall k' hk' hne)

end Count

end AssocMap

/-! ## Sets -/

/-- A hash set: a map without values. -/
abbrev KeySet (κ : Type*) [BEq κ] := AssocMap κ Unit

namespace KeySet

variable {κ : Type*} [BEq κ]

def elems (s : KeySet κ) : List κ := s.entries.map Prod.fst

/-- Add an element; the first of equal elements stays. -/
def add (s : KeySet κ) (k : κ) : KeySet κ := s.insert k ()

theorem elems_distinct (s : KeySet κ) : s.elems.Pairwise fun a b => (a == b) = false :=
  List.pairwise_map.mpr s.distinct

section Equiv

variable [EquivBEq κ]

theorem contains_iff (s : KeySet κ) (k : κ) :
    s.contains k = true ↔ ∃ k₀ ∈ s.elems, (k₀ == k) = true := by
  rw [AssocMap.contains_eq, Option.isSome_iff_exists]
  constructor
  · rintro ⟨v, hv⟩
    obtain ⟨k₀, hk₀, hmem⟩ := s.mem_of_get? hv
    exact ⟨k₀, List.mem_map_of_mem hmem, hk₀⟩
  · rintro ⟨k₀, hmem, hk₀⟩
    obtain ⟨e, he, rfl⟩ := List.mem_map.mp hmem
    exact ⟨e.2, by rw [← s.get?_congr hk₀, s.get?_of_mem he]⟩

theorem contains_of_mem (s : KeySet κ) {k : κ} (h : k ∈ s.elems) : s.contains k = true :=
  (s.contains_iff k).mpr ⟨k, h, BEq.rfl⟩

theorem contains_congr (s : KeySet κ) {k k' : κ} (h : (k == k') = true) :
    s.contains k = s.contains k' := by
  rw [AssocMap.contains_eq, AssocMap.contains_eq, s.get?_congr h]

theorem contains_add (s : KeySet κ) (k k' : κ) :
    (s.add k).contains k' = (k == k' || s.contains k') := by
  rw [AssocMap.contains_eq, AssocMap.contains_eq, add, AssocMap.get?_insert]
  by_cases h : (k == k') = true
  · simp [h]
  · simp [h]

theorem elems_add (s : KeySet κ) {k : κ} (h : ∀ k₀ ∈ s.elems, (k₀ == k) = false) :
    (s.add k).elems = s.elems ++ [k] := by
  have hnone : s.get? k = none := by
    rw [← Option.not_isSome_iff_eq_none, ← AssocMap.contains_eq, s.contains_iff]
    rintro ⟨k₀, hmem, hk₀⟩
    rw [h k₀ hmem] at hk₀
    cases hk₀
  rw [elems, add, AssocMap.entries_insert, hnone]
  simp [elems]

theorem elems_foldl_add {l : List κ} (hl : l.Pairwise fun a b => (a == b) = false)
    (s : KeySet κ) (hs : ∀ k₀ ∈ s.elems, ∀ k ∈ l, (k₀ == k) = false) :
    (l.foldl add s).elems = s.elems ++ l := by
  induction l generalizing s with
  | nil => exact (List.append_nil _).symm
  | cons k l ih =>
    rw [List.pairwise_cons] at hl
    have hadd := s.elems_add fun k₀ hk₀ => hs k₀ hk₀ k List.mem_cons_self
    rw [List.foldl_cons, ih hl.2, hadd, List.append_assoc]
    · rfl
    · intro k₀ hk₀ k' hk'
      rw [hadd, List.mem_append, List.mem_singleton] at hk₀
      rcases hk₀ with hk₀ | rfl
      · exact hs k₀ hk₀ k' (List.mem_cons_of_mem _ hk')
      · exact hl.1 k' hk'

end Equiv

end KeySet

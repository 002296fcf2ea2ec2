import Mathlib.Algebra.GroupWithZero.Nat
import Mathlib.Data.List.Pairwise
import Mathlib.Data.List.Perm.Basic

/-! # Finite maps over a key equality

  A hash map seen from outside: one entry per key, where two keys are the same when `==` says so.
  The key equality only has to be an equivalence (`EquivBEq`), so several representations of one key
  may exist; the map then keeps the representation it saw first, as hash maps with an `entry`
  interface do.

  The entries are a list. Their order is the order of first insertion; no lemma below lets a proof
  depend on it other than through `List.Perm`.
-/

/-- A finite map: a list of entries with pairwise different keys. -/
structure AssocMap (κ : Type*) (ν : Type*) [BEq κ] where
  entries : List (κ × ν)
  distinct : entries.Pairwise fun a b => (a.1 == b.1) = false

namespace AssocMap

open List

variable {κ : Type*} {ν : Type*} [BEq κ]

def empty : AssocMap κ ν := ⟨[], .nil⟩

instance : EmptyCollection (AssocMap κ ν) := ⟨empty⟩

def get? (m : AssocMap κ ν) (k : κ) : Option ν :=
  (m.entries.find? fun e => e.1 == k).map Prod.snd

def contains (m : AssocMap κ ν) (k : κ) : Bool :=
  (m.get? k).isSome

def erase (m : AssocMap κ ν) (k : κ) : AssocMap κ ν where
  entries := m.entries.filter fun e => !(e.1 == k)
  distinct := m.distinct.filter _

def replaceIn (k : κ) (v : ν) (l : List (κ × ν)) : List (κ × ν) :=
  l.map fun e => if e.1 == k then (e.1, v) else e

theorem replaceIn_distinct (k : κ) (v : ν) {l : List (κ × ν)}
    (h : l.Pairwise fun a b => (a.1 == b.1) = false) :
    (replaceIn k v l).Pairwise fun a b => (a.1 == b.1) = false := by
  unfold replaceIn
  rw [pairwise_map]
  refine h.imp ?_
  intro a b hab
  split <;> split <;> exact hab

theorem append_distinct {k : κ} (v : ν) {l : List (κ × ν)}
    (h : l.Pairwise fun a b => (a.1 == b.1) = false)
    (hk : l.find? (fun e => e.1 == k) = none) :
    (l ++ [(k, v)]).Pairwise fun a b => (a.1 == b.1) = false := by
  rw [pairwise_append]
  refine ⟨h, pairwise_singleton _ _, ?_⟩
  intro a ha b hb
  rw [mem_singleton] at hb
  subst hb
  simpa using find?_eq_none.mp hk a ha

/-- Set the value of a key. An existing entry keeps its key. -/
def insert (m : AssocMap κ ν) (k : κ) (v : ν) : AssocMap κ ν :=
  match h : m.entries.find? (fun e => e.1 == k) with
  | some _ => ⟨replaceIn k v m.entries, replaceIn_distinct k v m.distinct⟩
  | none => ⟨m.entries ++ [(k, v)], append_distinct v m.distinct h⟩

@[simp] theorem get?_empty (k : κ) : (∅ : AssocMap κ ν).get? k = none := rfl

@[simp] theorem entries_empty : (∅ : AssocMap κ ν).entries = [] := rfl

theorem entries_insert (m : AssocMap κ ν) (k : κ) (v : ν) :
    (m.insert k v).entries = match m.get? k with
      | some _ => replaceIn k v m.entries
      | none => m.entries ++ [(k, v)] := by
  unfold insert get?
  split <;> rename_i h <;> simp [h]

theorem mem_of_get? (m : AssocMap κ ν) {k : κ} {v : ν} (h : m.get? k = some v) :
    ∃ k₀, (k₀ == k) = true ∧ (k₀, v) ∈ m.entries := by
  unfold get? at h
  rw [Option.map_eq_some_iff] at h
  obtain ⟨⟨k₀, v₀⟩, hf, rfl⟩ := h
  have hk := find?_some hf
  exact ⟨k₀, hk, mem_of_find?_eq_some hf⟩

theorem key_of_mem_insert (m : AssocMap κ ν) {k : κ} {v : ν} {e : κ × ν}
    (he : e ∈ (m.insert k v).entries) : e.1 = k ∨ ∃ e₀ ∈ m.entries, e₀.1 = e.1 := by
  rw [entries_insert] at he
  cases hk : m.get? k with
  | some w =>
    simp only [hk, replaceIn, mem_map] at he
    obtain ⟨e₀, he₀, rfl⟩ := he
    exact .inr ⟨e₀, he₀, by split <;> rfl⟩
  | none =>
    simp only [hk, mem_append, mem_singleton] at he
    rcases he with he | rfl
    · exact .inr ⟨e, he, rfl⟩
    · exact .inl rfl

/-! ### A count over all entries -/

/-- The sum of `f` over the stored values. -/
def total (f : ν → Nat) (m : AssocMap κ ν) : Nat := (m.entries.map fun e => f e.2).sum

@[simp] theorem total_empty (f : ν → Nat) : total f (∅ : AssocMap κ ν) = 0 := rfl

theorem total_insert_of_none (f : ν → Nat) {m : AssocMap κ ν} {k : κ} (h : m.get? k = none)
    (w : ν) : total f (m.insert k w) = total f m + f w := by
  unfold total
  rw [entries_insert, h]
  simp

theorem total_erase_le (f : ν → Nat) (m : AssocMap κ ν) (k : κ) :
    total f (m.erase k) ≤ total f m := by
  show ((m.entries.filter fun e => !(e.1 == k)).map fun e => f e.2).sum ≤ _
  unfold total
  induction m.entries with
  | nil => exact Nat.le_refl _
  | cons e l ih =>
    rw [filter_cons, map_cons, sum_cons]
    split
    · rw [map_cons, sum_cons]
      omega
    · omega

section Equiv

variable [EquivBEq κ]

theorem get?_congr (m : AssocMap κ ν) {k k' : κ} (h : (k == k') = true) : m.get? k = m.get? k' := by
  unfold get?
  congr 2
  funext e
  exact BEq.congr_right h

theorem find?_replaceIn (k k' : κ) (v : ν) (l : List (κ × ν)) :
    ((replaceIn k v l).find? fun e => e.1 == k').map Prod.snd =
      if k == k' then ((l.find? fun e => e.1 == k').map fun _ => v)
      else (l.find? fun e => e.1 == k').map Prod.snd := by
  induction l with
  | nil => simp [replaceIn]
  | cons e l ih =>
    simp only [replaceIn, map_cons, find?_cons] at ih ⊢
    by_cases hk : e.1 == k
    · have hkk : (e.1 == k') = (k == k') := BEq.congr_left hk
      by_cases hk' : k == k'
      · simp [hk, hkk, hk']
      · simp only [hk, ite_true, hkk, hk']
        simpa [hk'] using ih
    · by_cases hk' : e.1 == k'
      · have hkk : (k == k') = false := by
          rw [Bool.eq_false_iff]
          intro h
          exact hk (BEq.trans hk' (BEq.symm h))
        simp [hk, hk', hkk]
      · simpa [hk, hk'] using ih

theorem get?_insert (m : AssocMap κ ν) (k k' : κ) (v : ν) :
    (m.insert k v).get? k' = if k == k' then some v else m.get? k' := by
  unfold get?
  rw [entries_insert]
  by_cases hkk : k == k'
  · have hc := m.get?_congr hkk
    cases hk : m.get? k with
    | some w =>
      simp only [find?_replaceIn, hkk, if_true]
      rw [hk] at hc
      cases hf : m.entries.find? (fun e => e.1 == k') with
      | some e => rfl
      | none => simp [get?, hf] at hc
    | none =>
      rw [hk] at hc
      have hf : m.entries.find? (fun e => e.1 == k') = none := by
        simpa [get?] using hc.symm
      simp [find?_append, hf, hkk]
  · cases hk : m.get? k with
    | some w => simp [find?_replaceIn, hkk]
    | none =>
      simp only [find?_append, find?_cons, hkk, find?_nil]
      cases m.entries.find? (fun e => e.1 == k') <;> simp

theorem get?_erase (m : AssocMap κ ν) (k k' : κ) :
    (m.erase k).get? k' = if k == k' then none else m.get? k' := by
  unfold get? erase
  simp only [find?_filter]
  by_cases hkk : k == k'
  · rw [find?_eq_none.mpr]
    · simp [hkk]
    · intro e _ he
      rw [decide_eq_true_iff, Bool.not_eq_true'] at he
      have : (e.1 == k) = true := BEq.trans he.2 (BEq.symm hkk)
      simp [this] at he
  · have hsame : (fun e : κ × ν => decide ((!(e.1 == k)) = true ∧ (e.1 == k') = true)) =
        fun e => e.1 == k' := by
      funext e
      by_cases he : e.1 == k'
      · have : (e.1 == k) = false := by
          rw [Bool.eq_false_iff]
          intro h
          exact hkk (BEq.trans (BEq.symm h) he)
        simp [he, this]
      · simp [he]
    rw [hsame, if_neg hkk]

theorem contains_insert (m : AssocMap κ ν) (k k' : κ) (v : ν) :
    (m.insert k v).contains k' = (k == k' || m.contains k') := by
  rw [contains, contains, get?_insert]
  split
  · next h => rw [h, Bool.true_or, Option.isSome_some]
  · next h => rw [Bool.eq_false_iff.mpr h, Bool.false_or]

@[simp] theorem get?_insert_self (m : AssocMap κ ν) (k : κ) (v : ν) :
    (m.insert k v).get? k = some v := by
  simp [get?_insert]

theorem get?_of_mem (m : AssocMap κ ν) {e : κ × ν} (he : e ∈ m.entries) :
    m.get? e.1 = some e.2 := by
  obtain ⟨l, hd⟩ := m
  unfold get?
  induction l with
  | nil => cases he
  | cons a l ih =>
    rw [pairwise_cons] at hd
    rcases mem_cons.mp he with rfl | he
    · simp
    · have hne : (a.1 == e.1) = false := hd.1 e he
      rw [find?_cons, hne]
      exact ih hd.2 he

theorem exists_split (m : AssocMap κ ν) {k : κ} {v : ν} (h : m.get? k = some v) :
    ∃ k₀ rest, (k₀ == k) = true ∧ (∀ e ∈ rest, (e.1 == k) = false) ∧
      m.entries.Perm ((k₀, v) :: rest) ∧
      (∀ w, (m.insert k w).entries.Perm ((k₀, w) :: rest)) ∧ (m.erase k).entries.Perm rest := by
  obtain ⟨k₀, hk₀, hmem⟩ := m.mem_of_get? h
  obtain ⟨pre, post, hl⟩ := append_of_mem hmem
  have hd := m.distinct
  rw [hl, pairwise_append, pairwise_cons] at hd
  obtain ⟨_, ⟨hpost, _⟩, hpre⟩ := hd
  -- No other entry has the key: it would clash with `k₀`.
  have hpre' : ∀ e ∈ pre, (e.1 == k) = false := by
    intro e he
    have hne := hpre e he (k₀, v) mem_cons_self
    rw [← BEq.congr_right hk₀]
    exact hne
  have hpost' : ∀ e ∈ post, (e.1 == k) = false := by
    intro e he
    have hne := hpost e he
    rw [BEq.congr_left hk₀] at hne
    rw [Bool.eq_false_iff] at hne ⊢
    exact fun h => hne (BEq.symm h)
  have hsame : ∀ (w : ν) (l : List (κ × ν)), (∀ e ∈ l, (e.1 == k) = false) →
      replaceIn k w l = l := by
    intro w l hl
    unfold replaceIn
    rw [map_congr_left (g := id), map_id]
    intro e he
    simp [hl e he]
  refine ⟨k₀, pre ++ post, hk₀, ?_, ?_, ?_, ?_⟩
  · intro e he
    rcases mem_append.mp he with he | he
    · exact hpre' e he
    · exact hpost' e he
  · rw [hl]
    exact perm_middle
  · intro w
    rw [entries_insert, h, hl]
    have : replaceIn k w (pre ++ (k₀, v) :: post) = pre ++ (k₀, w) :: post := by
      rw [replaceIn, map_append, map_cons, ← replaceIn, ← replaceIn,
        hsame w pre hpre', hsame w post hpost']
      simp [hk₀]
    rw [this]
    exact perm_middle
  · unfold erase
    simp only [hl, filter_append, filter_cons, hk₀]
    rw [filter_eq_self.mpr, filter_eq_self.mpr]
    · exact .refl _
    · intro e he
      simp [hpost' e he]
    · intro e he
      simp [hpre' e he]

theorem mem_insert (m : AssocMap κ ν) {k : κ} {v : ν} {e : κ × ν}
    (he : e ∈ (m.insert k v).entries) :
    (e.1 == k) = true ∧ e.2 = v ∨ e ∈ m.entries ∧ (e.1 == k) = false := by
  cases hk : m.get? k with
  | some w =>
    obtain ⟨k₀, rest, hk₀, hrest, hperm, hins, -⟩ := m.exists_split hk
    rcases mem_cons.mp ((hins v).mem_iff.mp he) with rfl | he
    · exact .inl ⟨hk₀, rfl⟩
    · exact .inr ⟨hperm.mem_iff.mpr (mem_cons_of_mem _ he), hrest e he⟩
  | none =>
    rw [entries_insert, hk] at he
    rcases mem_append.mp he with he | he
    · refine .inr ⟨he, Bool.eq_false_iff.mpr fun heq => ?_⟩
      rw [← m.get?_congr heq, m.get?_of_mem he] at hk
      cases hk
    · rw [mem_singleton.mp he]
      exact .inl ⟨BEq.rfl, rfl⟩

theorem perm_cons_erase (m : AssocMap κ ν) {e : κ × ν} (he : e ∈ m.entries) :
    m.entries.Perm (e :: (m.erase e.1).entries) := by
  obtain ⟨k₀, rest, -, hrest, hperm, -, herase⟩ := m.exists_split (m.get?_of_mem he)
  rcases mem_cons.mp (hperm.mem_iff.mp he) with heq | hmem
  · rw [← heq] at hperm
    exact hperm.trans (herase.symm.cons e)
  · have hne := hrest e hmem
    rw [BEq.rfl] at hne
    cases hne

theorem perm_foldl_erase {chosen rest : List (κ × ν)} (m : AssocMap κ ν)
    (h : m.entries.Perm (chosen ++ rest)) :
    (chosen.foldl (fun m e => m.erase e.1) m).entries.Perm rest := by
  induction chosen generalizing m with
  | nil => exact h
  | cons e chosen ih =>
    have he : e ∈ m.entries := h.mem_iff.mpr mem_cons_self
    exact ih (m.erase e.1) (((m.perm_cons_erase he).symm.trans h).cons_inv)

theorem total_insert_of_some (f : ν → Nat) {m : AssocMap κ ν} {k : κ} {v : ν}
    (h : m.get? k = some v) (w : ν) : total f (m.insert k w) + f v = total f m + f w := by
  obtain ⟨k₀, rest, -, -, hperm, hins, -⟩ := m.exists_split h
  have hold := (hperm.map fun e : κ × ν => f e.2).sum_nat
  have hnew := ((hins w).map fun e : κ × ν => f e.2).sum_nat
  simp only [map_cons, sum_cons] at hold hnew
  unfold total
  omega

theorem total_erase_of_some (f : ν → Nat) {m : AssocMap κ ν} {k : κ} {v : ν}
    (h : m.get? k = some v) : total f (m.erase k) + f v = total f m := by
  obtain ⟨k₀, rest, -, -, hperm, -, herase⟩ := m.exists_split h
  have hold := (hperm.map fun e : κ × ν => f e.2).sum_nat
  have hnew := (herase.map fun e : κ × ν => f e.2).sum_nat
  simp only [map_cons, sum_cons] at hold
  unfold total
  omega

theorem total_eq_zero_iff (f : ν → Nat) (m : AssocMap κ ν) :
    total f m = 0 ↔ ∀ k v, m.get? k = some v → f v = 0 := by
  have hsum : total f m = 0 ↔ ∀ e ∈ m.entries, f e.2 = 0 := by
    unfold total
    induction m.entries with
    | nil => simp
    | cons e l ih => simp [ih]
  rw [hsum]
  constructor
  · intro h k v hget
    obtain ⟨k₀, -, hmem⟩ := m.mem_of_get? hget
    exact h (k₀, v) hmem
  · intro h e he
    exact h e.1 e.2 (m.get?_of_mem he)

end Equiv

end AssocMap

import Mathlib.Algebra.BigOperators.Group.List.Basic
import Mathlib.Algebra.Ring.Nat
import Mathlib.Data.List.TakeWhile

/-! # The shares of an eviction

  A `Packet::Evict` without a node spreads the bytes over the largest nodes (`domain/mod.rs`,
  `handle_eviction`): the three largest that are not tiny, each of which gives at most half of what
  it has, and the largest the rest.

  The shares are rounded up by `(num_bytes + n - 1) / n`, whose sum wraps if
  there are `n` nodes and no room for `n` more bytes. The loop over the nodes
  still comes to its end, but a build that checks for overflow panics.
-/

namespace Noria.Server.Domain

open List Option

variable {ν : Type}

/-! ## The code -/

/-- `-1 * (s as i64)`, by which the candidates are sorted. -/
def sortKey (s : Nat) : Int := -1 * if s < 2 ^ 63 then (s : Int) else s - 2 ^ 64

/-- The nodes to evict from, of sorted candidates. -/
def chooseNodes (candidates : List (ν × Nat)) : List (ν × Nat) :=
  match candidates.take 3 with
  | [] => []
  | c :: rest =>
    -- everything beyond a tiny node is smaller, so also too small
    match (c :: rest).findIdx? fun d => d.2 < c.2 / 10 with
    | some too_small_i => (c :: rest).take too_small_i
    | none => c :: rest

/-- `num_bytes + n - 1` on 64 bits; `none` is the panic of a build with overflow checks. -/
def roundUp (checks : Bool) (num_bytes n : Nat) : Option Nat :=
  if num_bytes + n < 2 ^ 64 then some (num_bytes + n - 1)
  else if checks then none
  else some (((num_bytes + n) % 2 ^ 64 + (2 ^ 64 - 1)) % 2 ^ 64)

/-- The loop over the nodes, from the smallest on; `none` is a panic or an
    underflow of `num_bytes`. -/
def spread (checks : Bool) : Nat → List (ν × Nat) → Option (List (ν × Nat))
  | _, [] => some []
  | num_bytes, (node, size) :: rest => do
    let n := rest.length + 1
    let sum ← roundUp checks num_bytes n
    let share := sum / n
    let size ←
      if 1 < n then some (min (size / 2) share)
      else if share = num_bytes then some share else none
    let rest ← if size ≤ num_bytes then spread checks (num_bytes - size) rest else none
    some ((node, size) :: rest)

/-- The bytes to evict from each node. -/
def evictionShares (checks : Bool) (num_bytes : Nat) (candidates : List (ν × Nat)) :
    Option (List (ν × Nat)) :=
  (spread checks num_bytes (chooseNodes candidates).reverse).map reverse

/-- The nodes of a `Packet::Evict`, and how much to free in each. -/
def evictTargets (checks : Bool) (node : Option ν) (num_bytes : Nat) (candidates : List (ν × Nat)) :
    Option (List (ν × Nat)) :=
  match node with
  | some node => some [(node, num_bytes)]
  | none => evictionShares checks num_bytes candidates

/-- The chosen nodes are few and not tiny, give at most half of what they
    have unless they are the largest, and give all that is asked for. -/
structure Shares (num_bytes : Nat) (candidates shares : List (ν × Nat)) : Prop where
  nodes : shares.map Prod.fst = (chooseNodes candidates).map Prod.fst
  few : shares.length ≤ 3
  large : ∀ c ∈ chooseNodes candidates, ∀ d ∈ candidates, d.2 / 10 ≤ c.2
  half : ∀ p ∈ ((chooseNodes candidates).zip shares).tail, p.2.2 ≤ p.1.2 / 2
  total : candidates ≠ [] → (shares.map Prod.snd).sum = num_bytes

/-! ## The chosen nodes -/

/-- The candidates stand in descending order. -/
theorem le_of_sortKey {a b : Nat} (ha : a < 2 ^ 63) (hb : b < 2 ^ 63)
    (h : sortKey a ≤ sortKey b) : b ≤ a := by
  unfold sortKey at h
  omega

theorem take_findIdx? {α : Type} (p : α → Bool) (l : List α) :
    (match l.findIdx? p with
      | some i => l.take i
      | none => l) = l.takeWhile fun a => !p a := by
  induction l with
  | nil => rfl
  | cons a l ih =>
    rw [findIdx?_cons, takeWhile_cons]
    cases hp : p a with
    | true => rfl
    | false =>
      rw [← ih]
      cases l.findIdx? p <;> rfl

/-- The largest node is chosen, and those that are not tiny beside it. -/
theorem chooseNodes_cons (c : ν × Nat) (rest : List (ν × Nat)) : chooseNodes (c :: rest) =
      c :: (rest.take 2).takeWhile fun d => !decide (d.2 < c.2 / 10) := by
  have hlarge : ¬c.2 < c.2 / 10 := by omega
  have htake := take_findIdx? (fun d : ν × Nat => decide (d.2 < c.2 / 10)) (c :: rest.take 2)
  rw [takeWhile_cons, decide_eq_false hlarge] at htake
  exact htake

theorem length_chooseNodes_le (candidates : List (ν × Nat)) :
    (chooseNodes candidates).length ≤ 3 := by
  cases candidates with
  | nil => exact Nat.zero_le 3
  | cons c rest =>
    rw [chooseNodes_cons, length_cons]
    have hle :=
      (takeWhile_sublist (l := rest.take 2) fun d => !decide (d.2 < c.2 / 10)).length_le
    rw [length_take] at hle
    omega

theorem large_of_mem_chooseNodes {candidates : List (ν × Nat)}
    (hsorted : candidates.Pairwise fun a b => sortKey a.2 ≤ sortKey b.2)
    (hsize : ∀ c ∈ candidates, c.2 < 2 ^ 63) {c d : ν × Nat}
    (hc : c ∈ chooseNodes candidates) (hd : d ∈ candidates) : d.2 / 10 ≤ c.2 := by
  cases candidates with
  | nil => cases hd
  | cons top rest =>
    have htop : d.2 ≤ top.2 := by
      rcases mem_cons.mp hd with rfl | hrest
      · exact Nat.le_refl _
      · exact le_of_sortKey (hsize top (by simp)) (hsize d hd)
          ((pairwise_cons.mp hsorted).1 d hrest)
    have hlarge : top.2 / 10 ≤ c.2 := by
      rw [chooseNodes_cons] at hc
      rcases mem_cons.mp hc with rfl | hc
      · omega
      · simpa using mem_takeWhile_imp hc
    omega

/-! ## The loop -/

section Loop

variable {checks : Bool} {num_bytes : Nat}

/-- A share is never more than there is to give: where the sum wraps it is small, and for one node
    it wraps there and back. -/
theorem roundUp_share {n : Nat} (hpos : 0 < n) (hn : n ≤ 3) (hbytes : num_bytes < 2 ^ 64)
    (hchecks : checks = true → num_bytes + n < 2 ^ 64) :
    ∃ sum, roundUp checks num_bytes n = some sum ∧ sum / n ≤ num_bytes ∧
      (n = 1 → sum = num_bytes) := by
  have hcases : n = 1 ∨ n = 2 ∨ n = 3 := by omega
  unfold roundUp
  by_cases hlt : num_bytes + n < 2 ^ 64
  · rw [if_pos hlt]
    refine ⟨_, rfl, ?_, by omega⟩
    rcases hcases with rfl | rfl | rfl <;> omega
  · have hfalse : checks = false := by
      cases checks with
      | false => rfl
      | true => exact absurd (hchecks rfl) hlt
    rw [if_neg hlt, hfalse, if_neg Bool.false_ne_true]
    refine ⟨_, rfl, ?_, by omega⟩
    rcases hcases with rfl | rfl | rfl <;> omega

/-- A node gives at most half of what it has, or all that is left to give if it is the last one. -/
theorem spread_cons {c : ν × Nat} {rest : List (ν × Nat)} (hl : rest.length + 1 ≤ 3)
    (hbytes : num_bytes < 2 ^ 64)
    (hchecks : checks = true → num_bytes + (rest.length + 1) < 2 ^ 64) :
    ∃ give ≤ num_bytes, (rest ≠ [] → give ≤ c.2 / 2) ∧ (rest = [] → give = num_bytes) ∧
      spread checks num_bytes (c :: rest) =
        (spread checks (num_bytes - give) rest).map ((c.1, give) :: ·) := by
  obtain ⟨sum, hround, hshare, hone⟩ :=
    roundUp_share (Nat.succ_pos rest.length) hl hbytes hchecks
  cases rest with
  | nil =>
    refine ⟨num_bytes, Nat.le_refl _, fun h => absurd rfl h, fun _ => rfl, ?_⟩
    simp only [length_nil] at hround hone
    simp [spread, hround, hone]
  | cons next rest =>
    have hle := Nat.le_trans (Nat.min_le_right (c.2 / 2) _) hshare
    refine ⟨_, hle, fun _ => Nat.min_le_left _ _, by simp, ?_⟩
    rw [spread, hround]
    simp only [bind_eq_bind, bind_some]
    rw [if_pos (by simp), if_pos hle, map_eq_bind]
    rfl

/-- The remaining bytes are spread over the remaining nodes. -/
theorem spread_spec {l : List (ν × Nat)} (hl : l.length ≤ 3) (hbytes : num_bytes < 2 ^ 64)
    (hchecks : checks = true → num_bytes + l.length < 2 ^ 64) :
    ∃ shares, spread checks num_bytes l = some shares ∧ shares.map Prod.fst = l.map Prod.fst ∧
      (∀ p ∈ (l.zip shares).dropLast, p.2.2 ≤ p.1.2 / 2) ∧
      (l ≠ [] → (shares.map Prod.snd).sum = num_bytes) := by
  induction l generalizing num_bytes with
  | nil => exact ⟨[], rfl, rfl, by simp, fun h => absurd rfl h⟩
  | cons c rest ih =>
    rw [length_cons] at hl hchecks
    obtain ⟨give, hgive, hhalf, hlast, hspread⟩ := spread_cons (c := c) hl hbytes hchecks
    have hleft : num_bytes - give < 2 ^ 64 := by omega
    obtain ⟨shares, hshares, hnodes, hhalves, hsum⟩ :=
      ih (by omega) hleft (fun h => by have := hchecks h; omega)
    refine ⟨(c.1, give) :: shares, by rw [hspread, hshares]; rfl, by simp [hnodes], ?_, fun _ => ?_⟩
    · cases rest with
      | nil => simp
      | cons next rest =>
        obtain ⟨share, shares, rfl⟩ : ∃ share shares', shares = share :: shares' := by
          cases shares with
          | nil => cases hnodes
          | cons share shares => exact ⟨share, shares, rfl⟩
        intro p hp
        rcases mem_cons.mp hp with rfl | hp
        · exact hhalf (by simp)
        · exact hhalves p hp
    · rw [map_cons, sum_cons]
      by_cases hrest : rest = []
      · subst hrest
        have hnil : shares = [] := map_eq_nil_iff.mp hnodes
        simp [hnil, hlast rfl]
      · rw [hsum hrest]
        omega

/-- The loop panics where the first sum does not fit. -/
theorem spread_panics {l : List (ν × Nat)} (hl : l ≠ [])
    (hbytes : 2 ^ 64 ≤ num_bytes + l.length) : spread true num_bytes l = none := by
  obtain ⟨c, rest, rfl⟩ := exists_cons_of_ne_nil hl
  have hround : roundUp true num_bytes (rest.length + 1) = none := by
    rw [length_cons] at hbytes
    rw [roundUp, if_neg (by omega), if_pos rfl]
  rw [spread, hround]
  rfl

/-- **The targets can be chosen**, unless overflow is checked and the first sum does not fit. -/
theorem evictTargets_isSome_iff {candidates : List (ν × Nat)} (node : Option ν)
    (hbytes : num_bytes < 2 ^ 64) : (evictTargets checks node num_bytes candidates).isSome = true ↔
      ¬(checks = true ∧ node = none ∧ candidates ≠ [] ∧
        2 ^ 64 ≤ num_bytes + (chooseNodes candidates).length) := by
  cases node with
  | some node => simp [evictTargets]
  | none =>
    cases candidates with
    | nil => simp [evictTargets, evictionShares, chooseNodes, spread]
    | cons c rest =>
      have hne : (chooseNodes (c :: rest)).reverse ≠ [] := by
        rw [chooseNodes_cons]
        simp
      have hthree := length_chooseNodes_le (c :: rest)
      show ((spread checks num_bytes (chooseNodes (c :: rest)).reverse).map
        reverse).isSome = true ↔ _
      rw [isSome_map, ← length_reverse]
      rw [← length_reverse] at hthree
      constructor
      · rintro hsome ⟨rfl, -, -, hover⟩
        rw [spread_panics hne hover] at hsome
        cases hsome
      · intro hfits
        obtain ⟨shares, hshares, -⟩ := spread_spec hthree hbytes fun hchecks => by
          by_contra hover
          exact hfits ⟨hchecks, rfl, cons_ne_nil _ _, by omega⟩
        rw [hshares]
        rfl

end Loop

/-- **The bytes are spread as they should be**, unless overflow is checked
    and the sum for three nodes does not fit. -/
theorem eviction_shares_iff {candidates : List (ν × Nat)} {checks : Bool} {num_bytes : Nat}
    (hsorted : candidates.Pairwise fun a b => sortKey a.2 ≤ sortKey b.2)
    (hsize : ∀ c ∈ candidates, c.2 < 2 ^ 63) (hbytes : num_bytes + 2 < 2 ^ 64) :
    (∃ shares, evictionShares checks num_bytes candidates = some shares ∧
        Shares num_bytes candidates shares) ↔
      ¬(checks = true ∧ (chooseNodes candidates).length = 3 ∧ 2 ^ 64 ≤ num_bytes + 3) := by
  have hthree := length_chooseNodes_le candidates
  constructor
  · rintro ⟨shares, hshares, -⟩ ⟨rfl, hlength, hover⟩
    have hne : (chooseNodes candidates).reverse ≠ [] := by
      rw [← length_pos_iff, length_reverse]
      omega
    rw [evictionShares, spread_panics hne (by rw [length_reverse, hlength]; exact hover)]
      at hshares
    cases hshares
  · intro hfits
    have hchecks : checks = true → num_bytes + (chooseNodes candidates).length < 2 ^ 64 := by
      intro h
      by_contra hover
      exact hfits ⟨h, by omega, by omega⟩
    rw [← length_reverse] at hthree hchecks
    obtain ⟨shares, hshares, hnodes, hhalf, hsum⟩ := spread_spec hthree (by omega) hchecks
    have hlength : shares.length = (chooseNodes candidates).reverse.length := by
      simpa using congrArg length hnodes
    refine ⟨shares.reverse, by rw [evictionShares, hshares]; rfl, ?_, ?_, ?_, ?_, ?_⟩
    · rw [map_reverse, hnodes, map_reverse, reverse_reverse]
    · rw [length_reverse]
      omega
    · exact fun c hc d hd => large_of_mem_chooseNodes hsorted hsize hc hd
    · intro p hp
      rw [← reverse_reverse (chooseNodes candidates), zip,
        ← reverse_zipWith hlength.symm, tail_reverse, mem_reverse] at hp
      exact hhalf p hp
    · intro hne
      rw [map_reverse, sum_reverse]
      refine hsum fun hnil => ?_
      obtain ⟨c, rest, rfl⟩ := exists_cons_of_ne_nil hne
      rw [chooseNodes_cons] at hnil
      simp at hnil

theorem eviction_shares_two_nodes :
    ∃ shares, evictionShares true 100 [("large", 90), ("medium", 40), ("tiny", 2)] = some shares ∧
      Shares 100 [("large", 90), ("medium", 40), ("tiny", 2)] shares :=
  (eviction_shares_iff (by decide) (by decide) (by decide)).mpr (by decide)

/-- The sum `num_bytes + n` overflows although `num_bytes + 2` does not. -/
theorem three_nodes_overflow :
    ¬∃ shares, evictionShares true (2 ^ 64 - 3) [("a", 8), ("b", 8), ("c", 8)] = some shares ∧
      Shares (2 ^ 64 - 3) [("a", 8), ("b", 8), ("c", 8)] shares := by
  rintro ⟨shares, hshares, -⟩
  cases hshares

end Noria.Server.Domain

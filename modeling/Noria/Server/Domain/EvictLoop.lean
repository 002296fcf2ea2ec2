import Mathlib.Algebra.Order.BigOperators.Group.List
import Mathlib.Algebra.Order.Ring.Nat
import Noria.Server.Domain.Shared

/-! # The loop of an eviction

  A `Packet::Evict` asks for a number of bytes. Its loop evicts sixteen
  random keys at a time until enough bytes have been freed or the node says
  that it is empty (`domain/mod.rs`, `handle_eviction`).

  A node with indices says so by the counter of its first index, which no eviction touches. A reader
  evicts only while it counts bytes, and is empty only if it has no key. So a node whose counter is
  not zero never stops if it does not have the bytes, one whose counter is zero stops after the
  first round, and a reader with filled keys but no rows runs forever.

  The generator is a stream of draws. That every index is drawn again and
  again (`Fair`) is all that is assumed of it.
-/

namespace Noria.Server.Domain

open List Option

/-! ## A node with indices -/

section Node

variable {δ : Type} (down : List Nat → List Row → δ → Option δ) (rng : Nat → Store.Draw)

def evictDown (columns : List Nat) (keys : List Row) (d : δ) : Outcome Unit δ :=
  if keys.isEmpty then .ok d else Outcome.ofOption (down columns keys d)

/-- The loop for a node. `down` evicts what follows from the keys, in `δ`. -/
def evictNode (num_bytes : Nat) :
    Nat → Nat → Nat → Store → δ → Outcome Unit (Nat × Store × δ)
  | 0, _, _, _, _ => .error ()
  | fuel + 1, round, freed, s, d =>
    if num_bytes ≤ freed then .ok (freed, s, d)
    else do
      let out ← Outcome.ofOption (s.evict_random_keys 16 (rng round))
      let d ← evictDown down out.1 out.2.1 d
      let empty ← Outcome.ofOption out.2.2.2.is_empty
      if empty then .ok (freed + out.2.2.1, out.2.2.2, d)
      else evictNode num_bytes fuel (round + 1) (freed + out.2.2.1) out.2.2.2 d

/-- Every index is drawn again and again. -/
def Fair (rng : Nat → Store.Draw) (indices : Nat) : Prop :=
  ∀ i < indices, ∀ round, ∃ later ≥ round, (rng later).index % indices = i

/-- The number of filled keys. -/
def Store.keyCount (s : Store) : Nat := (s.state.map fun ix => ix.state.entries.length).sum

/-- **The purpose of the loop**: it ends, and then enough bytes have been
    freed or no key is filled. -/
def NodeEnds (num_bytes : Nat) (s : Store) (d : δ) : Prop :=
  ∃ bound, ∀ fuel ≥ bound, ∃ freed s' d',
    evictNode down rng num_bytes fuel 0 0 s d = .ok (freed, s', d') ∧
      (num_bytes ≤ freed ∨ s'.keyCount = 0)

/-- The node has the bytes and a first index that counts rows, or its first
    index counts none and one round leaves no key. -/
def NodeGood (num_bytes : Nat) (s : Store) : Prop :=
  num_bytes = 0 ∨ (s.is_empty = some false ∧ num_bytes ≤ s.bytes) ∨
    (s.is_empty = some true ∧ (s.state.length = 1 ∧ s.keyCount ≤ 16 ∨ s.keyCount = 0))

variable {down rng} {s : Store} {ix : Index} {freed num_bytes : Nat}

/-! ### One round -/

theorem Store.keyCount_set {i : Nat} (ix' : Index) (hi : s.state[i]? = some ix) :
    Store.keyCount { s with state := s.state.set i ix' } + ix.state.entries.length =
      s.keyCount + ix'.state.entries.length := by
  obtain ⟨hlt, rfl⟩ := List.getElem?_eq_some_iff.mp hi
  obtain ⟨l₁, l₂, hstate, -, hset⟩ := @exists_of_set _ i ix' s.state hlt
  unfold Store.keyCount
  simp only [hset]
  nth_rewrite 2 [hstate]
  simp only [map_append, map_cons, sum_append, sum_cons]
  omega

/-- What a round does to the store. -/
structure Round (s : Store) (draw : Store.Draw) (bytes : Nat) (s' : Store) : Prop where
  sound : s'.Sound
  freed : bytes + s'.bytes = s.bytes
  is_empty : s'.is_empty = s.is_empty
  length : s'.state.length = s.state.length
  index : ∃ ix ix', s.state[draw.index % s.state.length]? = some ix ∧
    s'.state = s.state.set (draw.index % s.state.length) ix' ∧
    ix'.state.entries.length = ix.state.entries.length - 16
  rest : (∀ ix, s.state[draw.index % s.state.length]? = some ix → ix.state.entries = []) →
    s' = s
  rowless : (∀ ix, s.state[draw.index % s.state.length]? = some ix →
    ∀ e ∈ ix.state.entries, e.2 = []) → bytes = 0

theorem evict_random_keys_round (hs : s.Sound) (draw : Store.Draw) :
    ∃ out, s.evict_random_keys 16 draw = some out ∧ Round s draw out.2.2.1 out.2.2.2 := by
  have hlt : draw.index % s.state.length < s.state.length :=
    Nat.mod_lt _ (length_pos_iff.mpr hs.nonempty)
  obtain ⟨ix, hi⟩ : ∃ ix, s.state[draw.index % s.state.length]? = some ix :=
    ⟨_, getElem?_eq_getElem hlt⟩
  obtain ⟨hbytes, hsound, ix', hstate, hrows, hlen⟩ := Store.evictFrom_spec hs hi draw.seed 16
  have hout : s.evict_random_keys 16 draw = some (ix.key,
      (Store.evictFrom (draw.index % s.state.length) draw.seed 16 s).2.1,
      (Store.evictFrom (draw.index % s.state.length) draw.seed 16 s).1,
      (Store.evictFrom (draw.index % s.state.length) draw.seed 16 s).2.2) := by
    simp only [Store.evict_random_keys, hi, bind_eq_bind, bind_some]
  refine ⟨_, hout, hsound, hbytes, ?_, ?_, ⟨ix, ix', hi, hstate, hlen⟩, fun hempty => ?_,
    fun hrowless => Store.evictFrom_bytes hi (hrowless ix hi) _ _⟩
  · unfold Store.is_empty
    rw [hstate, getElem?_set]
    split
    · rename_i hzero
      rw [hzero] at hi hlt
      simp only [hi, bind_eq_bind, bind_some, hrows]
    · rfl
  · rw [hstate, length_set]
  · dsimp only
    rw [Store.evictFrom_nil hi (hempty ix hi)]

theorem Round.keyCount {draw : Store.Draw} {bytes : Nat} {s' : Store} (h : Round s draw bytes s') :
    ∃ ix, s.state[draw.index % s.state.length]? = some ix ∧
      s'.keyCount + ix.state.entries.length = s.keyCount + (ix.state.entries.length - 16) := by
  obtain ⟨ix, ix', hi, hstate, hlen⟩ := h.index
  have hcount := Store.keyCount_set ix' hi
  refine ⟨ix, hi, ?_⟩
  rw [← hlen, ← hcount]
  unfold Store.keyCount
  rw [hstate]

theorem exists_filled (h : s.keyCount ≠ 0) :
    ∃ i < s.state.length, ∀ ix, s.state[i]? = some ix → ix.state.entries ≠ [] := by
  by_contra hnone
  push Not at hnone
  refine h (sum_eq_zero fun n hn => ?_)
  obtain ⟨ix, hix, rfl⟩ := mem_map.mp hn
  obtain ⟨i, hlt, rfl⟩ := mem_iff_getElem.mp hix
  obtain ⟨ix', hix', hnil⟩ := hnone i hlt
  rw [getElem?_eq_getElem hlt, some_inj] at hix'
  rw [hix', hnil]
  rfl

theorem bytes_eq_zero (h : s.keyCount = 0) : s.bytes = 0 := by
  have hhandles : s.handles = [] := by
    refine flatMap_eq_nil_iff.mpr fun ix hix => ?_
    have hlen : ix.state.entries.length = 0 := sum_eq_zero_iff.mp h _ (mem_map_of_mem hix)
    rw [Index.handles, length_eq_zero_iff.mp hlen]
    rfl
  rw [Store.bytes, hhandles]
  rfl

theorem keyCount_of_one (hone : s.state.length = 1) (hi : s.state[0]? = some ix) :
    s.keyCount = ix.state.entries.length := by
  obtain ⟨ix₁, hstate⟩ := length_eq_one_iff.mp hone
  rw [hstate] at hi
  rw [Store.keyCount, hstate, ← some.inj hi]
  simp

theorem Index.Sound.rowless (hs : ix.Sound) (h : ix.rows = 0) :
    ∀ e ∈ ix.state.entries, e.2 = [] := by
  intro e he
  have htotal : AssocMap.total Rows.len ix.state = 0 := by
    have hcounted := hs.counted
    omega
  have hlen := (AssocMap.total_eq_zero_iff Rows.len ix.state).mp htotal e.1 e.2
    (ix.state.get?_of_mem he)
  refine eq_nil_iff_forall_not_mem.mpr fun p hp => ?_
  have hpos := (hs.rows e he).positive p hp
  have hzero : p.2 = 0 := sum_eq_zero_iff.mp hlen p.2 (mem_map_of_mem hp)
  omega

theorem is_empty_cases (hs : s.Sound) :
    ∃ ix, s.state[0]? = some ix ∧ s.is_empty = some (ix.rows == 0) := by
  have hlt : 0 < s.state.length := length_pos_iff.mpr hs.nonempty
  have hi := getElem?_eq_getElem hlt
  exact ⟨_, hi, by simp only [Store.is_empty, hi, bind_eq_bind, bind_some]⟩

def inTurn (first : Nat) : Nat → Store.Draw := fun round => ⟨round + first, fun _ => 0⟩

theorem fair_inTurn (first indices : Nat) : Fair (inTurn first) indices := by
  intro i hi round
  have hle : round + first ≤ indices * (round + first) :=
    Nat.le_mul_of_pos_left _ (Nat.lt_of_le_of_lt (Nat.zero_le i) hi)
  refine ⟨i + indices * (round + first) - first, by omega, ?_⟩
  show (i + indices * (round + first) - first + first) % indices = i
  rw [Nat.sub_add_cancel (by omega), Nat.add_mul_mod_self_left, Nat.mod_eq_of_lt hi]

theorem keyCount_eq_zero_iff : s.keyCount = 0 ↔ ∀ ix ∈ s.state, ix.state.entries = [] := by
  rw [Store.keyCount, sum_eq_zero_iff]
  simp

theorem evictNode_stop {fuel round : Nat} (h : num_bytes ≤ freed) (d : δ) :
    evictNode down rng num_bytes (fuel + 1) round freed s d = .ok (freed, s, d) := by
  rw [evictNode, if_pos h]

variable (hdown : ∀ columns keys d, ∃ d', down columns keys d = some d') (hs : s.Sound)
include hdown hs

theorem evictNode_succ {empty : Bool} (hempty : s.is_empty = some empty) (rng : Nat → Store.Draw)
    (round : Nat) (hlt : freed < num_bytes) (d : δ) :
    ∃ bytes s' d', Round s (rng round) bytes s' ∧ ∀ fuel,
      evictNode down rng num_bytes (fuel + 1) round freed s d =
        if empty then .ok (freed + bytes, s', d')
        else evictNode down rng num_bytes fuel (round + 1) (freed + bytes) s' d' := by
  obtain ⟨out, hout, hround⟩ := evict_random_keys_round hs (rng round)
  obtain ⟨d', hd'⟩ : ∃ d', evictDown down out.1 out.2.1 d = .ok d' := by
    obtain ⟨d', hd'⟩ := hdown out.1 out.2.1 d
    unfold evictDown
    split
    · exact ⟨d, rfl⟩
    · exact ⟨d', by rw [hd']; rfl⟩
  refine ⟨out.2.2.1, out.2.2.2, d', hround, fun fuel => ?_⟩
  rw [evictNode, if_neg (by omega), hout, Outcome.ofOption, Outcome.ok_bind, hd', Outcome.ok_bind,
    hround.is_empty, hempty, Outcome.ofOption, Outcome.ok_bind]

/-! ### A counter that is not zero -/

/-- If the store does not have the bytes, the loop goes on for ever. -/
theorem evictNode_forever (hempty : s.is_empty = some false) (hbytes : freed + s.bytes < num_bytes)
    (fuel round : Nat) (d : δ) : evictNode down rng num_bytes fuel round freed s d = .error () := by
  induction fuel generalizing round freed s d with
  | zero => rfl
  | succ fuel ih =>
    have hlt : freed < num_bytes := by omega
    obtain ⟨bytes, s', d', hround, hstep⟩ := evictNode_succ hdown hs hempty rng round hlt d
    have hfreed := hround.freed
    rw [hstep]
    exact ih hround.sound (hround.is_empty.trans hempty) (by omega) _ _

/-- **If the store has the bytes**, they are freed in the end: the rounds
    that draw an index with keys come again and again, and leave fewer. -/
theorem evictNode_ends (hempty : s.is_empty = some false) (hfair : Fair rng s.state.length)
    (hbytes : num_bytes ≤ freed + s.bytes) (round : Nat) (d : δ) :
    ∃ bound, ∀ fuel ≥ bound, ∃ freed' s' d',
      evictNode down rng num_bytes fuel round freed s d = .ok (freed', s', d') ∧
        num_bytes ≤ freed' := by
  induction hcount : s.keyCount using Nat.strong_induction_on generalizing s freed round d with
  | _ count ih =>
    by_cases hstop : num_bytes ≤ freed
    · exact enough_of_stop fun fuel => ⟨freed, s, d, evictNode_stop hstop d, hstop⟩
    · have hkeys : s.keyCount ≠ 0 := fun hzero => by
        rw [bytes_eq_zero hzero] at hbytes
        omega
      obtain ⟨i, hi, hfilled⟩ := exists_filled hkeys
      obtain ⟨later, hlater, hdraw⟩ := hfair i hi round
      have hdecrease : ∀ round d, (∀ ix, s.state[(rng round).index % s.state.length]? = some ix →
          ix.state.entries ≠ []) → ∃ bound, ∀ fuel ≥ bound, ∃ freed' s' d',
            evictNode down rng num_bytes fuel round freed s d = .ok (freed', s', d') ∧
              num_bytes ≤ freed' := by
        intro round d hne
        obtain ⟨bytes, s', d', hround, hstep⟩ :=
          evictNode_succ hdown hs hempty rng round (Nat.lt_of_not_le hstop) d
        have hfreed := hround.freed
        obtain ⟨ix, hix, hleft⟩ := hround.keyCount
        have hpos := length_pos_iff.mpr (hne ix hix)
        have hrest : num_bytes ≤ (freed + bytes) + s'.bytes := by omega
        refine enough_of_round (ih s'.keyCount (by omega) hround.sound
          (hround.is_empty.trans hempty) (hround.length ▸ hfair) hrest (round + 1) d' rfl)
          fun fuel hrun => ?_
        rwa [hstep]
      -- on the number of rounds until an index with keys is drawn
      induction hwait : later - round generalizing round d with
      | zero =>
        have hnow : later = round := by omega
        refine hdecrease round d fun ix hix => hfilled ix ?_
        rw [← hdraw, hnow]
        exact hix
      | succ wait ihwait =>
        by_cases hne : ∀ ix, s.state[(rng round).index % s.state.length]? = some ix →
            ix.state.entries ≠ []
        · exact hdecrease round d hne
        · -- an index without keys: nothing happens in this round
          obtain ⟨bytes, s', d', hround, hstep⟩ :=
            evictNode_succ hdown hs hempty rng round (Nat.lt_of_not_le hstop) d
          push Not at hne
          obtain ⟨ix, hix, hnil⟩ := hne
          have hsame : s' = s := hround.rest fun ix' hix' => by
            rw [some.inj (hix'.symm.trans hix), hnil]
          subst hsame
          have hfreed := hround.freed
          have hzero : bytes = 0 := by omega
          refine enough_of_round (ihwait (round + 1) d' (by omega) (by omega)) fun fuel hrun => ?_
          rwa [hstep, hzero]

/-! ### A counter of zero -/

theorem evictNode_once (hempty : s.is_empty = some true) (hpos : 0 < num_bytes)
    (rng : Nat → Store.Draw) (d : δ) :
    ∃ bytes s', Round s (rng 0) bytes s' ∧
      (NodeEnds down rng num_bytes s d ↔ num_bytes ≤ bytes ∨ s'.keyCount = 0) := by
  obtain ⟨bytes, s', d', hround, hstep⟩ := evictNode_succ hdown hs hempty rng 0 hpos d
  refine ⟨bytes, s', hround, ?_, fun h => enough_of_stop fun fuel => ⟨0 + bytes, s', d', ?_, ?_⟩⟩
  · rintro ⟨bound, hbound⟩
    obtain ⟨freed, s₁, d₁, hrun, hend⟩ := hbound (bound + 1) (Nat.le_succ bound)
    rw [hstep, if_pos rfl] at hrun
    cases hrun
    rwa [Nat.zero_add] at hend
  · rw [hstep, if_pos rfl]
  · rwa [Nat.zero_add]

/-- **A counter of zero**: the draw may be the first index, which has no rows
    to free, or one that has no keys at all. -/
theorem rowless_iff (hempty : s.is_empty = some true) (hpos : 0 < num_bytes) (d : δ) :
    (∀ rng, Fair rng s.state.length → NodeEnds down rng num_bytes s d) ↔
      s.state.length = 1 ∧ s.keyCount ≤ 16 ∨ s.keyCount = 0 := by
  obtain ⟨ix₀, hix₀, hrows⟩ := is_empty_cases hs
  have hrowless : ∀ e ∈ ix₀.state.entries, e.2 = [] := by
    refine (hs.index ix₀ (mem_of_getElem? hix₀)).rowless ?_
    rw [hempty, some_inj] at hrows
    exact beq_iff_eq.mp hrows.symm
  have hlen : 0 < s.state.length := length_pos_iff.mpr hs.nonempty
  constructor
  · intro hends
    -- the first index is drawn
    obtain ⟨bytes, s', hround, hiff⟩ := evictNode_once hdown hs hempty hpos (inTurn 0) d
    have hdraw : (inTurn 0 0).index % s.state.length = 0 := Nat.zero_mod _
    have hbytes : bytes = 0 := hround.rowless fun ix hix => by
      rw [hdraw, hix₀, some_inj] at hix
      exact hix ▸ hrowless
    have hnone : s'.keyCount = 0 := by
      rcases hiff.mp (hends _ (fair_inTurn 0 _)) with h | h
      · omega
      · exact h
    obtain ⟨ix, hix, hleft⟩ := hround.keyCount
    by_cases hone : s.state.length = 1
    · refine .inl ⟨hone, ?_⟩
      have hcount := keyCount_of_one hone (hdraw ▸ hix)
      omega
    · -- the second index is drawn, which has no key
      right
      obtain ⟨bytes₁, s₁, hround₁, hiff₁⟩ := evictNode_once hdown hs hempty hpos (inTurn 1) d
      have hdraw₁ : (inTurn 1 0).index % s.state.length = 1 := by
        show (0 + 1) % s.state.length = 1
        rw [Nat.mod_eq_of_lt (by omega)]
      have hnil : ∀ ix, s.state[(inTurn 1 0).index % s.state.length]? = some ix →
          ix.state.entries = [] := by
        intro ix₁ hix₁
        rw [hdraw₁] at hix₁
        obtain ⟨-, ix', -, hstate, -⟩ := hround.index
        rw [hdraw] at hstate
        refine keyCount_eq_zero_iff.mp hnone ix₁ (mem_of_getElem? (i := 1) ?_)
        rw [hstate, getElem?_set_ne Nat.zero_ne_one, hix₁]
      have hsame := hround₁.rest hnil
      subst hsame
      have hbytes₁ := hround₁.freed
      rcases hiff₁.mp (hends _ (fair_inTurn 1 _)) with h | h
      · omega
      · exact h
  · intro hgood rng _
    obtain ⟨bytes, s', hround, hiff⟩ := evictNode_once hdown hs hempty hpos rng d
    obtain ⟨ix, hix, hleft⟩ := hround.keyCount
    refine hiff.mpr (.inr ?_)
    rcases hgood with ⟨hone, hfew⟩ | hzero
    · rw [hone, Nat.mod_one] at hix
      have hcount := keyCount_of_one hone hix
      omega
    · omega

theorem evictNode_freed {fuel round freed' : Nat} {s' : Store} {d d' : δ}
    (hrun : evictNode down rng num_bytes fuel round freed s d = .ok (freed', s', d')) :
    freed' + s'.bytes = freed + s.bytes := by
  induction fuel generalizing round freed s d with
  | zero => cases hrun
  | succ fuel ih =>
    by_cases hstop : num_bytes ≤ freed
    · rw [evictNode_stop hstop] at hrun
      cases hrun
      rfl
    · obtain ⟨ix, -, hempty⟩ := is_empty_cases hs
      obtain ⟨bytes, s₁, d₁, hround, hstep⟩ :=
        evictNode_succ hdown hs hempty rng round (Nat.lt_of_not_le hstop) d
      have hfreed := hround.freed
      rw [hstep] at hrun
      split at hrun
      · cases hrun
        omega
      · have hrest := ih hround.sound hrun
        omega

/-- **A node with indices.** -/
theorem node_ends_iff (num_bytes : Nat) (d : δ) :
    (∀ rng, Fair rng s.state.length → NodeEnds down rng num_bytes s d) ↔ NodeGood num_bytes s := by
  unfold NodeGood
  rcases Nat.eq_zero_or_pos num_bytes with rfl | hpos
  · exact iff_of_true (fun rng _ => enough_of_stop fun fuel =>
      ⟨0, s, d, evictNode_stop (Nat.le_refl 0) d, .inl (Nat.le_refl 0)⟩) (.inl rfl)
  · obtain ⟨ix₀, -, hempty⟩ := is_empty_cases hs
    cases hrows : ix₀.rows == 0 with
    | true =>
      rw [hrows] at hempty
      rw [rowless_iff hdown hs hempty hpos, hempty]
      simp [Nat.ne_of_gt hpos]
    | false =>
      rw [hrows] at hempty
      have hgood : (num_bytes = 0 ∨ (s.is_empty = some false ∧ num_bytes ≤ s.bytes) ∨
          (s.is_empty = some true ∧ (s.state.length = 1 ∧ s.keyCount ≤ 16 ∨ s.keyCount = 0))) ↔
          num_bytes ≤ s.bytes := by
        rw [hempty]
        simp [Nat.ne_of_gt hpos]
      rw [hgood]
      constructor
      · intro hends
        by_contra hfew
        obtain ⟨bound, hbound⟩ := hends _ (fair_inTurn 0 _)
        obtain ⟨freed, s', d', hrun, -⟩ := hbound bound (Nat.le_refl bound)
        rw [evictNode_forever hdown hs hempty (by omega)] at hrun
        cases hrun
      · intro hbytes rng hfair
        obtain ⟨bound, hbound⟩ := evictNode_ends hdown hs hempty hfair
          (Nat.zero_add s.bytes ▸ hbytes) 0 d
        refine ⟨bound, fun fuel hfuel => ?_⟩
        obtain ⟨freed, s', d', hrun, hfreed⟩ := hbound fuel hfuel
        exact ⟨freed, s', d', hrun, .inl hfreed⟩

end Node

end Noria.Server.Domain

import Noria.Framework.KeySet
import Noria.Framework.Machine
import Noria.Server.State

/-! # Replays that wait for backfills

  A replay that misses in a node on its way asks for the missing rows (a backfill of the hole) and
  is run again once it can go through. In between it is a redo (`domain/mod.rs`, `Waiting`). One
  hole may keep many redos waiting, and one redo may wait for many holes; the node's bookkeeping has
  to ask for each hole once and to run each redo once.

  A redo has a counter (`holes`) and each hole the set of redos that wait for it (`redos`). They are
  updated in two places, when a replay misses (`on_replay_miss`) and when a backfill has come in
  (`finish`), and what keeps them together is `Waiting.Sound`: the counter of a redo is the number
  of holes that list it.

  The domain keeps one such record for each node; nodes are local indices. What a step asks for is
  an `Action`. All panics and failed assertions are `none`.
-/

namespace Noria.Server

open List AssocMap

variable {key_cols : List Nat}

/-! ## The bookkeeping -/

/-- A replay that is to be run again. -/
structure Redo where
  tag : Tag
  replay_key : Row
  unishard : Bool
  requesting_shard : Nat

instance : BEq Redo where
  beq a b := a.tag == b.tag && a.replay_key == b.replay_key && a.unishard == b.unishard &&
    a.requesting_shard == b.requesting_shard

theorem Redo.beq_iff (a b : Redo) : (a == b) = true ↔
    (a.tag, Row.val a.replay_key, a.unishard, a.requesting_shard) =
      (b.tag, Row.val b.replay_key, b.unishard, b.requesting_shard) := by
  show (a.tag == b.tag && a.replay_key == b.replay_key && a.unishard == b.unishard &&
    a.requesting_shard == b.requesting_shard) = true ↔ _
  simp only [Bool.and_eq_true, beq_iff_eq, Row.beq_iff_val, Prod.mk.injEq, and_assoc]

instance : EquivBEq Redo := .of_iff _ Redo.beq_iff

/-- The columns and the key of a hole. -/
abbrev Hole := List Nat × Row

theorem Hole.beq_iff (a b : Hole) : (a == b) = true ↔ (a.1, Row.val a.2) = (b.1, Row.val b.2) := by
  show (a.1 == b.1 && a.2 == b.2) = true ↔ _
  rw [Bool.and_eq_true, beq_iff_eq, Row.beq_iff_val, Prod.mk.injEq]

instance : EquivBEq Hole := .of_iff _ Hole.beq_iff

structure Waiting where
  /-- For each eventual redo, how many holes are we waiting for? -/
  holes : AssocMap Redo Nat
  /-- For each hole, which redos do we expect we'll have to do? -/
  redos : AssocMap Hole (KeySet Redo)

/-- What the bookkeeping asks for. -/
inductive Action where
  | request (node : Nat) (hole : Hole)
  /-- Run a replay again (`delayed_for_self`). -/
  | redo (redo : Redo)

/-- The arguments of `on_replay_miss`. -/
structure ReplayMiss where
  miss_in : Nat
  miss_columns : List Nat
  replay_key : Row
  miss_key : Row
  was_single_shard : Bool
  requesting_shard : Nat
  needed_for : Tag

namespace ReplayMiss

def hole (m : ReplayMiss) : Hole := (m.miss_columns, m.miss_key)

def redo (m : ReplayMiss) : Redo :=
  ⟨m.needed_for, m.replay_key, m.was_single_shard, m.requesting_shard⟩

end ReplayMiss

namespace Waiting

def new : Waiting := ⟨∅, ∅⟩

/-- The redo waits for one more hole. -/
def count (w : Waiting) (redo : Redo) : AssocMap Redo Nat :=
  w.holes.insert redo ((w.holes.get? redo).getD 0 + 1)

/-- Remember that a replay has missed; is its hole new? -/
def miss (w : Waiting) (hole : Hole) (redo : Redo) : Bool × Waiting :=
  match w.redos.get? hole with
  | some redos =>
    (false, if redos.contains redo then w
      else ⟨w.count redo, w.redos.insert hole (redos.add redo)⟩)
  | none => (true, ⟨w.count redo, w.redos.insert hole (KeySet.add ∅ redo)⟩)

/-- One hole less for each of some redos, and the redos that have none left. -/
def countDown (holes : AssocMap Redo Nat) : List Redo → Option (List Redo × AssocMap Redo Nat)
  | [] => some ([], holes)
  | redo :: rest => do
    let left ← holes.get? redo
    if left = 0 then none
    else if left - 1 = 0 then
      let res ← countDown (holes.erase redo) rest
      some (redo :: res.1, res.2)
    else countDown (holes.insert redo (left - 1)) rest

def fill (w : Waiting) (hole : Hole) : Option (List Redo × Waiting) := do
  -- "got backfill for unnecessary key"
  let replay ← w.redos.get? hole
  let res ← countDown w.holes replay.elems
  some (res.1, ⟨res.2, w.redos.erase hole⟩)

def fillAll (w : Waiting) (key_cols : List Nat) : List Row → Option (List Redo × Waiting)
  | [] => some ([], w)
  | key :: rest => do
    let res ← w.fill (key_cols, key)
    let res' ← res.2.fillAll key_cols rest
    some (res.1 ++ res'.1, res'.2)

end Waiting

/-- The nodes with at least one outstanding backfill. -/
abbrev WaitingMap := AssocMap Nat Waiting

namespace WaitingMap

def on_replay_miss (waiting : WaitingMap) (m : ReplayMiss) : List Action × WaitingMap :=
  let res := ((waiting.get? m.miss_in).getD .new).miss m.hole m.redo
  (if res.1 then [.request m.miss_in m.hole] else [], waiting.insert m.miss_in res.2)

/-- The end of `handle_replay`: the backfill of some keys has arrived. -/
def finish (waiting : WaitingMap) (ni : Nat) (key_cols : List Nat) (for_keys : KeySet Row) :
    Option (List Action × WaitingMap) := do
  let w ← waiting.get? ni
  let res ← w.fillAll key_cols for_keys.elems
  if !res.2.holes.entries.isEmpty then
    -- there are still holes, so there must still be pending redos
    if res.2.redos.entries.isEmpty then none
    else some (res.1.map .redo, waiting.insert ni res.2)
  else
    -- there are no more holes that are filling, so there can't be more redos
    if res.2.redos.entries.isEmpty then some (res.1.map .redo, waiting.erase ni) else none

end WaitingMap

/-! ## What the counters mean -/

namespace Waiting

/-- Does the redo wait for the hole? -/
def lists (w : Waiting) (hole : Hole) (redo : Redo) : Bool :=
  (w.redos.get? hole).any fun redos => redos.contains redo

/-- The number of outstanding holes that list a redo. -/
def listing (w : Waiting) (redo : Redo) : Nat :=
  w.redos.total fun redos => if redos.contains redo then 1 else 0

/-- A counter, which is only there when it is positive. -/
def ofCount (n : Nat) : Option Nat := if n = 0 then none else some n

/-- **The counter of each redo is the number of holes that list it**, and every hole lists some. -/
structure Sound (w : Waiting) : Prop where
  counter : ∀ redo, w.holes.get? redo = ofCount (w.listing redo)
  listed : ∀ hole redos, w.redos.get? hole = some redos → redos.elems ≠ []

variable {w : Waiting} {hole : Hole} {redo : Redo} {redos : KeySet Redo}

theorem sound_new : new.Sound where
  counter _ := rfl
  listed _ _ hget := by cases hget

theorem lists_of_some (h : w.redos.get? hole = some redos) (redo : Redo) :
    w.lists hole redo = redos.contains redo := by
  rw [lists, h]
  rfl

theorem lists_of_none (h : w.redos.get? hole = none) (redo : Redo) : w.lists hole redo = false := by
  rw [lists, h]
  rfl

theorem lists_congr {hole' : Hole} (h : (hole == hole') = true) (redo : Redo) :
    w.lists hole redo = w.lists hole' redo := by
  rw [lists, lists, w.redos.get?_congr h]

theorem listing_eq_zero_iff (w : Waiting) (redo : Redo) :
    w.listing redo = 0 ↔ ∀ hole, w.lists hole redo = false := by
  unfold listing
  rw [total_eq_zero_iff]
  constructor
  · intro h hole
    cases hget : w.redos.get? hole with
    | none => exact lists_of_none hget redo
    | some redos =>
      rw [lists_of_some hget, Bool.eq_false_iff]
      intro hin
      have := h hole redos hget
      rw [if_pos hin] at this
      cases this
  · intro h hole redos hget
    have := h hole
    rw [lists_of_some hget] at this
    rw [this]
    rfl

theorem listing_congr {redo' : Redo} (h : (redo == redo') = true) :
    w.listing redo = w.listing redo' := by
  unfold listing
  congr 1
  funext redos
  rw [redos.contains_congr h]

theorem ofCount_getD (n : Nat) : (ofCount n).getD 0 = n := by
  unfold ofCount
  split
  · next h => exact h.symm
  · rfl

/-! ## A miss -/

theorem Sound.count (hw : w.Sound) (redo redo' : Redo) :
    (w.count redo).get? redo' = ofCount (w.listing redo' + if redo == redo' then 1 else 0) := by
  rw [Waiting.count, hw.counter, ofCount_getD, get?_insert]
  by_cases h : (redo == redo') = true
  · rw [if_pos h, if_pos h, listing_congr h, ofCount, if_neg (Nat.succ_ne_zero _)]
  · rw [if_neg h, if_neg h]
    exact hw.counter redo'

theorem lists_insert (holes : AssocMap Redo Nat) (hole' : Hole) (redo' : Redo) :
    (⟨holes, w.redos.insert hole redos⟩ : Waiting).lists hole' redo' =
      if hole == hole' then redos.contains redo' else w.lists hole' redo' := by
  unfold lists
  rw [get?_insert]
  by_cases h : (hole == hole') = true
  · rw [if_pos h, if_pos h]
    rfl
  · rw [if_neg h, if_neg h]

/-- A hole with one more redo. -/
def enlist (w : Waiting) (hole : Hole) (redo : Redo) : Waiting :=
  ⟨w.count redo, w.redos.insert hole (((w.redos.get? hole).getD ∅).add redo)⟩

theorem contains_getD (w : Waiting) (hole : Hole) (redo : Redo) :
    ((w.redos.get? hole).getD ∅).contains redo = w.lists hole redo := by
  cases hget : w.redos.get? hole with
  | none => exact (lists_of_none hget redo).symm
  | some redos => exact (lists_of_some hget redo).symm

theorem lists_enlist (w : Waiting) (hole hole' : Hole) (redo redo' : Redo) :
    (w.enlist hole redo).lists hole' redo' =
      (w.lists hole' redo' || (hole == hole' && redo == redo')) := by
  unfold enlist
  rw [lists_insert, KeySet.contains_add, contains_getD]
  by_cases h : (hole == hole') = true
  · rw [if_pos h, h, lists_congr h, Bool.true_and, Bool.or_comm]
  · rw [if_neg h, Bool.eq_false_iff.mpr h, Bool.false_and, Bool.or_false]

theorem listing_enlist (hnot : w.lists hole redo = false) (redo' : Redo) :
    (w.enlist hole redo).listing redo' = w.listing redo' + if redo == redo' then 1 else 0 := by
  -- only the redo itself is new to the hole
  have hnew : (if (((w.redos.get? hole).getD ∅).add redo).contains redo' then 1 else 0) =
      (if w.lists hole redo' then 1 else 0) + if redo == redo' then 1 else 0 := by
    rw [KeySet.contains_add, contains_getD]
    by_cases h : (redo == redo') = true
    · have hnot' : w.lists hole redo' = false := by
        rw [← contains_getD, ← KeySet.contains_congr _ h, contains_getD]
        exact hnot
      simp [h, hnot']
    · simp [h]
  unfold listing enlist
  cases hget : w.redos.get? hole with
  | none =>
    rw [hget, lists_of_none hget] at hnew
    rw [total_insert_of_none _ hget, hnew]
    simp
  | some redos =>
    rw [hget, lists_of_some hget] at hnew
    have htotal := total_insert_of_some
      (fun redos : KeySet Redo => if redos.contains redo' then 1 else 0) hget (redos.add redo)
    simp only [Option.getD_some] at hnew htotal ⊢
    omega

theorem Sound.enlist (hw : w.Sound) (hnot : w.lists hole redo = false) :
    (w.enlist hole redo).Sound where
  counter redo' := by
    rw [listing_enlist hnot]
    exact hw.count redo redo'
  listed hole' redos hget := by
    replace hget : (w.redos.insert hole _).get? hole' = some redos := hget
    rw [get?_insert] at hget
    split at hget
    · cases hget
      intro hnil
      have hself := ((w.redos.get? hole).getD ∅).contains_add redo redo
      rw [BEq.rfl, Bool.true_or, KeySet.contains_iff, hnil] at hself
      obtain ⟨k₀, hk₀, -⟩ := hself
      cases hk₀
    · exact hw.listed hole' redos hget

/-- A miss adds the redo to the hole, unless it is there already. -/
theorem miss_eq (w : Waiting) (hole : Hole) (redo : Redo) :
    w.miss hole redo = (!w.redos.contains hole,
      if w.lists hole redo then w else w.enlist hole redo) := by
  unfold miss enlist
  rw [contains_eq]
  cases hget : w.redos.get? hole with
  | none =>
    rw [lists_of_none hget]
    rfl
  | some redos =>
    rw [lists_of_some hget]
    rfl

/-- **A miss** is noted for its hole. -/
theorem lists_miss (w : Waiting) (hole hole' : Hole) (redo redo' : Redo) :
    (w.miss hole redo).2.lists hole' redo' =
      (w.lists hole' redo' || (hole == hole' && redo == redo')) := by
  rw [miss_eq]
  cases hin : w.lists hole redo with
  | false => exact lists_enlist w hole hole' redo redo'
  | true =>
    show w.lists hole' redo' = _
    by_cases h : (hole == hole' && redo == redo') = true
    · rw [h, Bool.or_true]
      rw [Bool.and_eq_true] at h
      rw [← contains_getD, ← KeySet.contains_congr _ h.2, contains_getD, ← lists_congr h.1, hin]
    · rw [Bool.eq_false_iff.mpr h, Bool.or_false]

theorem Sound.miss (hw : w.Sound) (hole : Hole) (redo : Redo) : (w.miss hole redo).2.Sound := by
  rw [miss_eq]
  cases hin : w.lists hole redo with
  | false => exact hw.enlist hin
  | true => exact hw

/-! ## A backfill -/

/-- **Counting down.** With `T` the counts without the hole that is filled, all its redos are
    counted down, and those without another hole come out. -/
theorem countDown_eq {T : Redo → Nat} (hT : ∀ r r' : Redo, (r == r') = true → T r = T r')
    {l : List Redo} (hl : l.Pairwise fun a b => (a == b) = false) {holes : AssocMap Redo Nat}
    (hcount : ∀ r, holes.get? r = ofCount (T r + if l.any (· == r) then 1 else 0)) :
    ∃ holes', countDown holes l = some (l.filter fun r => T r = 0, holes') ∧
      ∀ r, holes'.get? r = ofCount (T r) := by
  induction l generalizing holes with
  | nil => exact ⟨holes, rfl, hcount⟩
  | cons a l ih =>
    rw [pairwise_cons] at hl
    have hself : holes.get? a = some (T a + 1) := by
      rw [hcount, any_cons, BEq.rfl, Bool.true_or]
      rfl
    -- the other redos of the hole are not `a`
    have hnot : ∀ r, (a == r) = true → l.any (· == r) = false := by
      intro r har
      rw [any_eq_false]
      intro b hb hbr
      have hab := hl.1 b hb
      rw [BEq.trans har (BEq.symm hbr)] at hab
      cases hab
    have hrest : ∀ holes₁ : AssocMap Redo Nat,
        (∀ r, holes₁.get? r = if a == r then ofCount (T a) else holes.get? r) →
        ∀ r, holes₁.get? r = ofCount (T r + if l.any (· == r) then 1 else 0) := by
      intro holes₁ hget r
      rw [hget]
      by_cases har : (a == r) = true
      · rw [if_pos har, hnot r har, hT a r har]
        rfl
      · rw [if_neg har, hcount, any_cons, Bool.eq_false_iff.mpr har, Bool.false_or]
    simp only [countDown, hself, Option.bind_eq_bind, Option.bind_some, Nat.succ_ne_zero, if_false,
      Nat.add_sub_cancel]
    by_cases hzero : T a = 0
    · obtain ⟨holes', hrun, hget⟩ := ih hl.2 (hrest (holes.erase a) fun r => by
        rw [get?_erase, hzero]
        rfl)
      refine ⟨holes', ?_, hget⟩
      rw [if_pos hzero, hrun, filter_cons_of_pos (by simpa using hzero)]
      rfl
    · obtain ⟨holes', hrun, hget⟩ := ih hl.2 (hrest (holes.insert a (T a)) fun r => by
        rw [get?_insert, ofCount, if_neg hzero])
      refine ⟨holes', ?_, hget⟩
      rw [if_neg hzero, hrun, filter_cons_of_neg (by simpa using hzero)]

theorem lists_erase (holes : AssocMap Redo Nat) (hole hole' : Hole) (redo : Redo) :
    (⟨holes, w.redos.erase hole⟩ : Waiting).lists hole' redo =
      (w.lists hole' redo && !(hole == hole')) := by
  unfold lists
  rw [get?_erase]
  by_cases h : (hole == hole') = true
  · rw [if_pos h, h, Bool.not_true, Bool.and_false]
    rfl
  · rw [if_neg h, Bool.eq_false_iff.mpr h, Bool.not_false, Bool.and_true]

/-- **What filling holes does**: the holes are no longer outstanding, and
    the redos that wait for no other hole come out, each once. -/
structure Fills (w : Waiting) (filled : Hole → Bool) (out : List Redo) (w' : Waiting) : Prop where
  sound : w'.Sound
  outstanding : ∀ hole, w'.redos.contains hole = (w.redos.contains hole && !filled hole)
  lists : ∀ hole redo, w'.lists hole redo = (w.lists hole redo && !filled hole)
  listing : ∀ redo, w'.listing redo ≤ w.listing redo
  distinct : out.Pairwise fun a b => (a == b) = false
  out : ∀ redo, out.any (· == redo) = true ↔ 0 < w.listing redo ∧ w'.listing redo = 0

theorem Fills.refl (hw : w.Sound) : w.Fills (fun _ => false) [] w where
  sound := hw
  outstanding hole := by rw [Bool.not_false, Bool.and_true]
  lists hole redo := by rw [Bool.not_false, Bool.and_true]
  listing _ := Nat.le_refl _
  distinct := .nil
  out redo := by
    constructor
    · intro h
      cases h
    · omega

theorem Fills.trans {w₁ w₂ : Waiting} {p₁ p₂ : Hole → Bool} {out₁ out₂ : List Redo}
    (h₁ : w.Fills p₁ out₁ w₁) (h₂ : w₁.Fills p₂ out₂ w₂) :
    w.Fills (fun hole => p₁ hole || p₂ hole) (out₁ ++ out₂) w₂ where
  sound := h₂.sound
  outstanding hole := by
    rw [h₂.outstanding, h₁.outstanding, Bool.and_assoc, Bool.not_or]
  lists hole redo := by
    rw [h₂.lists, h₁.lists, Bool.and_assoc, Bool.not_or]
  listing redo := (h₂.listing redo).trans (h₁.listing redo)
  distinct := by
    refine pairwise_append.mpr ⟨h₁.distinct, h₂.distinct, fun a ha b hb => ?_⟩
    -- what has come out is waiting no longer
    rw [Bool.eq_false_iff]
    intro hab
    have hzero := ((h₁.out b).mp (any_eq_true.mpr ⟨a, ha, hab⟩)).2
    have hpos := ((h₂.out b).mp (any_eq_true.mpr ⟨b, hb, BEq.rfl⟩)).1
    omega
  out redo := by
    rw [any_append, Bool.or_eq_true, h₁.out, h₂.out]
    have hle₁ := h₁.listing redo
    have hle₂ := h₂.listing redo
    omega

/-- **One hole of a backfill.** -/
theorem Sound.fill (hw : w.Sound) (hget : w.redos.get? hole = some redos) :
    ∃ out w', w.fill hole = some (out, w') ∧ w.Fills (hole == ·) out w' := by
  have hin : ∀ redo, redos.elems.any (· == redo) = redos.contains redo := by
    intro redo
    rw [Bool.eq_iff_iff, any_eq_true, redos.contains_iff]
  -- the number of holes that list a redo, before and after
  have hlisting : ∀ (holes : AssocMap Redo Nat) redo, w.listing redo =
      (⟨holes, w.redos.erase hole⟩ : Waiting).listing redo +
        if redos.contains redo then 1 else 0 :=
    fun _ redo => (total_erase_of_some
      (fun redos : KeySet Redo => if redos.contains redo then 1 else 0) hget).symm
  obtain ⟨holes', hrun, hcount⟩ := countDown_eq
    (T := (⟨w.holes, w.redos.erase hole⟩ : Waiting).listing) (fun _ _ h => listing_congr h)
    redos.elems_distinct (fun r => by rw [hw.counter, hin, ← hlisting])
  refine ⟨redos.elems.filter fun r => (⟨w.holes, w.redos.erase hole⟩ : Waiting).listing r = 0,
    ⟨holes', w.redos.erase hole⟩, ?_, ?_⟩
  · simp only [Waiting.fill, hget, hrun, Option.bind_eq_bind, Option.bind_some]
  refine ⟨⟨hcount, fun hole' redos' hget' => ?_⟩, fun hole' => ?_, lists_erase holes' hole,
    fun redo => ?_, redos.elems_distinct.filter _, fun redo => ?_⟩
  · replace hget' : (w.redos.erase hole).get? hole' = some redos' := hget'
    rw [get?_erase] at hget'
    split at hget'
    · cases hget'
    · exact hw.listed hole' redos' hget'
  · rw [contains_eq, contains_eq, get?_erase]
    cases hole == hole' with
    | true => exact (Bool.and_false _).symm
    | false => exact (Bool.and_true _).symm
  · rw [hlisting holes' redo]
    exact Nat.le_add_right _ _
  · have hout : (redos.elems.filter fun r =>
        (⟨w.holes, w.redos.erase hole⟩ : Waiting).listing r = 0).any (· == redo) = true ↔
        redos.contains redo = true ∧ (⟨holes', w.redos.erase hole⟩ : Waiting).listing redo = 0 := by
      rw [any_eq_true, redos.contains_iff]
      constructor
      · rintro ⟨r, hr, hrr⟩
        obtain ⟨hr, hzero⟩ := mem_filter.mp hr
        exact ⟨⟨r, hr, hrr⟩, (listing_congr hrr).symm.trans (of_decide_eq_true hzero)⟩
      · rintro ⟨⟨r, hr, hrr⟩, hzero⟩
        refine ⟨r, mem_filter.mpr ⟨hr, decide_eq_true ?_⟩, hrr⟩
        exact (listing_congr hrr).trans hzero
    rw [hout, hlisting holes' redo]
    cases redos.contains redo with
    | true => simp
    | false =>
      simp
      omega

/-- **The holes of a backfill**, one after another. -/
theorem Sound.fillAll (hw : w.Sound) {keys : List Row}
    (hkeys : keys.Pairwise fun a b => (a == b) = false)
    (hwaited : ∀ k ∈ keys, w.redos.contains (key_cols, k) = true) :
    ∃ out w', w.fillAll key_cols keys = some (out, w') ∧
      w.Fills (fun hole => keys.any fun k => (key_cols, k) == hole) out w' := by
  induction keys generalizing w with
  | nil => exact ⟨[], w, rfl, .refl hw⟩
  | cons k keys ih =>
    rw [pairwise_cons] at hkeys
    obtain ⟨redos, hget⟩ := Option.isSome_iff_exists.mp (hwaited k mem_cons_self)
    obtain ⟨out₁, w₁, hfill, hfills₁⟩ := hw.fill hget
    -- the holes of the other keys are still outstanding
    have hwaited₁ : ∀ k' ∈ keys, w₁.redos.contains (key_cols, k') = true := by
      intro k' hk'
      have hne : ((key_cols, k) == (key_cols, k')) = false := by
        show (key_cols == key_cols && k == k') = false
        rw [hkeys.1 k' hk', Bool.and_false]
      rw [hfills₁.outstanding, hwaited k' (mem_cons_of_mem _ hk'), hne]
      rfl
    obtain ⟨out₂, w₂, hrun, hfills₂⟩ := ih hfills₁.sound hkeys.2 hwaited₁
    refine ⟨out₁ ++ out₂, w₂, ?_, ?_⟩
    · simp only [Waiting.fillAll, hfill, hrun, Option.bind_eq_bind, Option.bind_some]
    · exact hfills₁.trans hfills₂

theorem Sound.empty_iff (hw : w.Sound) : w.holes.entries = [] ↔ w.redos.entries = [] := by
  rw [entries_eq_nil_iff, entries_eq_nil_iff]
  constructor
  · intro hnone hole
    cases hget : w.redos.get? hole with
    | none => rfl
    | some redos =>
      -- the first redo of the hole has no counter
      obtain ⟨redo, hredo⟩ := exists_mem_of_ne_nil _ (hw.listed hole redos hget)
      have hlists : w.lists hole redo = true := by
        rw [lists_of_some hget]
        exact redos.contains_of_mem hredo
      have hcount := hw.counter redo
      rw [hnone, ofCount] at hcount
      split at hcount
      · next hzero =>
        rw [(listing_eq_zero_iff w redo).mp hzero hole] at hlists
        cases hlists
      · cases hcount
  · intro hnone redo
    have hzero : w.listing redo = 0 :=
      (listing_eq_zero_iff w redo).mpr fun hole => lists_of_none (hnone hole) redo
    rw [hw.counter, hzero]
    rfl

theorem Sound.eq_new (hw : w.Sound) (h : w.redos.entries = []) : w = .new := by
  have hholes := hw.empty_iff.mpr h
  obtain ⟨⟨holes, hd⟩, ⟨redos, hd'⟩⟩ := w
  cases h
  cases hholes
  rfl

end Waiting

/-! ## Runs of a domain -/

/-- What changes the bookkeeping. -/
inductive WaitingEvent where
  | miss (m : ReplayMiss)
  | filled (ni : Nat) (key_cols : List Nat) (for_keys : KeySet Row)

namespace WaitingMap

def machine : Machine WaitingMap WaitingEvent (List Action) := fun waiting e =>
  match e with
  | .miss m => some (waiting.on_replay_miss m)
  | .filled ni key_cols for_keys => waiting.finish ni key_cols for_keys

def node (waiting : WaitingMap) (ni : Nat) : Waiting := (waiting.get? ni).getD .new

/-- Is the node waiting for the hole? -/
def outstanding (waiting : WaitingMap) (ni : Nat) (hole : Hole) : Bool :=
  (waiting.node ni).redos.contains hole

/-- Does the redo wait for the hole? -/
def lists (waiting : WaitingMap) (ni : Nat) (hole : Hole) (redo : Redo) : Bool :=
  (waiting.node ni).lists hole redo

/-- Does the redo wait for any hole of the node? -/
def Waits (waiting : WaitingMap) (ni : Nat) (redo : Redo) : Prop :=
  ∃ hole, waiting.lists ni hole redo = true

def Sound (waiting : WaitingMap) : Prop := ∀ ni, (waiting.node ni).Sound

/-- The holes of a backfill. -/
def isFilled (ni : Nat) (key_cols : List Nat) (for_keys : KeySet Row) (ni' : Nat) (hole : Hole) :
    Bool :=
  ni == ni' && for_keys.elems.any fun k => (key_cols, k) == hole

/-- **Exactly once.** A hole is requested when it becomes outstanding, and
    a redo is run again when the last hole it waits for has been filled. -/
def Exact (waiting : WaitingMap) : WaitingEvent → List Action → WaitingMap → Prop
  | .miss m, out, waiting' =>
    out = (if waiting.outstanding m.miss_in m.hole then [] else [.request m.miss_in m.hole]) ∧
      (∀ ni hole, waiting'.outstanding ni hole =
        (waiting.outstanding ni hole || (m.miss_in == ni && m.hole == hole))) ∧
      ∀ ni hole redo, waiting'.lists ni hole redo =
        (waiting.lists ni hole redo || (m.miss_in == ni && (m.hole == hole && m.redo == redo)))
  | .filled ni key_cols for_keys, out, waiting' =>
    (∃ redos : List Redo, out = redos.map .redo ∧
      redos.Pairwise (fun a b => (a == b) = false) ∧
      ∀ redo, redos.any (· == redo) = true ↔ waiting.Waits ni redo ∧ ¬waiting'.Waits ni redo) ∧
      (∀ ni' hole, waiting'.outstanding ni' hole =
        (waiting.outstanding ni' hole && !isFilled ni key_cols for_keys ni' hole)) ∧
      ∀ ni' hole redo, waiting'.lists ni' hole redo =
        (waiting.lists ni' hole redo && !isFilled ni key_cols for_keys ni' hole)

variable {waiting : WaitingMap} {ni : Nat}

theorem node_insert (waiting : WaitingMap) (ni ni' : Nat) (w : Waiting) :
    node (AssocMap.insert waiting ni w) ni' = if ni == ni' then w else waiting.node ni' := by
  unfold node
  rw [get?_insert]
  split <;> rfl

theorem node_erase (waiting : WaitingMap) (ni ni' : Nat) :
    node (AssocMap.erase waiting ni) ni' = if ni == ni' then .new else waiting.node ni' := by
  unfold node
  rw [get?_erase]
  split <;> rfl

theorem waits_iff (waiting : WaitingMap) (ni : Nat) (redo : Redo) :
    waiting.Waits ni redo ↔ 0 < (waiting.node ni).listing redo := by
  rw [Nat.pos_iff_ne_zero, Ne, Waiting.listing_eq_zero_iff]
  push Not
  simp only [Bool.eq_false_iff, ne_eq, not_not]
  rfl

/-! ### One step -/

theorem contains_miss (w : Waiting) (hole hole' : Hole) (redo : Redo) :
    (w.miss hole redo).2.redos.contains hole' = (w.redos.contains hole' || (hole == hole')) := by
  rw [Waiting.miss_eq]
  cases hin : w.lists hole redo with
  | false =>
    show (w.redos.insert hole _).contains hole' = _
    rw [AssocMap.contains_insert, Bool.or_comm]
  | true =>
    show w.redos.contains hole' = _
    by_cases h : (hole == hole') = true
    · -- the hole is there already
      rw [h, Bool.or_true, contains_eq, ← w.redos.get?_congr h]
      cases hget : w.redos.get? hole with
      | none =>
        rw [Waiting.lists_of_none hget] at hin
        cases hin
      | some redos => rfl
    · rw [Bool.eq_false_iff.mpr h, Bool.or_false]

theorem Sound.miss (hs : waiting.Sound) (m : ReplayMiss) :
    (waiting.on_replay_miss m).2.Sound ∧
      waiting.Exact (.miss m) (waiting.on_replay_miss m).1 (waiting.on_replay_miss m).2 := by
  have hnode : ∀ ni, (waiting.on_replay_miss m).2.node ni =
      if m.miss_in == ni then ((waiting.node m.miss_in).miss m.hole m.redo).2
      else waiting.node ni := fun ni => node_insert waiting m.miss_in ni _
  refine ⟨fun ni => ?_, ?_, fun ni hole => ?_, fun ni hole redo => ?_⟩
  · rw [hnode]
    split
    · exact (hs m.miss_in).miss m.hole m.redo
    · exact hs ni
  · show (if ((waiting.node m.miss_in).miss m.hole m.redo).1 then _ else _) = _
    rw [Waiting.miss_eq]
    unfold outstanding
    cases (waiting.node m.miss_in).redos.contains m.hole <;> rfl
  · unfold outstanding
    rw [hnode]
    by_cases h : (m.miss_in == ni) = true
    · rw [if_pos h, h, contains_miss, eq_of_beq h, Bool.true_and]
    · rw [if_neg h, Bool.eq_false_iff.mpr h, Bool.false_and, Bool.or_false]
  · unfold lists
    rw [hnode]
    by_cases h : (m.miss_in == ni) = true
    · rw [if_pos h, h, Waiting.lists_miss, eq_of_beq h, Bool.true_and]
    · rw [if_neg h, Bool.eq_false_iff.mpr h, Bool.false_and, Bool.or_false]

theorem Sound.filled (hs : waiting.Sound) {for_keys : KeySet Row} (hne : for_keys.elems ≠ [])
    (hwaited : ∀ k ∈ for_keys.elems, waiting.outstanding ni (key_cols, k) = true) :
    ∃ out waiting', waiting.finish ni key_cols for_keys = some (out, waiting') ∧ waiting'.Sound ∧
      waiting.Exact (.filled ni key_cols for_keys) out waiting' := by
  -- some hole is outstanding, so there is a record for the node
  obtain ⟨w, hget⟩ : ∃ w, waiting.get? ni = some w := by
    obtain ⟨k, hk⟩ := exists_mem_of_ne_nil _ hne
    have hk := hwaited k hk
    unfold outstanding node at hk
    cases hget : waiting.get? ni with
    | none =>
      rw [hget] at hk
      cases hk
    | some w => exact ⟨w, rfl⟩
  have hw : waiting.node ni = w := by
    rw [node, hget]
    rfl
  have hwaited' : ∀ k ∈ for_keys.elems, w.redos.contains (key_cols, k) = true := by
    rw [← hw]
    exact hwaited
  obtain ⟨redos, w', hrun, hfills⟩ :=
    (hw ▸ hs ni : w.Sound).fillAll for_keys.elems_distinct hwaited'
  -- with or without a record for the node at the end, it is `w'`
  obtain ⟨waiting', hfinish, hnode⟩ : ∃ waiting',
      waiting.finish ni key_cols for_keys = some (redos.map .redo, waiting') ∧
        ∀ ni', waiting'.node ni' = if ni == ni' then w' else waiting.node ni' := by
    unfold finish
    simp only [hget, hrun, Option.bind_eq_bind, Option.bind_some]
    have hempty := hfills.sound.empty_iff
    by_cases hholes : w'.holes.entries = []
    · have hredos := hempty.mp hholes
      refine ⟨waiting.erase ni, by rw [hholes, hredos]; rfl, fun ni' => ?_⟩
      rw [node_erase, hfills.sound.eq_new hredos]
    · have hredos := mt hempty.mpr hholes
      refine ⟨waiting.insert ni w', ?_, fun ni' => node_insert waiting ni ni' w'⟩
      rw [Bool.eq_false_iff.mpr (mt isEmpty_iff.mp hholes),
        Bool.eq_false_iff.mpr (mt isEmpty_iff.mp hredos)]
      rfl
  have hs' : waiting'.Sound := by
    intro ni'
    rw [hnode]
    split
    · exact hfills.sound
    · exact hs ni'
  refine ⟨_, waiting', hfinish, hs', ⟨redos, rfl, hfills.distinct, fun redo => ?_⟩,
    fun ni' hole => ?_, fun ni' hole redo => ?_⟩
  · rw [hfills.out, waits_iff, waits_iff, hnode, if_pos BEq.rfl, hw]
    omega
  · unfold outstanding isFilled
    rw [hnode]
    by_cases h : (ni == ni') = true
    · rw [if_pos h, h, hfills.outstanding, ← eq_of_beq h, hw, Bool.true_and]
    · rw [if_neg h, Bool.eq_false_iff.mpr h, Bool.false_and, Bool.not_false, Bool.and_true]
  · unfold lists isFilled
    rw [hnode]
    by_cases h : (ni == ni') = true
    · rw [if_pos h, h, hfills.lists, ← eq_of_beq h, hw, Bool.true_and]
    · rw [if_neg h, Bool.eq_false_iff.mpr h, Bool.false_and, Bool.not_false, Bool.and_true]

/-! ### Whole runs -/

/-- Every backfill is of keys that are waited for, and of one at least. -/
def Waited (events : List WaitingEvent) : Prop :=
  ∀ before ni key_cols for_keys rest,
    events = before ++ .filled ni key_cols for_keys :: rest → ∀ out waiting,
    Machine.feed machine (∅ : WaitingMap) before = some (out, waiting) →
      for_keys.elems ≠ [] ∧
        ∀ k ∈ for_keys.elems, waiting.outstanding ni (key_cols, k) = true

theorem sound_empty : WaitingMap.Sound ∅ := fun _ => Waiting.sound_new

/-- **The redo bookkeeping.** Over every sequence of misses and backfills, nothing panics; after
    every step the counter of each redo is the number of outstanding holes that list it, and is
    there only if that is positive; and in every step a hole is requested exactly if it becomes
    outstanding, and a redo is run again exactly once if its last hole is filled and not otherwise.
    -/
theorem redo_bookkeeping {events : List WaitingEvent} (hwaited : Waited events)
    {before rest : List WaitingEvent} {e : WaitingEvent} (hsplit : events = before ++ e :: rest) :
    ∃ out waiting acts waiting',
      Machine.feed machine (∅ : WaitingMap) before = some (out, waiting) ∧
      machine waiting e = some (acts, waiting') ∧ waiting.Sound ∧ waiting'.Sound ∧
      waiting.Exact e acts waiting' := by
  have hstep : ∀ before e rest out waiting, events = before ++ e :: rest →
      (Machine.feed machine (∅ : WaitingMap) before = some (out, waiting) ∧ waiting.Sound) →
      ∃ acts waiting', machine waiting e = some (acts, waiting') ∧ waiting'.Sound ∧
        waiting.Exact e acts waiting' := by
    rintro before e rest out waiting hsplit ⟨hfeed, hs⟩
    cases e with
    | miss m => exact ⟨_, _, rfl, hs.miss m⟩
    | filled ni key_cols for_keys =>
      obtain ⟨hne, hkeys⟩ := hwaited before ni key_cols for_keys rest hsplit out waiting hfeed
      exact hs.filled hne hkeys
  obtain ⟨out, waiting, hfeed, -, hs⟩ := Machine.feed_invariant (I := fun before out waiting =>
      Machine.feed machine (∅ : WaitingMap) before = some (out, waiting) ∧ waiting.Sound)
    ⟨rfl, sound_empty⟩ (fun before e rest out waiting hsplit hinv => by
      obtain ⟨acts, waiting', hrun, hs', -⟩ := hstep before e rest out waiting hsplit hinv
      exact ⟨acts, waiting', hrun, Machine.feed_snoc hinv.1 hrun, hs'⟩) hsplit
  obtain ⟨acts, waiting', hrun, hs', hexact⟩ := hstep before e rest out waiting hsplit ⟨hfeed, hs⟩
  exact ⟨out, waiting, acts, waiting', hfeed, hrun, hs, hs', hexact⟩

/-- Two replays miss in one hole, and the first one in another hole too. -/
def crossed : List WaitingEvent :=
  [.miss ⟨3, [0], [.int 1], [.int 7], true, 0, 5⟩, .miss ⟨3, [0], [.int 1], [.int 8], true, 0, 5⟩,
    .miss ⟨3, [0], [.int 2], [.int 7], true, 0, 5⟩, .filled 3 [0] (KeySet.add ∅ [.int 7]),
    .filled 3 [0] (KeySet.add ∅ [.int 8])]

theorem crossed_waited : Waited crossed := by
  rintro (_ | ⟨a, _ | ⟨b, _ | ⟨c, _ | ⟨d, _ | ⟨f, before⟩⟩⟩⟩⟩) ni key_cols for_keys rest hsplit out
    waiting hfeed
  · cases hsplit
  · cases hsplit
  · cases hsplit
  · cases hsplit
    cases hfeed
    decide
  · cases hsplit
    cases hfeed
    decide
  · have := congrArg List.length hsplit
    simp [crossed] at this

/-- The backfill of the second hole runs the first replay again. -/
theorem crossed_exact : ∃ out waiting acts waiting',
    Machine.feed machine (∅ : WaitingMap) (crossed.take 4) = some (out, waiting) ∧
      machine waiting (.filled 3 [0] (KeySet.add ∅ [.int 8])) = some (acts, waiting') ∧
      waiting.Sound ∧ waiting'.Sound ∧
      waiting.Exact (.filled 3 [0] (KeySet.add ∅ [.int 8])) acts waiting' :=
  redo_bookkeeping crossed_waited rfl

end WaitingMap

end Noria.Server

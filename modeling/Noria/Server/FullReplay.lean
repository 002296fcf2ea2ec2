import Mathlib.Tactic.FinCases
import Noria.Server.Union

/-! # Full replays through a union

  When a node is built from scratch, everything its ancestors have is replayed to it, in pieces, and
  only one such replay goes on at a time. Below a union the pieces of all parents have to look like
  one replay: it must not begin before every parent has begun, and it ends when the last parent has
  ended. What a parent sends between its own beginning and the common one is not in its pieces, so
  the union adds it to them.

  `full_replay_through_union` is the whole contract, for any order in
  which the packets of the parents come in.
-/

namespace Noria.Server

open Noria.Sqlite (Record Records)
open List Option Finset

variable {fw : FullWait} {rest : List Packet} {last : Bool} {rs : Records} {h : List Packet}

/-! ## What the parents send -/

namespace Packet

/-- Is it a piece of a full replay? -/
def isFull (e : Packet) : Bool :=
  match e.context with
  | .full _ => true
  | _ => false

/-- For a piece of a full replay from `p`: is it the last one? -/
def lastFrom (p : Nat) (e : Packet) : Option Bool :=
  match e.context with
  | .full last => if e.src = p then some last else none
  | _ => none

end Packet

def lastMarks (p : Nat) (h : List Packet) : List Bool := h.filterMap (Packet.lastFrom p)

/-- Has `p` sent a piece? -/
def hasSent (p : Nat) (h : List Packet) : Bool := !(lastMarks p h).isEmpty

/-- Has `p` sent its last piece? -/
def hasEnded (p : Nat) (h : List Packet) : Bool := (lastMarks p h).contains true

theorem lastMarks_snoc (p : Nat) (h : List Packet) (e : Packet) :
    lastMarks p (h ++ [e]) = lastMarks p h ++ (e.lastFrom p).toList := by
  unfold lastMarks
  rw [filterMap_append, filterMap_cons, filterMap_nil]
  cases e.lastFrom p <;> rfl

namespace Union

variable {B : OrderedMap PieceKey ReplayPieces}

/-- **One full replay.** Each parent sends any number of pieces and marks
    the last one, and any regular records in between. -/
structure FullRun (u : Union B) (h : List Packet) : Prop where
  src : ∀ e ∈ h, e.src ∈ u.parents
  context : ∀ e ∈ h, e.context = .none ∨ e.isFull = true
  pieces : ∀ p ∈ u.parents, ∃ n, lastMarks p h = List.replicate n false ++ [true]
  columns : ∀ e ∈ h, ∃ rs, u.emit.on_input e.src e.rs = some rs

/-- What a packet contributes to the replay: the rows of a piece, and the
    records of a parent that has begun, as long as some parent has not. -/
def contribution (u : Union B) (before : List Packet) (e : Packet) : Records :=
  if e.isFull then u.emitted e.src e.rs
  else if hasSent e.src before ∧ ∃ p ∈ u.parents, hasSent p before = false then
    u.emitted e.src e.rs
  else []

/-- All contributions, in the order of arrival. -/
def contributions (u : Union B) : List Packet → List Packet → Records
  | _, [] => []
  | before, e :: rest => u.contribution before e ++ u.contributions (before ++ [e]) rest

def replayed (out : List RawProcessingResult) : List (Records × Bool) :=
  out.filterMap fun res =>
    match res with
    | .fullReplay rs last => some (rs, last)
    | _ => none

/-! ## The union while it happens -/

def started (u : Union B) (before : List Packet) : Finset Nat :=
  u.parents.filter fun p => hasSent p before

def ended (u : Union B) (before : List Packet) : Finset Nat :=
  u.parents.filter fun p => hasEnded p before

/-- Where a full replay stands: not begun, held back, flowing or over. -/
inductive Progress (u : Union B) (before : List Packet) (out : List RawProcessingResult) :
    FullWait → Prop
  | idle (hnone : u.started before = ∅) (hout : replayed out = [])
      (hrows : u.contributions [] before = []) : Progress u before out .none
  | held (hopen : u.started before ≠ u.parents) (hout : replayed out = []) :
      Progress u before out
        (.ongoing (u.started before) (u.ended before).card (u.contributions [] before))
  | flowing (hall : u.started before = u.parents) (hopen : u.ended before ≠ u.parents)
      (hout : (replayed out).flatMap Prod.fst = u.contributions [] before)
      (hbegun : replayed out ≠ []) (hlast : ∀ o ∈ replayed out, o.2 = false) :
      Progress u before out (.ongoing u.parents (u.ended before).card [])
  | finished (hall : u.ended before = u.parents)
      (hout : (replayed out).flatMap Prod.fst = u.contributions [] before)
      (hlast : ∃ first rows, replayed out = first ++ [(rows, true)] ∧ ∀ o ∈ first, o.2 = false) :
      Progress u before out .none

variable {u : Union B} {before : List Packet} {out : List RawProcessingResult} {e : Packet}

theorem contributions_append (u : Union B) (pre l l' : List Packet) :
    u.contributions pre (l ++ l') = u.contributions pre l ++ u.contributions (pre ++ l) l' := by
  induction l generalizing pre with
  | nil => simp [contributions]
  | cons e l ih => simp [contributions, ih, append_assoc]

theorem contributions_snoc (u : Union B) (before : List Packet) (e : Packet) :
    u.contributions [] (before ++ [e]) = u.contributions [] before ++ u.contribution before e := by
  rw [contributions_append]
  simp [contributions]

theorem replayed_snoc (out : List RawProcessingResult) (res : RawProcessingResult) :
    replayed (out ++ [res]) = replayed out ++ replayed [res] := filterMap_append

@[simp] theorem replayed_regular (res : ProcessingResult) : replayed [.regular res] = [] := rfl

@[simp] theorem replayed_capturedFull : replayed [.capturedFull] = [] := rfl

@[simp] theorem replayed_fullReplay (rs : Records) (last : Bool) :
    replayed [.fullReplay rs last] = [(rs, last)] := rfl

theorem started_subset (u : Union B) (before : List Packet) : u.started before ⊆ u.parents :=
  filter_subset _ _

theorem ended_subset_started (u : Union B) (before : List Packet) :
    u.ended before ⊆ u.started before := by
  intro p hp
  obtain ⟨hp, hended⟩ := mem_filter.mp hp
  refine mem_filter.mpr ⟨hp, ?_⟩
  unfold hasEnded at hended
  unfold hasSent
  cases hmarks : lastMarks p before with
  | nil =>
    rw [hmarks] at hended
    cases hended
  | cons b l => rfl

theorem ended_subset (u : Union B) (before : List Packet) : u.ended before ⊆ u.parents :=
  filter_subset _ _

theorem Idle.card_iff (hidle : u.Idle) {s : Finset Nat} (hs : s ⊆ u.parents) :
    s.card = u.required ↔ s = u.parents := by
  rw [hidle.required]
  constructor
  · intro hcard
    exact eq_of_subset_of_card_le hs hcard.ge
  · rintro rfl
    rfl

theorem exists_not_sent (h : u.started before ≠ u.parents) :
    ∃ p ∈ u.parents, hasSent p before = false := by
  by_contra hall
  push Not at hall
  refine h (filter_true_of_mem fun p hp => ?_)
  exact Bool.eq_true_of_not_eq_false (hall p hp)

theorem no_contribution (h : u.started before = u.parents) (he : e.isFull = false) :
    u.contribution before e = [] := by
  unfold contribution
  rw [he, if_neg Bool.false_ne_true, if_neg]
  rintro ⟨-, p, hp, hnot⟩
  rw [← h] at hp
  rw [(mem_filter.mp hp).2] at hnot
  cases hnot

/-! ### Regular records -/

theorem lastFrom_of_regular (h : e.context = .none) (p : Nat) : e.lastFrom p = none := by
  rw [Packet.lastFrom, h]

theorem isFull_of_regular (h : e.context = .none) : e.isFull = false := by
  rw [Packet.isFull, h]

theorem started_regular (u : Union B) (before : List Packet) (h : e.context = .none) :
    u.started (before ++ [e]) = u.started before := by
  unfold started hasSent
  simp only [lastMarks_snoc, lastFrom_of_regular h, toList_none, append_nil]

theorem ended_regular (u : Union B) (before : List Packet) (h : e.context = .none) :
    u.ended (before ++ [e]) = u.ended before := by
  unfold ended hasEnded
  simp only [lastMarks_snoc, lastFrom_of_regular h, toList_none, append_nil]

theorem forward_eq (hidle : u.Idle) (fw : FullWait) {src : Nat} {rs' : Records}
    (hrs : u.emit.on_input src rs = some rs') :
    ({ u with full_wait_state := fw } : Union B).forward src rs
      = some (.regular (passed rs'), { u with full_wait_state := fw }) := by
  simp only [forward, on_input, hidle.replay_pieces, hrs, if_true,
    map_some, bind_eq_bind, bind_some]
  rfl

/-- **A regular record during a full replay** goes through, and is kept for
    the replay exactly when its parent has begun and another has not. -/
theorem step_regular (hidle : u.Idle) (h : Progress u before out fw) (hsrc : e.src ∈ u.parents)
    (hctx : e.context = .none) (hrs : u.emit.on_input e.src e.rs = some rs) :
    ∃ res fw', machine { u with full_wait_state := fw } e
        = some (res, { u with full_wait_state := fw' }) ∧
      Progress u (before ++ [e]) (out ++ [res]) fw' := by
  have hfull := isFull_of_regular hctx
  have hforward := forward_eq hidle fw hrs
  have hout : replayed (out ++ [.regular (passed rs)]) = replayed out := by
    rw [replayed_snoc, replayed_regular, append_nil]
  have hstarted := started_regular u before hctx
  have hended := ended_regular u before hctx
  have hemitted : u.emitted e.src e.rs = rs := by rw [emitted, hrs]; rfl
  refine ⟨.regular (passed rs), ?_⟩
  unfold machine on_input_raw
  rw [hctx]
  cases h with
  | idle hnone hout₀ hrows =>
    refine ⟨.none, hforward, .idle (hstarted.trans hnone) (hout.trans hout₀) ?_⟩
    -- no parent has begun, this one neither
    rw [contributions_snoc, hrows, nil_append, contribution, hfull,
      if_neg Bool.false_ne_true, if_neg]
    rintro ⟨hsent, -⟩
    have hmem : e.src ∈ u.started before := mem_filter.mpr ⟨hsrc, hsent⟩
    rw [hnone] at hmem
    exact notMem_empty _ hmem
  | held hopen hout₀ =>
    have hcard := mt (hidle.card_iff (u.started_subset before)).mp hopen
    by_cases hmem : e.src ∈ u.started before
    · -- kept for the replay
      have hcontrib : u.contribution before e = rs := by
        rw [contribution, hfull, if_neg Bool.false_ne_true,
          if_pos ⟨(mem_filter.mp hmem).2, exists_not_sent hopen⟩, hemitted]
      refine ⟨.ongoing (u.started before) (u.ended before).card
        (u.contributions [] before ++ rs), ?_, ?_⟩
      · simp only [on_regular, on_input, if_pos (And.intro hcard hmem), hidle.replay_pieces, hrs,
          Bool.or_true, if_true, map_some, bind_eq_bind,
          bind_some]
        rfl
      · have hrows : u.contributions [] (before ++ [e]) = u.contributions [] before ++ rs := by
          rw [contributions_snoc, hcontrib]
        rw [← hrows, ← hstarted, ← hended]
        exact .held (hstarted ▸ hopen) (hout.trans hout₀)
    · have hcontrib : u.contribution before e = [] := by
        rw [contribution, hfull, if_neg Bool.false_ne_true, if_neg]
        rintro ⟨hsent, -⟩
        exact hmem (mem_filter.mpr ⟨hsrc, hsent⟩)
      refine ⟨.ongoing (u.started before) (u.ended before).card (u.contributions [] before), ?_, ?_⟩
      · simp only [on_regular, if_neg fun hand : _ ∧ _ => hmem hand.2]
        exact hforward
      · have hrows : u.contributions [] (before ++ [e]) = u.contributions [] before := by
          rw [contributions_snoc, hcontrib, append_nil]
        rw [← hrows, ← hstarted, ← hended]
        exact .held (hstarted ▸ hopen) (hout.trans hout₀)
  | flowing hall hopen hout₀ hbegun hlast =>
    have hnot : ¬(u.parents.card ≠ u.required ∧ e.src ∈ u.parents) := by
      rintro ⟨hne, -⟩
      exact hne hidle.required.symm
    refine ⟨.ongoing u.parents (u.ended before).card [], ?_, ?_⟩
    · simp only [on_regular, if_neg hnot]
      exact hforward
    · rw [← hended]
      refine .flowing (hstarted.trans hall) (hended ▸ hopen) ?_ (hout ▸ hbegun) (hout ▸ hlast)
      rw [hout, hout₀, contributions_snoc, no_contribution hall hfull, append_nil]
  | finished hall hout₀ hlast =>
    have hall' : u.started before = u.parents :=
      (u.started_subset before).antisymm (hall ▸ u.ended_subset_started before)
    refine ⟨.none, hforward, .finished (hended.trans hall) ?_ (hout ▸ hlast)⟩
    rw [hout, hout₀, contributions_snoc, no_contribution hall' hfull, append_nil]

/-! ### Pieces -/

theorem lastFrom_of_full (h : e.context = .full last) (p : Nat) :
    e.lastFrom p = if e.src = p then some last else none := by
  rw [Packet.lastFrom, h]

theorem started_full (before : List Packet) (h : e.context = .full last)
    (hsrc : e.src ∈ u.parents) : u.started (before ++ [e]) = insert e.src (u.started before) := by
  ext p
  simp only [started, hasSent, mem_insert, lastMarks_snoc,
    lastFrom_of_full h]
  by_cases hp : e.src = p
  · subst hp
    simp [hsrc]
  · simp [hp, Ne.symm hp]

theorem ended_full (h : e.context = .full last) (hsrc : e.src ∈ u.parents) :
    u.ended (before ++ [e]) = if last then insert e.src (u.ended before) else u.ended before := by
  ext p
  simp only [ended, hasEnded, lastMarks_snoc, lastFrom_of_full h]
  by_cases hp : e.src = p
  · subst hp
    cases last <;> simp [hsrc]
  · cases last <;> simp [hp, Ne.symm hp]

theorem card_ended_full (h : e.context = .full last) (hsrc : e.src ∈ u.parents)
    (hnew : e.src ∉ u.ended before) :
    (u.ended (before ++ [e])).card =
      if last then (u.ended before).card + 1 else (u.ended before).card := by
  rw [ended_full h hsrc]
  cases last with
  | true => exact card_insert_of_notMem hnew
  | false => rfl

/-- **A piece of a full replay** is held back until every parent has begun,
    and the one that ends the last parent ends the replay. -/
theorem step_full (hidle : u.Idle) (htwo : 2 ≤ u.required) (h : Progress u before out fw)
    (hsrc : e.src ∈ u.parents) (hctx : e.context = .full last) (hnew : e.src ∉ u.ended before)
    (hrs : u.emit.on_input e.src e.rs = some rs) :
    ∃ res fw', machine { u with full_wait_state := fw } e
        = some (res, { u with full_wait_state := fw' }) ∧
      Progress u (before ++ [e]) (out ++ [res]) fw' := by
  have hstarted := started_full before hctx hsrc
  have hcard := card_ended_full hctx hsrc hnew
  have hrows : u.contributions [] (before ++ [e]) = u.contributions [] before ++ rs := by
    have hfull : e.isFull = true := by rw [Packet.isFull, hctx]
    rw [contributions_snoc, contribution, hfull, if_pos rfl, emitted, hrs]
    rfl
  have hcaptured : replayed (out ++ [.capturedFull]) = replayed out := by
    rw [replayed_snoc, replayed_capturedFull, append_nil]
  have hreplay : ∀ rs' last', replayed (out ++ [.fullReplay rs' last'])
      = replayed out ++ [(rs', last')] := fun rs' last' => by
    rw [replayed_snoc, replayed_fullReplay]
  have hend := hidle.card_iff (u.ended_subset (before ++ [e]))
  rw [hcard] at hend
  unfold machine on_input_raw
  rw [hctx]
  cases h with
  | idle hnone hout hnil =>
    -- the first piece of the replay; two parents are needed to begin
    have hone : u.started (before ++ [e]) = {e.src} := by rw [hstarted, hnone]; rfl
    have hzero : (u.ended before).card = 0 := by
      rw [card_eq_zero, ← subset_empty, ← hnone]
      exact u.ended_subset_started before
    refine ⟨.capturedFull, .ongoing {e.src} (if last then 1 else 0) rs, ?_, ?_⟩
    · simp only [on_full, on_input, hrs, map_some, bind_eq_bind, bind_some]
      rw [if_neg (by omega)]
    · rw [hzero] at hcard
      have hopen : u.started (before ++ [e]) ≠ u.parents := by
        rw [hone]
        intro heq
        have := hidle.required
        rw [← heq, card_singleton] at this
        omega
      have hheld := Progress.held hopen (hcaptured.trans hout)
      rwa [hone, hcard, hrows, hnil] at hheld
  | held hopen hout =>
    simp only [on_full, on_input, hrs, map_some, bind_eq_bind, bind_some]
    by_cases hdone : u.ended (before ++ [e]) = u.parents
    · -- every parent has ended with this piece
      refine ⟨.fullReplay (u.contributions [] before ++ rs) true, .none, ?_, ?_⟩
      · rw [if_pos (hend.mpr hdone)]
      · refine .finished hdone ?_ ⟨[], _, by rw [hreplay, hout], by simp⟩
        rw [hreplay, hout, hrows]
        simp
    · rw [if_neg (mt hend.mp hdone),
        if_pos (mt (hidle.card_iff (u.started_subset before)).mp hopen), ← hstarted, ← hcard]
      by_cases hbegun : u.started (before ++ [e]) = u.parents
      · -- the last parent begins, and the replay with it
        have hnotin : e.src ∉ u.started before := by
          intro hmem
          rw [hstarted, insert_eq_of_mem hmem] at hbegun
          exact hopen hbegun
        refine ⟨.fullReplay (u.contributions [] before ++ rs) false, _,
          if_pos ⟨hnotin, (hidle.card_iff (u.started_subset _)).mpr hbegun⟩, ?_⟩
        rw [hbegun]
        refine .flowing hbegun hdone ?_ ?_ ?_
        · rw [hreplay, hout, hrows]
          simp
        · rw [hreplay, hout]
          simp
        · rw [hreplay, hout]
          simp
      · refine ⟨.capturedFull, _, if_neg fun hand : _ ∧ _ => hbegun
          ((hidle.card_iff (u.started_subset _)).mp hand.2), ?_⟩
        rw [← hrows]
        exact .held hbegun (hcaptured.trans hout)
  | flowing hall hopen hout hbegun hlast =>
    simp only [on_full, on_input, hrs, map_some, bind_eq_bind, bind_some]
    have hall' : u.started (before ++ [e]) = u.parents := by
      rw [hstarted, hall, insert_eq_of_mem hsrc]
    by_cases hdone : u.ended (before ++ [e]) = u.parents
    · refine ⟨.fullReplay ([] ++ rs) true, .none, if_pos (hend.mpr hdone), ?_⟩
      refine .finished hdone ?_ ⟨replayed out, _, hreplay _ _, hlast⟩
      rw [hreplay, flatMap_append, hout, hrows]
      simp
    · rw [if_neg (mt hend.mp hdone), if_neg (not_not.mpr hidle.required.symm), ← hcard]
      refine ⟨.fullReplay rs false, _, rfl, .flowing hall' hdone ?_ ?_ ?_⟩
      · rw [hreplay, flatMap_append, hout, hrows]
        simp
      · rw [hreplay]
        simp
      · rw [hreplay]
        simpa [or_imp, forall_and] using hlast
  | finished hall hout hlast =>
    rw [hall] at hnew
    exact absurd hsrc hnew

/-! ## The contract -/

theorem not_mem_of_append_cons {n : Nat} {l l' : List Bool} {b : Bool}
    (h : l ++ b :: l' = List.replicate n false ++ [true]) : true ∉ l := by
  intro hmem
  have hlen := congrArg List.length h
  simp only [length_append, length_cons, length_replicate, length_nil] at hlen
  have htake : l = (List.replicate n false ++ [true]).take l.length := by
    rw [← h, take_left]
  rw [htake, take_append_of_le_length (by rw [length_replicate]; omega)] at hmem
  have := eq_of_mem_replicate (mem_of_mem_take hmem)
  cases this

theorem FullRun.not_ended (hrun : u.FullRun h) (hsplit : h = before ++ e :: rest)
    (hctx : e.context = .full last) : e.src ∉ u.ended before := by
  intro hmem
  obtain ⟨hp, hended⟩ := mem_filter.mp hmem
  obtain ⟨n, hn⟩ := hrun.pieces e.src hp
  have hmarks : lastMarks e.src h = lastMarks e.src before ++ last :: lastMarks e.src rest := by
    unfold lastMarks
    rw [hsplit, filterMap_append,
      filterMap_cons_some (by rw [lastFrom_of_full hctx, if_pos rfl])]
  rw [hmarks] at hn
  exact not_mem_of_append_cons hn (contains_iff_mem.mp hended)

/-- Every prefix of the packets is processed, and leaves the replay somewhere on its way. -/
theorem FullRun.progress (hidle : u.Idle) (htwo : 2 ≤ u.required) (hrun : u.FullRun h)
    (hsplit : h = before ++ rest) :
    ∃ out s, Machine.feed machine u before = some (out, s) ∧
      ∃ fw, s = { u with full_wait_state := fw } ∧ Progress u before out fw := by
  refine Machine.feed_invariant (I := fun before out s =>
    ∃ fw, s = { u with full_wait_state := fw } ∧ Progress u before out fw) ?_ ?_ hsplit
  · refine ⟨.none, ?_, .idle (filter_false_of_mem fun p _ => ?_) rfl rfl⟩
    · rw [← hidle.full_wait_state]
    · simp [hasSent, lastMarks]
  · rintro before e rest out s hsplit ⟨fw, rfl, hprogress⟩
    have he : e ∈ h := by rw [hsplit]; simp
    obtain ⟨rs, hrs⟩ := hrun.columns e he
    have hstep : ∃ res fw', machine { u with full_wait_state := fw } e
          = some (res, { u with full_wait_state := fw' }) ∧
        Progress u (before ++ [e]) (out ++ [res]) fw' := by
      cases hctx : e.context with
      | none => exact step_regular hidle hprogress (hrun.src e he) hctx hrs
      | full last =>
        exact step_full hidle htwo hprogress (hrun.src e he) hctx (hrun.not_ended hsplit hctx) hrs
      | partialFor key_cols keys requesting_shard tag unishard =>
        rcases hrun.context e he with hnone | hfull
        · rw [hctx] at hnone
          cases hnone
        · rw [Packet.isFull, hctx] at hfull
          cases hfull
    obtain ⟨res, fw', hres, hprogress'⟩ := hstep
    exact ⟨res, _, hres, fw', rfl, hprogress'⟩

theorem FullRun.ended_eq (hrun : u.FullRun h) : u.ended h = u.parents := by
  refine filter_true_of_mem fun p hp => ?_
  obtain ⟨n, hn⟩ := hrun.pieces p hp
  rw [hasEnded, hn]
  simp

/-- **A full replay through a union.** In whatever order the pieces and the regular records of the
    parents come in: the union emits exactly one last piece, after all others; it has emitted none
    exactly as long as some parent has not sent one; what it emits is, in the order of arrival, the
    rows of all pieces and the records that a parent sent after its own first piece and before the
    first emitted one; and afterwards it is as it was at the beginning. -/
theorem full_replay_through_union {B : OrderedMap PieceKey ReplayPieces} {u : Union B}
    (hu : u.Made) (htwo : 2 ≤ u.required) {h : List Packet} (hrun : u.FullRun h) :
    ∃ out, Machine.feed machine u h = some (out, u) ∧
      (∃ first rows, replayed out = first ++ [(rows, true)] ∧ ∀ o ∈ first, o.2 = false) ∧
      (replayed out).flatMap Prod.fst = u.contributions [] h ∧
      ∀ before rest, h = before ++ rest →
        ∃ out' s, Machine.feed machine u before = some (out', s) ∧
          (replayed out' = [] ↔ ∃ p ∈ u.parents, hasSent p before = false) := by
  have hidle := hu.idle
  obtain ⟨out, s, hfeed, fw, rfl, hprogress⟩ := hrun.progress hidle htwo (append_nil h).symm
  have hended := hrun.ended_eq
  have hstarted : u.started h = u.parents :=
    (u.started_subset h).antisymm (hended ▸ u.ended_subset_started h)
  have hne : u.parents ≠ ∅ := by
    intro hempty
    have := hidle.required
    rw [hempty, card_empty] at this
    omega
  -- the run has come to its end
  have hover : fw = .none ∧ (replayed out).flatMap Prod.fst = u.contributions [] h ∧
      ∃ first rows, replayed out = first ++ [(rows, true)] ∧ ∀ o ∈ first, o.2 = false := by
    cases hprogress with
    | idle hnone _ _ => exact absurd (hstarted.symm.trans hnone) hne
    | held hopen _ => exact absurd hstarted hopen
    | flowing _ hopen _ _ _ => exact absurd hended hopen
    | finished _ hout hlast => exact ⟨rfl, hout, hlast⟩
  obtain ⟨rfl, hrows, hlast⟩ := hover
  have hback : ({ u with full_wait_state := .none } : Union B) = u := by
    rw [← hidle.full_wait_state]
  rw [hback] at hfeed
  refine ⟨out, hfeed, hlast, hrows, ?_⟩
  intro before rest hsplit
  obtain ⟨out', s, hfeed', fw', -, hprogress'⟩ := hrun.progress hidle htwo hsplit
  refine ⟨out', s, hfeed', ?_⟩
  have hopen : (∃ p ∈ u.parents, hasSent p before = false) ↔ u.started before ≠ u.parents := by
    refine ⟨?_, exists_not_sent⟩
    rintro ⟨p, hp, hnot⟩ heq
    rw [← heq] at hp
    rw [(mem_filter.mp hp).2] at hnot
    cases hnot
  rw [hopen]
  cases hprogress' with
  | idle hnone hout _ => exact iff_of_true hout fun heq => hne (heq.symm.trans hnone)
  | held hopen hout => exact iff_of_true hout hopen
  | flowing hall _ _ hbegun _ => exact iff_of_false hbegun (not_not_intro hall)
  | finished hall _ hlast =>
    obtain ⟨first, rows, hout, -⟩ := hlast
    refine iff_of_false (by rw [hout]; simp) (not_not_intro ?_)
    exact (u.started_subset before).antisymm (hall ▸ u.ended_subset_started before)

/-- Two shards that begin and end in turn. The first one sends a record
    before the other has begun, and another one after that. -/
def crossing : List Packet :=
  [⟨0, [.positive [.int 1]], .full false⟩, ⟨0, [.positive [.int 2]], .none⟩,
    ⟨1, [.positive [.int 3]], .full false⟩, ⟨0, [.positive [.int 4]], .none⟩,
    ⟨0, [.positive [.int 5]], .full true⟩, ⟨1, [.positive [.int 6]], .full true⟩]

theorem crossing_run : twoShards.FullRun crossing where
  src := by decide
  context := by
    intro e he
    fin_cases he
    · exact .inr rfl
    · exact .inl rfl
    · exact .inr rfl
    · exact .inl rfl
    · exact .inr rfl
    · exact .inr rfl
  pieces := by
    intro p hp
    fin_cases hp
    · exact ⟨1, rfl⟩
    · exact ⟨1, rfl⟩
  columns := fun e _ => ⟨e.rs, rfl⟩

/-- The later record goes through, and is not part of the replay. -/
theorem crossing_replayed : ∃ out,
    Machine.feed machine twoShards crossing = some (out, twoShards) ∧
      (replayed out).flatMap Prod.fst = [.positive [.int 1], .positive [.int 2],
        .positive [.int 3], .positive [.int 5], .positive [.int 6]] := by
  obtain ⟨out, hfeed, -, hrows, -⟩ :=
    full_replay_through_union (.inl ⟨2, rfl⟩) (Nat.le_refl 2) crossing_run
  exact ⟨out, hfeed, hrows.trans rfl⟩

end Union

end Noria.Server

import Noria.Framework.Acyclic
import Noria.Server.Domain.Walk

/-! # Evictions reach everything downstream

  An eviction is closed if the keys have been handed to every node on every
  replay path that follows, path by path, from the index they were evicted
  from, and are holes at the ends of the paths (`Closed`).

  The nodes hold what a controller sets up (`Ready`) and the paths do not form a cycle. Then
  `handle_eviction` returns and the eviction is closed exactly if it meets no sharder that it is not
  split by, and no reader that would have to free more than it counts (`eviction_closed_iff`).
-/

namespace Noria.Server.Domain

open List Option

variable {index : SingleState}

/-! ## Chains of paths

  An index is given by its node and its columns. -/

section Chains

variable {σ : Type} (D : Domain σ) {keys : List Row}

/-- The path starts at an index. -/
def Starts (e : Tag × ReplayPath) (p : Nat × List Nat) : Prop :=
  e.2.source = some p.1 ∧ (e.2.trigger = .localKey p.2 ∨ e.2.trigger = .start p.2)

def LeadsTo (e : Tag × ReplayPath) (p q : Nat × List Nat) : Prop :=
  e.2.source = some p.1 ∧ e.2.trigger = .localKey p.2 ∧
    ∃ seg, e.2.path.getLast? = some seg ∧ seg.node = q.1 ∧ seg.partial_key = some q.2

/-- A chain of paths leads from an index to another one. -/
def Chain (p q : Nat × List Nat) : Prop :=
  Relation.ReflTransGen (fun p q => ∃ e ∈ D.replay_paths, LeadsTo e p q) p q

/-- A path leads from one node to another. -/
def Feeds (n m : Nat) : Prop :=
  ∃ e ∈ D.replay_paths, e.2.source = some n ∧ ∃ seg ∈ e.2.path, seg.node = m

/-- What the controller sets up downstream of an index: the paths are for keys, their nodes are set
    up, the ends in the domain have an index for the path, and no path starts at a reader. -/
structure Ready (s : Contents σ) (p : Nat × List Nat) : Prop where
  trigger : ∀ q, Chain D p q → ∀ e ∈ D.replay_paths, e.2.source = some q.1 →
    ∃ cols, e.2.trigger = .localKey cols ∨ e.2.trigger = .start cols
  path : ∀ q, Chain D p q → ∀ e ∈ D.replay_paths, Starts e q →
    e.2.path ≠ [] ∧ ∀ seg ∈ e.2.path, SegmentReady D s e.1 q.2.length seg
  target : ∀ q, Chain D p q → ∀ e ∈ D.replay_paths, ∀ q', LeadsTo e q q' →
    (D.nodes q'.1).is_reader = false →
    ∃ index, IndexAt s q'.1 e.1 index ∧ index.key.length = q.2.length
  reader : ∀ q, Chain D p q → (D.nodes q.1).is_reader = true →
    ∀ e ∈ D.replay_paths, e.2.source ≠ some q.1

/-- Every node of every path that follows can do what it is asked for. -/
def Good (s : Contents σ) (keys : List Row) (p : Nat × List Nat) : Prop :=
  ∀ q, Chain D p q → ∀ e ∈ D.replay_paths, Starts e q → PathWilling D s keys e.2.path

/-- The keys have been handed to every node of a path, and are holes at its end. -/
structure ClosedPath (s : Contents σ) (keys : List Row) (p : Nat × List Nat)
    (e : Tag × ReplayPath) : Prop where
  handled : Starts e p → ∀ seg ∈ e.2.path, Handled D s e.1 keys seg.node
  target : ∀ q, LeadsTo e p q → (D.nodes q.1).is_reader = false →
    ∀ k ∈ keys, IndexHole s q.1 e.1 k

/-- **Closure**: every path that follows is closed. -/
def Closed (s : Contents σ) (keys : List Row) (p : Nat × List Nat) : Prop :=
  ∀ q, Chain D p q → ∀ e ∈ D.replay_paths, ClosedPath D s keys q e

variable {D} {s s' : Contents σ} {p q : Nat × List Nat} {e : Tag × ReplayPath}

theorem LeadsTo.starts (h : LeadsTo e p q) : Starts e p := ⟨h.1, .inl h.2.1⟩

theorem LeadsTo.feeds (h : LeadsTo e p q) (he : e ∈ D.replay_paths) : Feeds D p.1 q.1 := by
  obtain ⟨hsource, -, seg, hlast, hnode, -⟩ := h
  exact ⟨e, he, hsource, seg, mem_of_getLast? hlast, hnode⟩

theorem Ready.next (h : Ready D s p) (he : e ∈ D.replay_paths) (hlead : LeadsTo e p q) :
    Ready D s q where
  trigger q' hq' := h.trigger q' (.head ⟨e, he, hlead⟩ hq')
  path q' hq' := h.path q' (.head ⟨e, he, hlead⟩ hq')
  target q' hq' := h.target q' (.head ⟨e, he, hlead⟩ hq')
  reader q' hq' := h.reader q' (.head ⟨e, he, hlead⟩ hq')

theorem Ready.advances (h : Ready D s p) (hadv : Advances keys s s') : Ready D s' p where
  trigger := h.trigger
  path q hq e he hstart := by
    obtain ⟨hne, hsegs⟩ := h.path q hq e he hstart
    exact ⟨hne, fun seg hseg => (hsegs seg hseg).advances hadv⟩
  target q hq e he q' hlead hq' := by
    obtain ⟨index, hindex, hlen⟩ := h.target q hq e he q' hlead hq'
    obtain ⟨index', hindex', hshrinks⟩ := hadv.indexAt hindex
    exact ⟨index', hindex', by rw [hshrinks.key, hlen]⟩
  reader := h.reader

theorem good_advances (hadv : Advances keys s s') (p : Nat × List Nat) :
    Good D s keys p ↔ Good D s' keys p :=
  forall₂_congr fun _ _ => forall₃_congr fun e _ _ => pathWilling_advances hadv e.2.path

theorem ClosedPath.advances (h : ClosedPath D s keys p e) (hadv : Advances keys s s') :
    ClosedPath D s' keys p e where
  handled hstart seg hseg := (h.handled hstart seg hseg).advances hadv
  target q hq hreader k hk := hadv.indexHole (h.target q hq hreader k hk)

theorem Closed.advances (h : Closed D s keys p) (hadv : Advances keys s s') :
    Closed D s' keys p := fun q hq e he => (h q hq e he).advances hadv

/-! ### One path after the other -/

variable (D) in
/-- What holds of a path, and of every path that follows from its end. -/
structure Along (P : Nat × List Nat → Tag × ReplayPath → Prop) (p : Nat × List Nat)
    (e : Tag × ReplayPath) : Prop where
  path : P p e
  next : ∀ q, LeadsTo e p q → ∀ q', Chain D q q' → ∀ e ∈ D.replay_paths, P q' e

variable (D) in
def GoodAlong (s : Contents σ) (keys : List Row) : Nat × List Nat → Tag × ReplayPath → Prop :=
  Along D fun p e => Starts e p → PathWilling D s keys e.2.path

variable (D) in
def ClosedAlong (s : Contents σ) (keys : List Row) : Nat × List Nat → Tag × ReplayPath → Prop :=
  Along D (ClosedPath D s keys)

theorem forall_chain_iff {P : Nat × List Nat → Tag × ReplayPath → Prop} :
    (∀ q, Chain D p q → ∀ e ∈ D.replay_paths, P q e) ↔ ∀ e ∈ D.replay_paths, Along D P p e := by
  constructor
  · intro h e he
    exact ⟨h p .refl e he, fun q hq q' hq' => h q' (.head ⟨e, he, hq⟩ hq')⟩
  · intro h q hq
    rcases hq.cases_head with rfl | ⟨q', ⟨e, he, hlead⟩, hrest⟩
    · exact fun e he => (h e he).path
    · exact (h e he).next q' hlead q hrest

theorem good_iff : Good D s keys p ↔ ∀ e ∈ D.replay_paths, GoodAlong D s keys p e :=
  forall_chain_iff

theorem closed_iff : Closed D s keys p ↔ ∀ e ∈ D.replay_paths, ClosedAlong D s keys p e :=
  forall_chain_iff

theorem goodAlong_advances (hadv : Advances keys s s') (p : Nat × List Nat)
    (e : Tag × ReplayPath) : GoodAlong D s keys p e ↔ GoodAlong D s' keys p e := by
  constructor
  · intro h
    exact ⟨fun hstart => (pathWilling_advances hadv _).mp (h.path hstart),
      fun q hq => (good_advances hadv q).mp (h.next q hq)⟩
  · intro h
    exact ⟨fun hstart => (pathWilling_advances hadv _).mpr (h.path hstart),
      fun q hq => (good_advances hadv q).mpr (h.next q hq)⟩

theorem ClosedAlong.advances (h : ClosedAlong D s keys p e) (hadv : Advances keys s s') :
    ClosedAlong D s' keys p e :=
  ⟨h.path.advances hadv, fun q hq => Closed.advances (h.next q hq) hadv⟩

theorem Ready.closed_reader (h : Ready D s p) (hreader : (D.nodes p.1).is_reader = true)
    (keys : List Row) : Good D s keys p ∧ Closed D s keys p := by
  have hnone := h.reader p .refl hreader
  constructor
  · exact good_iff.mpr fun e he => ⟨fun hstart => absurd hstart.1 (hnone e he),
      fun q hq => absurd hq.1 (hnone e he)⟩
  · exact closed_iff.mpr fun e he => ⟨⟨fun hstart => absurd hstart.1 (hnone e he),
      fun q hq => absurd hq.1 (hnone e he)⟩, fun q hq => absurd hq.1 (hnone e he)⟩

/-! ### The loop -/

variable (D) in
/-- What follows from an index gets closed. -/
def Closes (f : Contents σ → Outcome Unit (Contents σ)) (keys : List Row) (p : Nat × List Nat)
    (s : Contents σ) : Prop :=
  (f s).Returns (Good D s keys p) fun s' => Advances keys s s' ∧ Closed D s' keys p

variable (D) in
/-- One path gets closed, with what follows from its end. -/
def Visits (down : List Nat → Nat → Contents σ → Outcome Unit (Contents σ)) (s : Contents σ)
    (keys : List Row) (p : Nat × List Nat) (e : Tag × ReplayPath) : Prop :=
  (D.visit down p.2 keys p.1 s e).Returns (GoodAlong D s keys p e)
    fun s' => Advances keys s s' ∧ ClosedAlong D s' keys p e

theorem visit_other {down : List Nat → Nat → Contents σ → Outcome Unit (Contents σ)}
    (hstart : ¬Starts e p) (hvisit : D.visit down p.2 keys p.1 s e = .ok s) :
    Visits D down s keys p e := by
  have hlead : ∀ q, ¬LeadsTo e p q := fun q hq => hstart hq.starts
  rw [Visits, hvisit]
  exact .of_ok ⟨.refl s, ⟨fun h => absurd h hstart, fun q hq => absurd hq (hlead q)⟩,
    fun q hq => absurd hq (hlead q)⟩ ⟨fun h => absurd h hstart, fun q hq => absurd hq (hlead q)⟩

variable {down : List Nat → Nat → Contents σ → Outcome Unit (Contents σ)}

/-- **The end of a path** in the domain, and what follows from it. -/
theorem evictTarget_returns (he : e ∈ D.replay_paths) (hlead : LeadsTo e p q)
    (hready : Ready D s p) (hkeys : ∀ k ∈ keys, k.length = p.2.length)
    (hdown : ∀ s', Advances keys s s' → Closes D (down q.2 q.1) keys q s') :
    (D.evictTarget down e.1 e.2.path keys s).Returns (Good D s keys q) fun s' =>
      Advances keys s s' ∧ Closed D s' keys q ∧
        ((D.nodes q.1).is_reader = false → ∀ k ∈ keys, IndexHole s' q.1 e.1 k) := by
  obtain ⟨seg, hlast, hnode, hcols⟩ := hlead.2.2
  rw [evictTarget, hlast, Outcome.ofOption, Outcome.ok_bind, hnode, hcols]
  cases hreader : (D.nodes q.1).is_reader with
  | true =>
    obtain ⟨hgood, hclosed⟩ := (hready.next he hlead).closed_reader hreader keys
    exact .of_ok ⟨.refl s, hclosed, fun h => by cases h⟩ hgood
  | false =>
    obtain ⟨index, hindex, hlen⟩ := hready.target p .refl e he q hlead hreader
    obtain ⟨st, st', hst, hevict, hadv, hhole⟩ :=
      evict_keys_state hindex fun k hk => (hkeys k hk).trans hlen.symm
    rw [if_neg Bool.false_ne_true, hst]
    dsimp only
    rw [hevict, Outcome.ofOption, Outcome.ok_bind, Outcome.ofOption, Outcome.ok_bind]
    refine ((hdown _ hadv).congr (good_advances hadv q).symm).mono fun s' hs' => ?_
    exact ⟨hadv.trans hs'.1, hs'.2, fun _ k hk => hs'.1.indexHole (hhole k hk)⟩

section

variable (he : e ∈ D.replay_paths) (hready : Ready D s p) (hwidth : keyLength p.2.length = true)
  (hkeys : ∀ k ∈ keys, k.length = p.2.length)
include he hready hwidth hkeys

theorem visit_start (hheld : ∀ seg ∈ e.2.path, D.held ≠ some seg.node)
    (hsource : e.2.source = some p.1) (htrigger : e.2.trigger = .start p.2) :
    Visits D down s keys p e := by
  have hlead : ∀ q, ¬LeadsTo e p q := by
    intro q hq
    have h := hq.2.1
    rw [htrigger] at h
    cases h
  have hstart : Starts e p := ⟨hsource, .inr htrigger⟩
  obtain ⟨hne, hsegs⟩ := hready.path p .refl e he hstart
  have hwalk := walk_path_returns hwidth hkeys hne hsegs hheld
  rw [Visits, visit, if_pos hsource, htrigger]
  dsimp only
  rw [if_neg (not_not_intro rfl)]
  refine (hwalk.congr ?_).mono fun s' hs' => ⟨hs'.1, ⟨fun _ => hs'.2, fun q hq =>
    absurd hq (hlead q)⟩, fun q hq => absurd hq (hlead q)⟩
  exact ⟨fun h => ⟨fun _ => h, fun q hq => absurd hq (hlead q)⟩, fun h => h.path hstart⟩

/-- A path that ends in the domain: its nodes, its end, and so on. -/
theorem visit_local (hheld : ∀ seg ∈ e.2.path, D.held ≠ some seg.node)
    (hdown : ∀ q, LeadsTo e p q → ∀ s', Advances keys s s' →
      Closes D (down q.2 q.1) keys q s')
    (hsource : e.2.source = some p.1) (htrigger : e.2.trigger = .localKey p.2) :
    Visits D down s keys p e := by
  have hstart : Starts e p := ⟨hsource, .inl htrigger⟩
  obtain ⟨hne, hsegs⟩ := hready.path p .refl e he hstart
  -- the one index that the path leads to
  obtain ⟨q, hlead, honly⟩ : ∃ q, LeadsTo e p q ∧ ∀ q', LeadsTo e p q' → q' = q := by
    have hlast := getLast?_eq_some_getLast hne
    obtain ⟨cols, hcols, -⟩ := (hsegs _ (getLast_mem hne)).partial_key
    refine ⟨((e.2.path.getLast hne).node, cols), ⟨hsource, htrigger, _, hlast, rfl, hcols⟩, ?_⟩
    rintro q' ⟨-, -, seg, hlast', hnode, hcols'⟩
    rw [hlast, some_inj] at hlast'
    subst hlast'
    exact Prod.ext hnode.symm (some.inj (hcols'.symm.trans hcols))
  have hwalk := walk_path_returns hwidth hkeys hne hsegs hheld
  rw [Visits, visit, if_pos hsource, htrigger]
  dsimp only
  rw [if_neg (not_not_intro rfl)]
  have hrest : ∀ s₁, (Advances keys s s₁ ∧ ∀ seg ∈ e.2.path, Handled D s₁ e.1 keys seg.node) →
      (D.evictTarget down e.1 e.2.path keys s₁).Returns (Good D s keys q)
        fun s' => Advances keys s s' ∧ ClosedAlong D s' keys p e := by
    rintro s₁ ⟨hadv, hhandled⟩
    have htarget := evictTarget_returns he hlead (hready.advances hadv) hkeys
      fun s' (hs' : Advances keys s₁ s') => hdown q hlead s' (hadv.trans hs')
    refine (htarget.congr (good_advances hadv q).symm).mono fun s' hs' => ?_
    refine ⟨hadv.trans hs'.1, ⟨fun _ seg hseg => (hhandled seg hseg).advances hs'.1, ?_⟩, ?_⟩
    · intro q' hq' hreader
      rw [honly q' hq'] at hreader ⊢
      exact hs'.2.2 hreader
    · intro q' hq'
      rw [honly q' hq']
      exact hs'.2.1
  refine (hwalk.bind hrest).congr ⟨fun h => ⟨fun _ => h.1, fun q' hq' => ?_⟩, fun h =>
    ⟨h.path hstart, h.next q hlead⟩⟩
  rw [honly q' hq']
  exact h.2

/-- **One path of the loop.** -/
theorem visit_returns (hheld : e.2.source = some p.1 → ∀ seg ∈ e.2.path, D.held ≠ some seg.node)
    (hdown : ∀ q, LeadsTo e p q → ∀ s', Advances keys s s' →
      Closes D (down q.2 q.1) keys q s') : Visits D down s keys p e := by
  by_cases hsource : e.2.source = some p.1
  · obtain ⟨cols, htrigger⟩ := hready.trigger p .refl e he hsource
    by_cases hcols : cols = p.2
    · subst hcols
      rcases htrigger with htrigger | htrigger
      · exact visit_local he hready hwidth hkeys (hheld hsource) hdown hsource htrigger
      · exact visit_start he hready hwidth hkeys (hheld hsource) hsource htrigger
    · -- a path for other columns
      refine visit_other (fun hstart => ?_) ?_
      · rcases htrigger with htrigger | htrigger <;> rcases hstart.2 with h | h <;>
          rw [htrigger] at h <;> cases h <;> exact hcols rfl
      · rcases htrigger with htrigger | htrigger
        · rw [visit, if_pos hsource, htrigger]
          exact if_pos hcols
        · rw [visit, if_pos hsource, htrigger]
          exact if_pos hcols
  · refine visit_other (fun hstart => hsource hstart.1) ?_
    rw [visit, if_neg hsource]

end

/-- The node whose `RefCell` is held is upstream. -/
def HeldAbove (D : Domain σ) (n : Nat) : Prop :=
  ∀ h, D.held = some h → Relation.ReflTransGen (Feeds D) h n

theorem HeldAbove.not_on_path {n : Nat} (h : HeldAbove D n) (hcycle : NoCycle (Feeds D))
    (he : e ∈ D.replay_paths) (hsource : e.2.source = some n) :
    ∀ seg ∈ e.2.path, D.held ≠ some seg.node := by
  intro seg hseg hheld
  have hfeeds : Feeds D n seg.node := ⟨e, he, hsource, seg, hseg, rfl⟩
  exact hcycle seg.node (Relation.TransGen.tail' (h _ hheld) hfeeds)

theorem feeds_wellFounded (hcycle : NoCycle (Feeds D)) : WellFounded fun m n => Feeds D n m := by
  let nodes := D.replay_paths.flatMap fun e => e.2.source.toList ++ e.2.path.map (·.node)
  refine hcycle.wellFounded nodes.finite_toSet ?_ ?_
  · rintro n m ⟨e, he, hsource, -⟩
    exact mem_flatMap.mpr ⟨e, he, mem_append_left _ (by simp [hsource])⟩
  · rintro n m ⟨e, he, -, seg, hseg, rfl⟩
    exact mem_flatMap.mpr ⟨e, he, mem_append_right _ (mem_map_of_mem hseg)⟩

/-- **The recursion** ends, and what follows from the index is closed, if
    everything is willing; otherwise it panics. -/
theorem trigger_returns (hcycle : NoCycle (Feeds D)) (keys : List Row) (n : Nat)
    (hheld : HeldAbove D n) :
    ∃ bound, ∀ fuel ≥ bound, ∀ cols s, Ready D s (n, cols) → keyLength cols.length = true →
      (∀ k ∈ keys, k.length = cols.length) →
      Closes D (D.trigger_downstream_evictions keys fuel cols n) keys (n, cols) s := by
  induction n using (feeds_wellFounded hcycle).induction with
  | _ n ih =>
    -- a bound for the ends of all paths from `n`
    obtain ⟨bound, hbound⟩ : ∃ bound, ∀ e ∈ D.replay_paths, ∀ fuel ≥ bound, ∀ cols q s,
        LeadsTo e (n, cols) q → Ready D s q → keyLength q.2.length = true →
        (∀ k ∈ keys, k.length = q.2.length) →
        Closes D (D.trigger_downstream_evictions keys fuel q.2 q.1) keys q s := by
      refine exists_common_bound fun e he => ?_
      by_cases hlead : ∃ cols q, LeadsTo e (n, cols) q
      · obtain ⟨cols, q, hq⟩ := hlead
        have hfeeds := hq.feeds he
        obtain ⟨bound, hbound⟩ := ih q.1 hfeeds fun h hh => (hheld h hh).tail hfeeds
        refine ⟨bound, fun fuel hfuel cols' q' s hq' => ?_⟩
        have hnode : q'.1 = q.1 := by
          obtain ⟨-, -, seg, hlast, hnode, -⟩ := hq
          obtain ⟨-, -, seg', hlast', hnode', -⟩ := hq'
          rw [← hnode, ← hnode', some.inj (hlast.symm.trans hlast')]
        have hdown := hbound fuel hfuel q'.2 s
        rw [← hnode] at hdown
        exact hdown
      · exact ⟨0, fun fuel _ cols q s hq => absurd ⟨cols, q, hq⟩ hlead⟩
    refine ⟨bound + 1, fun fuel hfuel cols s hready hwidth hkeys => ?_⟩
    obtain ⟨fuel, rfl⟩ : ∃ m, fuel = m + 1 := ⟨fuel - 1, by omega⟩
    have hloop := Outcome.Returns.foldlM (l := D.replay_paths) (s := s)
      (f := D.visit (D.trigger_downstream_evictions keys fuel) cols keys n)
      (R := Advances keys) (G := fun s e => GoodAlong D s keys (n, cols) e)
      (D := fun s e => ClosedAlong D s keys (n, cols) e) .refl (fun _ _ _ => .trans)
      (fun s s' e hadv => goodAlong_advances hadv _ e) (fun s s' e hadv h => h.advances hadv)
      fun s' hadv e he => ?_
    · refine (hloop.congr good_iff.symm).mono fun s' hs' => ⟨hs'.1, closed_iff.mpr hs'.2⟩
    · refine visit_returns he (hready.advances hadv) hwidth hkeys
        (fun hsource => hheld.not_on_path hcycle he hsource) fun q hq s₁ hadv₁ => ?_
      have hlen : q.2.length = cols.length := by
        obtain ⟨-, hsegs⟩ := hready.path _ .refl e he hq.starts
        obtain ⟨-, -, seg, hlast, -, hcols⟩ := hq
        obtain ⟨cols', hcols', hlen⟩ := (hsegs seg (mem_of_getLast? hlast)).partial_key
        rwa [some.inj (hcols.symm.trans hcols')]
      exact hbound e he fuel (by omega) cols q s₁ hq
        (((hready.advances hadv).advances hadv₁).next he hq) (hlen ▸ hwidth)
        fun k hk => (hkeys k hk).trans hlen.symm

end Chains

/-! ## Packets -/

section Packets

variable {σ : Type} (D : Domain σ)

/-- The path ends in this domain. -/
def EndsHere (path : ReplayPath) : Prop :=
  path.trigger = .endpoint ∨ ∃ cols, path.trigger = .localKey cols

/-- The path that a packet is for, and the position it goes on from. -/
def PacketPath (dst : Nat) (tag : Tag) (path : ReplayPath) (i : Nat) : Prop :=
  D.replay_paths.find? (fun e => e.1 == tag) = some (tag, path) ∧
    path.path.findIdx? (fun segment => segment.node == dst) = some i

/-- The end of a path, unless it is a reader. -/
def EndsAt (path : ReplayPath) (n : Nat) : Prop :=
  EndsHere path ∧ ∃ seg, path.path.getLast? = some seg ∧ seg.node = n ∧
    (D.nodes n).is_reader = false

/-- What the controller sets up at the end of a path. -/
def EndReady (s : Contents σ) (width : Nat) (tag : Tag) (path : ReplayPath) : Prop :=
  ∀ n, EndsAt D path n → (D.nodes n).is_dropped = false ∧
    ∃ index, IndexAt s n tag index ∧ index.key.length = width ∧ Ready D s (n, index.key)

def EndGood (s : Contents σ) (keys : List Row) (tag : Tag) (path : ReplayPath) : Prop :=
  ∀ n, EndsAt D path n → ∀ index, IndexAt s n tag index → Good D s keys (n, index.key)

def EndClosed (s : Contents σ) (keys : List Row) (tag : Tag) (path : ReplayPath) : Prop :=
  ∀ n, EndsAt D path n → (∀ k ∈ keys, IndexHole s n tag k) ∧
    ∀ index, IndexAt s n tag index → Closed D s keys (n, index.key)

/-- What the controller sets up for an eviction. The keys have `width` columns. -/
def RequestReady (s : Contents σ) (width : Nat) : Request → Prop
  | .node n key_columns => key_columns.length = width ∧ Ready D s (n, key_columns)
  | .packet dst tag => ∀ e, D.replay_paths.find? (fun e => e.1 == tag) = some e →
    ∃ i, e.2.path.findIdx? (fun segment => segment.node == dst) = some i ∧
      (∀ seg ∈ e.2.path.drop i, SegmentReady D s tag width seg) ∧ EndReady D s width tag e.2

/-- Every node that an eviction reaches can do what it is asked for. -/
def RequestGood (s : Contents σ) (keys : List Row) : Request → Prop
  | .node n key_columns => Good D s keys (n, key_columns)
  | .packet dst tag => ∀ path i, PacketPath D dst tag path i →
    PathWilling D s keys (path.path.drop i) ∧ EndGood D s keys tag path

/-- The eviction is closed. -/
def RequestClosed (s : Contents σ) (keys : List Row) : Request → Prop
  | .node n key_columns => Closed D s keys (n, key_columns)
  | .packet dst tag => ∀ path i, PacketPath D dst tag path i →
    (∀ seg ∈ path.path.drop i, Handled D s tag keys seg.node) ∧ EndClosed D s keys tag path

/-- The node whose `RefCell` is held. -/
def Request.held : Request → Option Nat
  | .node n _ => some n
  | .packet _ _ => none

variable {D} {s s' : Contents σ} {keys : List Row} {tag : Tag} {path : ReplayPath} {n width : Nat}

theorem EndsAt.unique {m : Nat} (hn : EndsAt D path n) (hm : EndsAt D path m) : m = n := by
  obtain ⟨-, seg, hlast, rfl, -⟩ := hn
  obtain ⟨-, seg', hlast', rfl, -⟩ := hm
  rw [some.inj (hlast.symm.trans hlast')]

theorem IndexAt.unique {index' : SingleState} (h : IndexAt s n tag index)
    (h' : IndexAt s n tag index') : index' = index := by
  obtain ⟨st, i, hst, htag, hi⟩ := h.found
  obtain ⟨st', i', hst', htag', hi'⟩ := h'.found
  obtain rfl := some.inj (hst.symm.trans hst')
  obtain rfl := some.inj (htag.symm.trans htag')
  exact some.inj (hi'.symm.trans hi)

theorem evictEnd_none (hne : path.path ≠ []) (hend : ∀ n, ¬EndsAt D path n) (fuel : Nat) :
    D.evictEnd fuel tag path keys s = .ok s := by
  have hlast := getLast?_eq_some_getLast hne
  have hreader : EndsHere path → (D.nodes (path.path.getLast hne).node).is_reader = true := by
    intro hhere
    by_contra hnot
    exact hend _ ⟨hhere, _, hlast, rfl, Bool.eq_false_iff.mpr hnot⟩
  unfold evictEnd
  cases htrigger : path.trigger with
  | none => rfl
  | start cols => rfl
  | endpoint =>
    simp only [hlast, Outcome.ofOption, Outcome.ok_bind, hreader (.inl htrigger), if_true]
  | localKey cols =>
    simp only [hlast, Outcome.ofOption, Outcome.ok_bind, hreader (.inr ⟨cols, htrigger⟩), if_true]

theorem evictEnd_some (hend : EndsAt D path n) (hdropped : (D.nodes n).is_dropped = false)
    (hindex : IndexAt s n tag index) (hkeys : ∀ k ∈ keys, k.length = index.key.length) :
    ∃ s₁, (∀ fuel, D.evictEnd fuel tag path keys s =
        D.trigger_downstream_evictions keys fuel index.key n s₁) ∧
      Advances keys s s₁ ∧ ∀ k ∈ keys, IndexHole s₁ n tag k := by
  obtain ⟨hhere, seg, hlast, rfl, hreader⟩ := hend
  obtain ⟨st, st', hst, hevict, hadv, hhole⟩ := evict_keys_state hindex hkeys
  obtain ⟨st₀, i, hst₀, htag, hi⟩ := hindex.found
  obtain rfl := some.inj (hst.symm.trans hst₀)
  refine ⟨_, fun fuel => ?_, hadv, hhole⟩
  unfold evictEnd
  rcases hhere with htrigger | ⟨cols, htrigger⟩ <;>
    simp [htrigger, hlast, Outcome.ofOption, hreader, hdropped, hst, htag, hi, hevict]

/-- **The end of the path of a packet.** -/
theorem evictEnd_returns (tag : Tag) (hcycle : NoCycle (Feeds D)) (hheld : D.held = none)
    (hwidth : keyLength width = true) (hkeys : ∀ k ∈ keys, k.length = width)
    (hne : path.path ≠ []) :
    ∃ bound, ∀ fuel ≥ bound, ∀ s, EndReady D s width tag path →
      (D.evictEnd fuel tag path keys s).Returns (EndGood D s keys tag path)
        fun s' => Advances keys s s' ∧ EndClosed D s' keys tag path := by
  by_cases hend : ∃ n, EndsAt D path n
  · obtain ⟨n, hn⟩ := hend
    have habove : HeldAbove D n := by
      intro h hh
      rw [hheld] at hh
      cases hh
    obtain ⟨bound, hbound⟩ := trigger_returns hcycle keys n habove
    refine ⟨bound, fun fuel hfuel s hready => ?_⟩
    obtain ⟨hdropped, index, hindex, hlen, hnext⟩ := hready n hn
    obtain ⟨s₁, heq, hadv, hhole⟩ :=
      evictEnd_some hn hdropped hindex fun k hk => (hkeys k hk).trans hlen.symm
    have hdown := hbound fuel hfuel index.key s₁ (hnext.advances hadv) (hlen ▸ hwidth)
      fun k hk => (hkeys k hk).trans hlen.symm
    rw [heq]
    refine (hdown.congr ?_).mono fun s' hs' => ⟨hadv.trans hs'.1, fun m hm => ?_⟩
    · rw [← good_advances hadv]
      constructor
      · intro hgood m hm index' hindex'
        obtain rfl := hn.unique hm
        rwa [hindex.unique hindex']
      · intro hgood
        exact hgood n hn index hindex
    · obtain rfl := hn.unique hm
      refine ⟨fun k hk => hs'.1.indexHole (hhole k hk), fun index' hindex' => ?_⟩
      obtain ⟨index₁, hindex₁, hshrinks⟩ := (hadv.trans hs'.1).indexAt hindex
      rw [hindex₁.unique hindex', hshrinks.key]
      exact hs'.2
  · refine ⟨0, fun fuel _ s _ => ?_⟩
    rw [evictEnd_none hne fun n hn => hend ⟨n, hn⟩]
    exact .of_ok ⟨.refl s, fun n hn => absurd ⟨n, hn⟩ hend⟩ fun n hn => absurd ⟨n, hn⟩ hend

/-- **A packet.** -/
theorem handle_evict_keys_returns {dst : Nat} (hcycle : NoCycle (Feeds D)) (hheld : D.held = none)
    (hwidth : keyLength width = true) (hkeys : ∀ k ∈ keys, k.length = width)
    (hready : RequestReady D s width (.packet dst tag)) :
    ∃ bound, ∀ fuel ≥ bound, (D.handle_evict_keys fuel dst tag keys s).Returns
      (RequestGood D s keys (.packet dst tag))
      fun s' => RequestClosed D s' keys (.packet dst tag) := by
  unfold handle_evict_keys
  cases hfind : D.replay_paths.find? fun e => e.1 == tag with
  | none =>
    have hno : ∀ path i, ¬PacketPath D dst tag path i := by
      rintro path i ⟨h, -⟩
      rw [hfind] at h
      cases h
    exact ⟨0, fun fuel _ => .of_ok (fun path i h => absurd h (hno path i))
      fun path i h => absurd h (hno path i)⟩
  | some e =>
    obtain ⟨i, hi, hsegs, hend⟩ := hready e hfind
    obtain ⟨etag, path⟩ := e
    obtain rfl : etag = tag := by
      have htag := find?_some hfind
      exact beq_iff_eq.mp htag
    have honly : ∀ path' i', PacketPath D dst etag path' i' ↔ path' = path ∧ i' = i := by
      intro path' i'
      constructor
      · rintro ⟨h, h'⟩
        rw [hfind, some_inj, Prod.mk.injEq] at h
        obtain rfl := h.2
        exact ⟨rfl, some.inj (h'.symm.trans hi)⟩
      · rintro ⟨rfl, rfl⟩
        exact ⟨hfind, hi⟩
    have hlt : i < path.path.length := (findIdx?_eq_some_iff_findIdx_eq.mp hi).1
    have hne : path.path.drop i ≠ [] := by
      rw [Ne, drop_eq_nil_iff]
      omega
    obtain ⟨bound, hbound⟩ := evictEnd_returns etag hcycle hheld hwidth hkeys
      fun h : path.path = [] => by simp [h] at hlt
    refine ⟨bound, fun fuel hfuel => ?_⟩
    have hwalk := walk_path_returns hwidth hkeys hne hsegs fun seg _ => by simp [hheld]
    simp only [hi, RequestGood, RequestClosed, honly]
    have hrest : ∀ s₁, (Advances keys s s₁ ∧ ∀ seg ∈ path.path.drop i,
          Handled D s₁ etag keys seg.node) →
        (D.evictEnd fuel etag path keys s₁).Returns (EndGood D s keys etag path)
          fun s' => (∀ seg ∈ path.path.drop i, Handled D s' etag keys seg.node) ∧
            EndClosed D s' keys etag path := by
      rintro s₁ ⟨hadv, hhandled⟩
      have hlast := hbound fuel hfuel s₁ fun n hn => by
        obtain ⟨hdropped, index, hindex, hlen, hnext⟩ := hend n hn
        obtain ⟨index₁, hindex₁, hshrinks⟩ := hadv.indexAt hindex
        exact ⟨hdropped, index₁, hindex₁, by rw [hshrinks.key, hlen],
          by rw [hshrinks.key]; exact hnext.advances hadv⟩
      refine (hlast.congr (forall₂_congr fun n hn => ?_)).mono fun s' hs' =>
        ⟨fun seg hseg => (hhandled seg hseg).advances hs'.1, hs'.2⟩
      -- the columns of the index at the end stay as they are
      obtain ⟨-, index, hindex, -, -⟩ := hend n hn
      obtain ⟨index₁, hindex₁, hshrinks⟩ := hadv.indexAt hindex
      constructor
      · intro hgood index' hindex'
        rw [hindex.unique hindex', good_advances hadv, ← hshrinks.key]
        exact hgood index₁ hindex₁
      · intro hgood index' hindex'
        rw [hindex₁.unique hindex', ← good_advances hadv, hshrinks.key]
        exact hgood index hindex
    refine ((hwalk.bind hrest).congr ?_).mono fun s' hs' path' i' h => ?_
    · constructor
      · rintro h path' i' ⟨rfl, rfl⟩
        exact h
      · intro h
        exact h path i ⟨rfl, rfl⟩
    · obtain ⟨rfl, rfl⟩ := h
      exact hs'

variable (D) in
/-- **Closure of evictions.** Let the replay paths have no cycle and the nodes be set up. Then
    `handle_eviction` returns, with the eviction closed, exactly if every sharder that the eviction
    reaches splits it and every reader it reaches holds what it has to free. -/
theorem eviction_closed_iff (hcycle : NoCycle (Feeds D)) (r : Request) (hheld : D.held = r.held)
    (hwidth : keyLength width = true) (hkeys : ∀ k ∈ keys, k.length = width)
    (hready : RequestReady D s width r) :
    (∃ bound, ∀ fuel ≥ bound, ∃ s', D.handle_eviction fuel keys s r = .ok s' ∧
      RequestClosed D s' keys r) ↔ RequestGood D s keys r := by
  obtain ⟨bound, hbound⟩ : ∃ bound, ∀ fuel ≥ bound, (D.handle_eviction fuel keys s r).Returns
      (RequestGood D s keys r) fun s' => RequestClosed D s' keys r := by
    cases r with
    | node n key_columns =>
      obtain ⟨rfl, hready⟩ := hready
      have habove : HeldAbove D n := by
        intro h hh
        obtain rfl := some.inj (hheld.symm.trans hh)
        exact .refl
      obtain ⟨bound, hbound⟩ := trigger_returns hcycle keys n habove
      exact ⟨bound, fun fuel hfuel =>
        (hbound fuel hfuel key_columns s hready hwidth hkeys).mono fun s' hs' => hs'.2⟩
    | packet dst tag => exact handle_evict_keys_returns hcycle hheld hwidth hkeys hready
  constructor
  · rintro ⟨bound', hbound'⟩
    by_contra hgood
    obtain ⟨s', hs', -⟩ := hbound' (max bound bound') (Nat.le_max_right _ _)
    rw [(hbound _ (Nat.le_max_left _ _)).panic hgood] at hs'
    cases hs'
  · exact fun hgood => ⟨bound, fun fuel hfuel => (hbound fuel hfuel).ok hgood⟩

end Packets

/-! ### A sharder by another column -/

section Examples

/-- A path by column 1 through a sharder by column 0. -/
def sharded : Domain Unit where
  nodes n := if n = 1 then .sharder ⟨[(0, 0), (0, 1)], 0⟩ else .internal
  replay_paths := [(7, ⟨some 0, [⟨1, some [1]⟩], .start [1]⟩)]
  shard := none
  held := some 0
  on_eviction _ op _ _ _ := op
  hash_text _ := 0

def nothing : Contents Unit := ⟨fun _ => none, fun _ => none, fun _ => (), [], []⟩

theorem sharded_chain {q : Nat × List Nat} (h : Chain sharded (0, [1]) q) : q = (0, [1]) := by
  induction h with
  | refl => rfl
  | tail _ hstep _ =>
    obtain ⟨e, he, -, htrigger, -⟩ := hstep
    obtain rfl := mem_singleton.mp he
    cases htrigger

theorem sharded_ready : Ready sharded nothing (0, [1]) where
  trigger q _ e he _ := by
    obtain rfl := mem_singleton.mp he
    exact ⟨[1], .inr rfl⟩
  path q hq e he _ := by
    obtain rfl := sharded_chain hq
    obtain rfl := mem_singleton.mp he
    refine ⟨cons_ne_nil _ _, fun seg hseg => ?_⟩
    obtain rfl := mem_singleton.mp hseg
    exact ⟨cons_ne_nil _ _, [1], rfl, rfl⟩
  target q _ e he q' hlead := by
    obtain rfl := mem_singleton.mp he
    obtain ⟨-, htrigger, -⟩ := hlead
    cases htrigger
  reader q hq hreader := by
    obtain rfl := sharded_chain hq
    cases hreader

/-- **The assertion on the key columns** fails at a sharder by another column. -/
theorem eviction_panics_at_sharder :
    NoCycle (Feeds sharded) ∧ RequestReady sharded nothing 1 (.node 0 [1]) ∧
      (∀ fuel, sharded.handle_eviction (fuel + 1) [[.int 5]] nothing (.node 0 [1]) = .panic) ∧
      ¬∃ bound, ∀ fuel ≥ bound, ∃ s',
        sharded.handle_eviction fuel [[.int 5]] nothing (.node 0 [1]) = .ok s' ∧
        RequestClosed sharded s' [[.int 5]] (.node 0 [1]) := by
  have hcycle : NoCycle (Feeds sharded) := by
    refine .of_lt ?_
    rintro n m ⟨e, he, hsource, seg, hseg, rfl⟩
    obtain rfl := mem_singleton.mp he
    obtain rfl := mem_singleton.mp hseg
    obtain rfl := some.inj hsource
    decide
  have hpanic : ∀ fuel,
      sharded.handle_eviction (fuel + 1) [[.int 5]] nothing (.node 0 [1]) = .panic :=
    fun fuel => rfl
  refine ⟨hcycle, ⟨rfl, sharded_ready⟩, hpanic, ?_⟩
  rintro ⟨bound, hbound⟩
  obtain ⟨s', hs', -⟩ := hbound (bound + 1) (Nat.le_succ bound)
  cases hs'

/-- A path to an index of node 1, and one from there to reader 2. -/
def chained : Domain Unit where
  nodes n := if n = 2 then .reader else .internal
  replay_paths := [(7, ⟨some 0, [⟨1, some [0]⟩], .localKey [0]⟩),
    (8, ⟨some 1, [⟨2, some [0]⟩], .localKey [0]⟩)]
  shard := none
  held := some 0
  on_eviction _ op _ _ _ := op
  hash_text _ := 0

def filled : Contents Unit where
  state n := if n = 1 then
    some ⟨[⟨[0], (∅ : AssocMap Row (List Row)).insert [.int 5] [[.int 5]], true, 1⟩],
      (∅ : AssocMap Tag Nat).insert 7 0⟩ else none
  writers n := if n = 2 then
    some ⟨[0], (∅ : AssocMap Row (List Row)).insert [.int 5] [[.int 5]], 40⟩ else none
  ops _ := ()
  sent := []
  passed := []

theorem chained_leadsTo {e : Tag × ReplayPath} (he : e ∈ chained.replay_paths)
    {p q : Nat × List Nat} (h : LeadsTo e p q) :
    p = (0, [0]) ∧ q = (1, [0]) ∧ e.1 = 7 ∨ p = (1, [0]) ∧ q = (2, [0]) := by
  obtain ⟨hsource, htrigger, seg, hlast, hnode, hcols⟩ := h
  obtain ⟨n, cols⟩ := p
  obtain ⟨m, cols'⟩ := q
  rcases mem_cons.mp he with rfl | he
  · cases hsource
    cases htrigger
    cases hlast
    cases hnode
    cases hcols
    exact .inl ⟨rfl, rfl, rfl⟩
  · obtain rfl := mem_singleton.mp he
    cases hsource
    cases htrigger
    cases hlast
    cases hnode
    cases hcols
    exact .inr ⟨rfl, rfl⟩

theorem chained_chain {q : Nat × List Nat} (h : Chain chained (0, [0]) q) :
    q = (0, [0]) ∨ q = (1, [0]) ∨ q = (2, [0]) := by
  induction h with
  | refl => exact .inl rfl
  | tail _ hstep _ =>
    obtain ⟨e, he, hlead⟩ := hstep
    rcases chained_leadsTo he hlead with ⟨-, rfl, -⟩ | ⟨-, rfl⟩
    · exact .inr (.inl rfl)
    · exact .inr (.inr rfl)

theorem chained_ready : Ready chained filled (0, [0]) where
  trigger q _ e he _ := by
    rcases mem_cons.mp he with rfl | he
    · exact ⟨[0], .inl rfl⟩
    · obtain rfl := mem_singleton.mp he
      exact ⟨[0], .inl rfl⟩
  path q hq e he hstart := by
    have hlen : q.2.length = 1 := by
      rcases chained_chain hq with rfl | rfl | rfl <;> rfl
    rw [hlen]
    rcases mem_cons.mp he with rfl | he
    · refine ⟨cons_ne_nil _ _, fun seg hseg => ?_⟩
      obtain rfl := mem_singleton.mp hseg
      exact ⟨trivial, [0], rfl, rfl⟩
    · obtain rfl := mem_singleton.mp he
      refine ⟨cons_ne_nil _ _, fun seg hseg => ?_⟩
      obtain rfl := mem_singleton.mp hseg
      exact ⟨⟨_, rfl, rfl⟩, [0], rfl, rfl⟩
  target q _ e he q' hlead hreader := by
    rcases chained_leadsTo he hlead with ⟨rfl, rfl, htag⟩ | ⟨rfl, rfl⟩
    · rw [htag]
      exact ⟨_, ⟨_, 0, rfl, rfl, rfl⟩, rfl⟩
    · cases hreader
  reader q hq hreader e he hsource := by
    rcases chained_chain hq with rfl | rfl | rfl
    · cases hreader
    · cases hreader
    · rcases mem_cons.mp he with rfl | he
      · cases hsource
      · obtain rfl := mem_singleton.mp he
        cases hsource

theorem chained_good : Good chained filled [[.int 5]] (0, [0]) := by
  intro q _ e he _ seg hseg cols _
  rcases mem_cons.mp he with rfl | he
  · obtain rfl := mem_singleton.mp hseg
    exact trivial
  · obtain rfl := mem_singleton.mp he
    obtain rfl := mem_singleton.mp hseg
    intro w hw
    cases hw
    decide

/-- An eviction along both paths of the chain. -/
theorem chained_eviction_closed :
    ∃ bound, ∀ fuel ≥ bound, ∃ s',
      chained.handle_eviction fuel [[.int 5]] filled (.node 0 [0]) = .ok s' ∧
      RequestClosed chained s' [[.int 5]] (.node 0 [0]) := by
  have hcycle : NoCycle (Feeds chained) := by
    refine .of_lt ?_
    rintro n m ⟨e, he, hsource, seg, hseg, rfl⟩
    rcases mem_cons.mp he with rfl | he
    · obtain rfl := mem_singleton.mp hseg
      obtain rfl := some.inj hsource
      decide
    · obtain rfl := mem_singleton.mp he
      obtain rfl := mem_singleton.mp hseg
      obtain rfl := some.inj hsource
      decide
  have hkeys : ∀ k ∈ [[DataType.int 5]], k.length = 1 := by simp
  exact (eviction_closed_iff chained hcycle (.node 0 [0]) rfl rfl hkeys
    ⟨rfl, chained_ready⟩).mpr chained_good

end Examples

end Noria.Server.Domain

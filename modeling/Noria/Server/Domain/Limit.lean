import Noria.Server.Domain.Replays

/-! # The limit on concurrent replays

  `concurrent_replays` is meant to be the number of requests that are under way, and never to exceed
  the maximum. A request takes one slot, whatever the number of its keys, but an answer gives back a
  slot for each key and path; and an answer that makes room releases the whole queue. So the count
  is right only as long as each request is for one key, an answer comes after all requests for its
  keys have been sent, and the queue fits into the room that an answer makes (`Careful`).

  `replay_limit` is the result for whole runs, with debug assertions on;
  `slot_given_back_early` is what a request for two keys does.
-/

namespace Noria.Server.Replays

open List

variable {tag : Tag} {κ : Type} {ps : ReplayPaths κ} {max : Nat} {st : Replays κ × Ledger Tag κ}

/-! ## The count -/

/-- **The slots in use are the open requests**, and there are no more than
    the maximum; the queue is empty if there is room. -/
structure Balanced (max : Nat) (st : Replays κ × Ledger Tag κ) : Prop where
  maximum : st.1.max_concurrent_replays = max
  count : st.1.concurrent_replays = st.2.length
  limit : st.1.concurrent_replays ≤ max
  queue : st.1.concurrent_replays < max → st.1.replay_request_queue = []

/-- When a step keeps the balance. A request is for one key, which is not being asked for already.
    An answer is for keys that have been asked for along every path, and the queue is for different
    tags and fits into the room that is made. -/
def Careful (ps : ReplayPaths κ) (st : Replays κ × Ledger Tag κ) : ReplayEvent κ → Prop
  | .request keys cols node =>
    ps.replay_paths_by_dst node cols ≠ [] ∧ ∃ k, keys = [k] ∧
      ∀ tag ∈ ps.replay_paths_by_dst node cols,
        (tag, k) ∉ Ledger.pairs (st.2 ++ st.1.replay_request_queue)
  | .finish tag keys =>
    (ps.isEnd tag = true ∧ keys ≠ [] ∧ keys.Nodup ∧
      (∀ t ∈ siblings ps tag, ps.isEnd t = true → ∀ k ∈ keys, (t, k) ∈ Ledger.pairs st.2) ∧
      (st.1.replay_request_queue.map Prod.fst).Nodup ∧
      st.1.concurrent_replays + st.1.replay_request_queue.length ≤
        st.1.max_concurrent_replays + paths_to ps tag * keys.length) ∨
    (ps.isEnd tag = false ∧ Triggered ps tag ∧ ∀ t ∈ siblings ps tag, ps.isEnd t = false)

/-- The requests that an answer satisfies have all been counted. -/
def Unsaturated (ps : ReplayPaths κ) (st : Replays κ × Ledger Tag κ) : ReplayEvent κ → Prop
  | .request _ _ _ => True
  | .finish tag keys => ps.isEnd tag = true →
    ∃ satisfied, requests_satisfied ps tag keys.length = some satisfied ∧
      satisfied ≤ st.1.concurrent_replays

/-- The requests are for one key each, along paths to other domains, and none is made twice. -/
structure Tidy (ps : ReplayPaths κ) (max : Nat) (st : Replays κ × Ledger Tag κ) : Prop
    extends Balanced max st where
  ends : ∀ r ∈ st.2 ++ st.1.replay_request_queue, ps.isEnd r.1 = true
  one : ∀ r ∈ st.2 ++ st.1.replay_request_queue, ∃ k, r.2 = [k]
  nodup : (Ledger.pairs (st.2 ++ st.1.replay_request_queue)).Nodup

theorem tidy_new (ps : ReplayPaths κ) (max : Nat) : Tidy ps max (new max, []) where
  maximum := rfl
  count := rfl
  limit := Nat.zero_le max
  queue _ := rfl
  ends r hr := by cases hr
  one r hr := by cases hr
  nodup := .nil

/-! ## One step -/

variable [DecidableEq κ]

/-- **A request for one key** takes a slot for each path, or is queued. -/
theorem Tidy.request (h : Tidy ps max st) {k : κ} {cols : List Nat} {node : Nat}
    (hne : ps.replay_paths_by_dst node cols ≠ [])
    (hnew : ∀ tag ∈ ps.replay_paths_by_dst node cols,
      (tag, k) ∉ Ledger.pairs (st.2 ++ st.1.replay_request_queue)) :
    ∃ acts st', tracked true ps st (.request [k] cols node) = some (acts, st') ∧
      Tidy ps max st' := by
  obtain ⟨acts, hstep⟩ := tracked_request true st [k] hne (h.maximum ▸ h.queue)
  refine ⟨acts, _, hstep, ?_⟩
  have htags := now_append_later ps st.1 (ps.replay_paths_by_dst node cols)
  have hnow := length_now_le ps st.1 (ps.replay_paths_by_dst node cols)
  have hmax := h.maximum
  have hlimit := h.limit
  refine ⟨⟨h.maximum, ?_, ?_, ?_⟩, ?_, ?_, ?_⟩
  · simp only [length_append, length_map, h.count]
  · simp only
    omega
  · intro hroom
    simp only at hroom ⊢
    rw [h.queue (by omega), later_eq_nil (by omega)]
    rfl
  · intro r hr
    rcases Ledger.mem_request hr with hr | ⟨htag, -⟩
    · exact h.ends r hr
    · rw [htags] at htag
      exact (mem_filter.mp htag).2
  · intro r hr
    rcases Ledger.mem_request hr with hr | ⟨-, hkeys⟩
    · exact h.one r hr
    · exact ⟨k, hkeys⟩
  · refine Ledger.nodup_request h.nodup ?_ (nodup_singleton k) ?_
    · rw [htags]
      exact (ps.nodup _ _).filter _
    · intro tag htag k' hk'
      rw [mem_singleton.mp hk']
      rw [htags] at htag
      exact hnew tag (mem_filter.mp htag).1

/-- **An answer** gives back the slots of its keys, and the queue is sent. -/
theorem Tidy.finish (h : Tidy ps max st) {keys : List κ} (hend : ps.isEnd tag = true)
    (hne : keys ≠ []) (hkeys : keys.Nodup)
    (hopen : ∀ t ∈ siblings ps tag, ps.isEnd t = true → ∀ k ∈ keys, (t, k) ∈ Ledger.pairs st.2)
    (htags : (st.1.replay_request_queue.map Prod.fst).Nodup)
    (hfits : st.1.concurrent_replays + st.1.replay_request_queue.length ≤
      st.1.max_concurrent_replays + paths_to ps tag * keys.length) :
    paths_to ps tag * keys.length ≤ st.1.concurrent_replays ∧
    ∃ acts st', tracked true ps st (.finish tag keys) = some (acts, st') ∧ Tidy ps max st' := by
  have hledger : ∀ r ∈ st.2, ∃ k, r.2 = [k] := fun r hr => h.one r (mem_append_left _ hr)
  have hnodup : (Ledger.pairs st.2).Nodup := by
    have := h.nodup
    rw [Ledger.pairs_append] at this
    exact this.of_append_left
  -- every key was sent along every path, in a request of its own
  have hclose : (st.2.close (siblings ps tag) keys).length + paths_to ps tag * keys.length =
      st.1.concurrent_replays := by
    rw [h.count]
    refine Ledger.length_close ((siblings ps tag).filter ps.isEnd) hledger hnodup
      ((nodup_siblings ps tag).filter _) hkeys ?_ ?_ ?_
    · intro t ht
      obtain ⟨ht, htend⟩ := mem_filter.mp ht
      exact hopen t ht htend
    · intro t ht
      exact (mem_filter.mp ht).1
    · intro t k hmem ht
      obtain ⟨r, hr, rfl, -⟩ := Ledger.mem_pairs.mp hmem
      exact mem_filter.mpr ⟨ht, h.ends r (mem_append_left _ hr)⟩
  have hpos : 0 < paths_to ps tag * keys.length :=
    Nat.mul_pos (paths_to_pos hend) (length_pos_of_ne_nil hne)
  have hreleased : (release true ∅ st.1.replay_request_queue).1.entries =
      st.1.replay_request_queue := release_distinct ∅ htags
  have hmax := h.maximum
  have hlimit := h.limit
  obtain ⟨acts, hstep⟩ := tracked_finish_room true st keys hend (by omega)
    (fun r hr => h.ends r (mem_append_right _ hr)) (fun _ => by rw [hreleased]; omega)
  rw [hreleased] at hstep
  refine ⟨by omega, acts, _, hstep, ?_⟩
  refine ⟨⟨h.maximum, ?_, ?_, fun _ => rfl⟩, ?_, ?_, ?_⟩
  · simp only [length_append]
    omega
  · simp only
    omega
  · intro r hr
    simp only [append_nil, mem_append] at hr
    rcases hr with hr | hr
    · obtain ⟨r₀, hr₀, heq, -⟩ := Ledger.mem_close hr
      rw [← heq]
      exact h.ends r₀ (mem_append_left _ hr₀)
    · exact h.ends r (mem_append_right _ hr)
  · intro r hr
    simp only [append_nil, mem_append] at hr
    rcases hr with hr | hr
    · exact Ledger.close_one hledger r hr
    · exact h.one r (mem_append_right _ hr)
  · simp only [append_nil]
    exact Ledger.nodup_close _ _ h.nodup

/-- An answer along a path of this domain, into a node that no other domain
    fills, changes nothing. -/
theorem Tidy.finish_local (h : Tidy ps max st) (keys : List κ) (hend : ps.isEnd tag = false)
    (htag : Triggered ps tag) (hnone : ∀ t ∈ siblings ps tag, ps.isEnd t = false) :
    tracked true ps st (.finish tag keys) = some ([], st) := by
  have htrigger : (ps.replay_paths tag).map ReplayPath.trigger = some .localSource := by
    rcases htag with hend' | ⟨htrigger, -⟩
    · rw [hend] at hend'
      cases hend'
    · exact htrigger
  have hclose : st.2.close (siblings ps tag) keys = st.2 := by
    refine Ledger.close_eq_self fun r hr => ⟨fun hmem => ?_, ?_⟩
    · have := h.ends r (mem_append_left _ hr)
      rw [hnone r.1 hmem] at this
      cases this
    · obtain ⟨k, hk⟩ := h.one r (mem_append_left _ hr)
      rw [hk]
      exact cons_ne_nil k []
  have hrun : st.1.finished_partial_replay true ps tag keys.length = some ([], st.1) := by
    unfold finished_partial_replay
    rw [htrigger]
  unfold tracked machine
  simp only [hrun, Option.bind_eq_bind, Option.bind_some, settle, hclose, sent, append_nil]

theorem Tidy.step (h : Tidy ps max st) {e : ReplayEvent κ} (hcareful : Careful ps st e) :
    Unsaturated ps st e ∧
    ∃ acts st', tracked true ps st e = some (acts, st') ∧ Tidy ps max st' := by
  cases e with
  | request keys cols node =>
    obtain ⟨hne, k, rfl, hnew⟩ := hcareful
    exact ⟨trivial, h.request hne hnew⟩
  | finish tag keys =>
    rcases hcareful with ⟨hend, hne, hkeys, hopen, htags, hfits⟩ | ⟨hend, htag, hnone⟩
    · obtain ⟨hle, hstep⟩ := h.finish hend hne hkeys hopen htags hfits
      exact ⟨fun _ => ⟨_, satisfied_eq hend _, hle⟩, hstep⟩
    · refine ⟨fun hend' => ?_, [], st, h.finish_local keys hend htag hnone, h⟩
      rw [hend] at hend'
      cases hend'

/-! ## Whole runs -/

/-- **The limit on concurrent replays.** In a run of careful steps, with
    debug assertions on, no step fails; before and after each step the slots
    in use are the open requests, at most the maximum, and the queue is empty
    if there is room; and no answer gives back more than is in use. -/
theorem replay_limit (ps : ReplayPaths κ) (max : Nat) {events : List (ReplayEvent κ)}
    (hcareful : Machine.Guarded (tracked true ps) (new max, []) (Careful ps) events)
    {before rest : List (ReplayEvent κ)} {e : ReplayEvent κ}
    (hsplit : events = before ++ e :: rest) :
    ∃ out st acts st', Machine.feed (tracked true ps) (new max, []) before = some (out, st) ∧
      tracked true ps st e = some (acts, st') ∧ Balanced max st ∧ Balanced max st' ∧
      Unsaturated ps st e := by
  obtain ⟨out, st, acts, st', hfeed, htidy, hguard, hstep, htidy'⟩ :=
    hcareful.invariant (I := Tidy ps max) (tidy_new ps max)
      (fun st e htidy hguard => (htidy.step hguard).2) hsplit
  exact ⟨out, st, acts, st', hfeed, hstep, htidy.toBalanced, htidy'.toBalanced,
    (htidy.step hguard).1⟩

theorem forall_remote {P : Tag → Prop} (h : P 0) :
    ∀ tag ∈ remote.replay_paths_by_dst 5 [0], P tag := by
  intro tag htag
  have heq : tag = 0 := mem_singleton.mp htag
  rw [heq]
  exact h

/-- A request is sent and one is queued, and both are answered. -/
theorem replay_limit_of_two :
    ∃ out st acts st', Machine.feed (tracked true remote) (new 1, [])
        [.request [1] [0] 5, .request [2] [0] 5] = some (out, st) ∧
      tracked true remote st (.finish 0 [1]) = some (acts, st') ∧
      Balanced 1 st ∧ Balanced 1 st' ∧ Unsaturated remote st (.finish 0 [1]) := by
  have hcareful : Machine.Guarded (tracked true remote) (new 1, []) (Careful remote)
      [.request [1] [0] 5, .request [2] [0] 5, .finish 0 [1], .finish 0 [2]] := by
    refine .cons ⟨by decide, 1, rfl, forall_remote (by decide)⟩ rfl ?_
    refine .cons ⟨by decide, 2, rfl, forall_remote (by decide)⟩ rfl ?_
    refine .cons (.inl ⟨rfl, by decide, by decide, forall_remote (by decide), by decide,
      by decide⟩) rfl ?_
    refine .cons (.inl ⟨rfl, by decide, by decide, forall_remote (by decide), by decide,
      by decide⟩) rfl ?_
    exact .nil _ _
  exact replay_limit remote 1 hcareful rfl

/-- **A slot is given back too early.** A request for two keys takes one
    slot. The answer to one of them gives it back although the request is
    still open, and the answer to the other would give back one more. -/
theorem slot_given_back_early : ∃ out st,
    Machine.feed (tracked true remote) (new 1, []) [.request [1, 2] [0] 5, .finish 0 [1]] =
        some (out, st) ∧
      st.1.concurrent_replays = 0 ∧ st.2 = [(0, [2])] ∧
      requests_satisfied remote 0 [2].length = some 1 := by
  exact ⟨_, _, rfl, rfl, rfl, rfl⟩

end Noria.Server.Replays

import Noria.Framework.Trace
import Noria.Server.Domain.Replays

/-! # Progress of replay requests

  A key is asked for along every path into its node, and a union answers it only after it has been
  asked for along all of them. When there are fewer slots than paths, the request for a single key
  fills the slots and waits in the queue for the rest, and no answer can ever make room (`starved`).

  Otherwise every key is asked for and answered at last (`no_starvation`). The reason is that at
  most one request is sent in part, so that among the open requests, which are at least as many as
  there are slots, there is one that has been sent in full (`Flowing`). Its answer closes it, and
  nothing is sent before the queue is released.
-/

namespace Noria.Server.Replays

open List Ledger

variable {κ : Type} {ps : ReplayPaths κ} {max : Nat} {st : Replays κ × Ledger Tag κ} {tag : Tag}

/-! ## Destinations -/

/-- Every node is filled from other domains, along no more paths than there are slots. -/
structure Remote (ps : ReplayPaths κ) (max : Nat) : Prop where
  ends : ∀ node cols, ∀ tag ∈ ps.replay_paths_by_dst node cols, ps.isEnd tag = true
  few : ∀ node cols, (ps.replay_paths_by_dst node cols).length ≤ max

theorem siblings_of_mem {node : Nat} {cols : List Nat}
    (h : tag ∈ ps.replay_paths_by_dst node cols) :
    siblings ps tag = ps.replay_paths_by_dst node cols := by
  obtain ⟨p, hp, -, rfl, hcols⟩ := (ps.listed node cols tag).mp h
  simp only [siblings, hp, hcols, Option.getD_some]

theorem siblings_eq {t : Tag} (h : t ∈ siblings ps tag) : siblings ps t = siblings ps tag := by
  unfold siblings at h
  cases hp : ps.replay_paths tag with
  | none =>
    rw [hp] at h
    cases h
  | some p =>
    rw [hp] at h
    rw [siblings_of_mem h, siblings, hp]

theorem Remote.paths_to_eq (h : Remote ps max) (tag : Tag) :
    paths_to ps tag = (siblings ps tag).length := by
  unfold paths_to
  rw [filter_eq_self.mpr]
  unfold siblings
  cases ps.replay_paths tag with
  | none => exact fun t ht => by cases ht
  | some p => exact h.ends _ _

/-! ## What may happen -/

/-- A key has been asked for along every path to a destination. -/
def FullySent (ps : ReplayPaths κ) (l : Ledger Tag κ) (tag : Tag) (k : κ) : Prop :=
  ∀ t ∈ siblings ps tag, (t, k) ∈ pairs l

/-- Keys are asked for that are not being asked for already, and are
    answered after they have been asked for along every path. -/
def Allowed (ps : ReplayPaths κ) (st : Replays κ × Ledger Tag κ) : ReplayEvent κ → Prop
  | .request keys cols node =>
    ps.replay_paths_by_dst node cols ≠ [] ∧ keys ≠ [] ∧ keys.Nodup ∧
      ∀ tag ∈ ps.replay_paths_by_dst node cols, ∀ k ∈ keys,
        (tag, k) ∉ pairs (st.2 ++ st.1.replay_request_queue)
  | .finish tag keys => ps.isEnd tag = true ∧ ∀ k ∈ keys, FullySent ps st.2 tag k

variable [DecidableEq κ]

/-- Every key that has been asked for along every path is answered at last. -/
structure Answers (ps : ReplayPaths κ) (t : Trace (tracked false ps)) : Prop where
  allowed : ∀ n e, t.input n = some e → Allowed ps (t.state n) e
  fair : ∀ n tag k, ps.isEnd tag = true → FullySent ps (t.state n).2 tag k →
    ∃ m, n ≤ m ∧ ∃ tag' ∈ siblings ps tag, ∃ keys, k ∈ keys ∧
      t.input m = some (.finish tag' keys)

/-! ## The invariant -/

/-- Is a key of the request still queued for another path? -/
def partly (ps : ReplayPaths κ) (queue : Ledger Tag κ) (r : Tag × List κ) : Bool :=
  ∃ k ∈ r.2, ∃ t ∈ siblings ps r.1, (t, k) ∈ pairs queue

/-- There are as many open requests as slots in use, and fewer than the
    maximum have been sent only in part. -/
structure Flowing (ps : ReplayPaths κ) (max : Nat) (st : Replays κ × Ledger Tag κ) : Prop where
  maximum : st.1.max_concurrent_replays = max
  queue : st.1.concurrent_replays < max → st.1.replay_request_queue = []
  count : st.1.concurrent_replays ≤ st.2.length
  ends : ∀ r ∈ st.2 ++ st.1.replay_request_queue, ps.isEnd r.1 = true
  nonempty : ∀ r ∈ st.2 ++ st.1.replay_request_queue, r.2 ≠ []
  nodup : (pairs (st.2 ++ st.1.replay_request_queue)).Nodup
  /-- A key that is being asked for is asked for along every path. -/
  complete : ∀ t k, (t, k) ∈ pairs (st.2 ++ st.1.replay_request_queue) →
    FullySent ps (st.2 ++ st.1.replay_request_queue) t k
  few : st.2.countP (partly ps st.1.replay_request_queue) < max

theorem countP_partly_nil (ps : ReplayPaths κ) (l : Ledger Tag κ) :
    l.countP (partly ps []) = 0 := by
  rw [countP_eq_zero]
  intro r _
  simp [partly]

theorem flowing_new (ps : ReplayPaths κ) (hmax : 1 ≤ max) : Flowing ps max (new max, []) where
  maximum := rfl
  queue _ := rfl
  count := Nat.le_refl 0
  ends r hr := by cases hr
  nonempty r hr := by cases hr
  nodup := .nil
  complete t k h := by cases h
  few := hmax

/-- **A request that is sent in full.** If something is queued, then there
    is an open request none of whose keys is queued. -/
theorem Flowing.exists_fullySent (h : Flowing ps max st)
    (hqueue : st.1.replay_request_queue ≠ []) :
    ∃ t k, ps.isEnd t = true ∧ FullySent ps st.2 t k := by
  have hfull : ¬st.1.concurrent_replays < max := fun hroom => hqueue (h.queue hroom)
  have hfew := h.few
  have hcount := h.count
  obtain ⟨r, hr, hnot⟩ : ∃ r ∈ st.2, ¬partly ps st.1.replay_request_queue r = true := by
    by_contra hall
    push Not at hall
    rw [countP_eq_length.mpr hall] at hfew
    omega
  obtain ⟨k, hk⟩ := exists_mem_of_ne_nil _ (h.nonempty r (mem_append_left _ hr))
  refine ⟨r.1, k, h.ends r (mem_append_left _ hr), fun t ht => ?_⟩
  have hmem : (r.1, k) ∈ pairs (st.2 ++ st.1.replay_request_queue) :=
    mem_pairs.mpr ⟨r, mem_append_left _ hr, rfl, hk⟩
  have hboth := h.complete r.1 k hmem t ht
  rw [pairs_append, mem_append] at hboth
  refine hboth.resolve_right fun hq => hnot ?_
  exact decide_eq_true ⟨k, hk, t, ht, hq⟩

/-! ## One step -/

/-- A new request does not concern the requests that are open. -/
theorem Flowing.partly_request (h : Flowing ps max st) {keys : List κ} {cols : List Nat}
    {node : Nat} (hnew : ∀ tag ∈ ps.replay_paths_by_dst node cols, ∀ k ∈ keys,
      (tag, k) ∉ pairs (st.2 ++ st.1.replay_request_queue))
    {ts : List Tag} (hts : ∀ t ∈ ts, t ∈ ps.replay_paths_by_dst node cols)
    {r : Tag × List κ} (hr : r ∈ st.2) :
    partly ps (st.1.replay_request_queue ++ ts.map fun t => (t, keys)) r =
      partly ps st.1.replay_request_queue r := by
  unfold partly
  rw [decide_eq_decide]
  refine ⟨?_, ?_⟩
  · rintro ⟨k, hk, t, ht, hmem⟩
    rw [pairs_append, mem_append, mem_pairs_map] at hmem
    rcases hmem with hmem | ⟨htnew, hknew⟩
    · exact ⟨k, hk, t, ht, hmem⟩
    · -- the request would be for the same destination and the same key
      have hr' := mem_append_left st.1.replay_request_queue hr
      have hself := mem_siblings (h.ends r hr')
      rw [← siblings_eq ht, siblings_of_mem (hts t htnew)] at hself
      exact absurd (mem_pairs.mpr ⟨r, hr', rfl, hk⟩) (hnew r.1 hself k hknew)
  · rintro ⟨k, hk, t, ht, hmem⟩
    refine ⟨k, hk, t, ht, ?_⟩
    rw [pairs_append]
    exact mem_append_left _ hmem

/-- **A request.** Nothing is sent as long as something is queued. -/
theorem Flowing.request (hmax : 1 ≤ max) (hremote : Remote ps max) (h : Flowing ps max st)
    {keys : List κ} {cols : List Nat} {node : Nat}
    (hallowed : Allowed ps st (.request keys cols node)) :
    ∃ acts st', tracked false ps st (.request keys cols node) = some (acts, st') ∧
      Flowing ps max st' ∧ (st.1.replay_request_queue ≠ [] → st'.2 = st.2) ∧
      ∀ t k, (t, k) ∈ pairs (st'.2 ++ st'.1.replay_request_queue) ↔
        (t, k) ∈ pairs (st.2 ++ st.1.replay_request_queue) ∨
          t ∈ ps.replay_paths_by_dst node cols ∧ k ∈ keys := by
  obtain ⟨hne, hkeys, hnodup, hnew⟩ := hallowed
  obtain ⟨acts, hstep⟩ := tracked_request false st keys hne (h.maximum ▸ h.queue)
  have htags := now_append_later ps st.1 (ps.replay_paths_by_dst node cols)
  rw [filter_eq_self.mpr (hremote.ends node cols)] at htags
  have hmaximum := h.maximum
  have hcount := h.count
  have hnow : ¬st.1.concurrent_replays < max →
      now ps st.1 (ps.replay_paths_by_dst node cols) = [] := by
    intro hfull
    have := length_now_le ps st.1 (ps.replay_paths_by_dst node cols)
    exact length_eq_zero_iff.mp (by omega)
  have hpairs : ∀ t k, (t, k) ∈ pairs ((st.2 ++
        (now ps st.1 (ps.replay_paths_by_dst node cols)).map fun tag => (tag, keys)) ++
        (st.1.replay_request_queue ++
          (later ps st.1 (ps.replay_paths_by_dst node cols)).map fun tag => (tag, keys))) ↔
      (t, k) ∈ pairs (st.2 ++ st.1.replay_request_queue) ∨
        t ∈ ps.replay_paths_by_dst node cols ∧ k ∈ keys := by
    intro t k
    rw [mem_pairs_request, htags]
  refine ⟨acts, _, hstep, ⟨hmaximum, ?_, ?_, ?_, ?_, ?_, ?_, ?_⟩, ?_, hpairs⟩
  · intro hroom
    simp only at hroom ⊢
    rw [h.queue (by omega), later_eq_nil (by omega)]
    rfl
  · simp only [length_append, length_map]
    omega
  · intro r hr
    rcases mem_request hr with hr | ⟨htag, -⟩
    · exact h.ends r hr
    · rw [htags] at htag
      exact hremote.ends node cols r.1 htag
  · intro r hr
    rcases mem_request hr with hr | ⟨-, hr⟩
    · exact h.nonempty r hr
    · rw [hr]
      exact hkeys
  · refine nodup_request h.nodup ?_ hnodup ?_
    · rw [htags]
      exact ps.nodup node cols
    · rw [htags]
      exact hnew
  · intro t k hmem t' ht'
    rcases (hpairs t k).mp hmem with hold | ⟨ht, hk⟩
    · exact (hpairs t' k).mpr (.inl (h.complete t k hold t' ht'))
    · rw [siblings_of_mem ht] at ht'
      exact (hpairs t' k).mpr (.inr ⟨ht', hk⟩)
  · have hlater : ∀ t ∈ later ps st.1 (ps.replay_paths_by_dst node cols),
        t ∈ ps.replay_paths_by_dst node cols := by
      intro t ht
      rw [← htags]
      exact mem_append_right _ ht
    have hold : st.2.countP (partly ps (st.1.replay_request_queue ++
          (later ps st.1 (ps.replay_paths_by_dst node cols)).map fun tag => (tag, keys))) =
        st.2.countP (partly ps st.1.replay_request_queue) :=
      countP_congr fun r hr => by rw [h.partly_request hnew hlater hr]
    simp only [countP_append, hold]
    by_cases hroom : st.1.concurrent_replays < max
    · -- this request is the only one that may be sent in part
      rw [h.queue hroom, countP_partly_nil, nil_append, Nat.zero_add]
      cases hnil : later ps st.1 (ps.replay_paths_by_dst node cols) with
      | nil =>
        rw [map_nil, countP_partly_nil]
        exact hmax
      | cons t ts =>
        have hlength := congrArg List.length htags
        have hfew := hremote.few node cols
        rw [hnil, length_append, length_cons] at hlength
        refine Nat.lt_of_le_of_lt countP_le_length ?_
        rw [length_map]
        omega
    · rw [hnow hroom]
      exact h.few
  · intro hqueue
    have hfull : ¬st.1.concurrent_replays < max := fun hroom => hqueue (h.queue hroom)
    rw [hnow hfull]
    exact append_nil _

theorem partly_of_sublist {q : Ledger Tag κ} (r : Tag × List κ) (keys : List κ)
    (hsub : keys.Sublist r.2) (h : partly ps q (r.1, keys) = true) : partly ps q r = true := by
  obtain ⟨k, hk, t, ht, hmem⟩ := of_decide_eq_true h
  exact decide_eq_true ⟨k, hsub.subset hk, t, ht, hmem⟩

/-- What is asked for after an answer. Its keys are not queued, since they
    have been sent along every path. -/
theorem Flowing.mem_close (h : Flowing ps max st) {keys : List κ}
    (hsent : ∀ k ∈ keys, FullySent ps st.2 tag k) (t : Tag) (k : κ) :
    (t, k) ∈ pairs (st.2.close (siblings ps tag) keys ++ st.1.replay_request_queue) ↔
      (t, k) ∈ pairs (st.2 ++ st.1.replay_request_queue) ∧
        ¬(t ∈ siblings ps tag ∧ k ∈ keys) := by
  have hnodup := h.nodup
  rw [pairs_append] at hnodup
  rw [pairs_append, pairs_append, pairs_close, mem_append,
    mem_append, mem_filter, decide_eq_true_iff]
  refine ⟨?_, ?_⟩
  · rintro (⟨hl, hnot⟩ | hq)
    · exact ⟨.inl hl, hnot⟩
    · refine ⟨.inr hq, fun ⟨ht, hk⟩ => ?_⟩
      exact disjoint_of_nodup_append hnodup (hsent k hk t ht) hq
  · rintro ⟨hl | hq, hnot⟩
    · exact .inl ⟨hl, hnot⟩
    · exact .inr hq

/-- An answer closes a key along every path. -/
theorem Flowing.complete_close (h : Flowing ps max st) {keys : List κ} {t : Tag} {k : κ}
    (hmem : (t, k) ∈ pairs (st.2 ++ st.1.replay_request_queue) ∧
      ¬(t ∈ siblings ps tag ∧ k ∈ keys)) {t' : Tag} (ht' : t' ∈ siblings ps t) :
    (t', k) ∈ pairs (st.2 ++ st.1.replay_request_queue) ∧
      ¬(t' ∈ siblings ps tag ∧ k ∈ keys) := by
  refine ⟨h.complete t k hmem.1 t' ht', fun ⟨htag, hk⟩ => hmem.2 ⟨?_, hk⟩⟩
  obtain ⟨r, hr, rfl, -⟩ := mem_pairs.mp hmem.1
  have hself := mem_siblings (h.ends r hr)
  rwa [← siblings_eq ht', siblings_eq htag] at hself

/-- **An answer.** Its keys are closed. Then the queue is released, or nothing is sent. -/
theorem Flowing.finish (hmax : 1 ≤ max) (hremote : Remote ps max) (h : Flowing ps max st)
    {keys : List κ} (hallowed : Allowed ps st (.finish tag keys)) :
    ∃ acts st', tracked false ps st (.finish tag keys) = some (acts, st') ∧
      Flowing ps max st' ∧
      (st'.1.replay_request_queue ≠ [] → st'.2 = st.2.close (siblings ps tag) keys) ∧
      ∀ t k, (t, k) ∈ pairs (st'.2 ++ st'.1.replay_request_queue) ↔
        (t, k) ∈ pairs (st.2 ++ st.1.replay_request_queue) ∧
          ¬(t ∈ siblings ps tag ∧ k ∈ keys) := by
  obtain ⟨hend, hsent⟩ := hallowed
  have hpairs := h.mem_close hsent
  have hnodup := nodup_close (siblings ps tag) keys h.nodup
  have hledger : ∀ r ∈ st.2, r ∈ st.2 ++ st.1.replay_request_queue :=
    fun r hr => mem_append_left _ hr
  have hqueued : ∀ r ∈ st.1.replay_request_queue, r ∈ st.2 ++ st.1.replay_request_queue :=
    fun r hr => mem_append_right _ hr
  have hends : ∀ r ∈ st.2.close (siblings ps tag) keys, ps.isEnd r.1 = true := by
    intro r hr
    obtain ⟨r₀, hr₀, heq, -⟩ := Ledger.mem_close hr
    rw [← heq]
    exact h.ends r₀ (hledger r₀ hr₀)
  -- at most one slot is given back for each request that is closed
  have hcount : st.1.concurrent_replays - paths_to ps tag * keys.length ≤
      (st.2.close (siblings ps tag) keys).length := by
    have hclose := length_le_close (siblings ps tag) keys
      (fun r hr => h.nonempty r (hledger r hr))
      (by have := h.nodup; rw [pairs_append] at this; exact this.of_append_left)
    have hold := h.count
    rw [hremote.paths_to_eq tag]
    omega
  have hmaximum := h.maximum
  by_cases hroom : st.1.concurrent_replays - paths_to ps tag * keys.length <
      st.1.max_concurrent_replays
  · obtain ⟨acts, hstep⟩ := tracked_finish_room false st keys hend hroom
      (fun r hr => h.ends r (hqueued r hr)) (fun hdebug => by cases hdebug)
    have hreleased : (pairs (st.2.close (siblings ps tag) keys ++
          (release true ∅ st.1.replay_request_queue).1.entries ++ [])).Perm
        (pairs (st.2.close (siblings ps tag) keys ++ st.1.replay_request_queue)) := by
      rw [append_nil, pairs_append, pairs_append]
      exact (release_pairs ∅ st.1.replay_request_queue).append_left _
    have hpairs' : ∀ t k, (t, k) ∈ pairs (st.2.close (siblings ps tag) keys ++
          (release true ∅ st.1.replay_request_queue).1.entries ++ []) ↔
        (t, k) ∈ pairs (st.2 ++ st.1.replay_request_queue) ∧
          ¬(t ∈ siblings ps tag ∧ k ∈ keys) := fun t k => hreleased.mem_iff.trans (hpairs t k)
    refine ⟨acts, _, hstep, ⟨hmaximum, fun _ => rfl, ?_, ?_, ?_, ?_, ?_, ?_⟩,
      fun hne => absurd rfl hne, hpairs'⟩
    · simp only [length_append]
      omega
    · intro r hr
      rw [append_nil, mem_append] at hr
      refine hr.elim (hends r) fun hr => ?_
      exact release_mem (P := fun r => ps.isEnd r.1 = true) (fun _ _ _ h _ => h)
        (fun r hr => by cases hr) (fun r hr => h.ends r (hqueued r hr)) r hr
    · intro r hr
      rw [append_nil, mem_append] at hr
      refine hr.elim close_nonempty fun hr => ?_
      exact release_mem (P := fun r => r.2 ≠ [])
        (fun _ _ _ h _ hnil => h (append_eq_nil_iff.mp hnil).1)
        (fun r hr => by cases hr) (fun r hr => h.nonempty r (hqueued r hr)) r hr
    · exact hreleased.nodup_iff.mpr hnodup
    · intro t k hmem t' ht'
      exact (hpairs' t' k).mpr (h.complete_close ((hpairs' t k).mp hmem) ht')
    · simp only [countP_partly_nil]
      exact hmax
  · refine ⟨[], _, tracked_finish_full st keys hend hroom,
      ⟨hmaximum, ?_, hcount, ?_, ?_, hnodup, ?_, ?_⟩, fun _ => rfl, hpairs⟩
    · intro hroom'
      simp only at hroom'
      omega
    · intro r hr
      exact (mem_append.mp hr).elim (hends r) fun hr => h.ends r (hqueued r hr)
    · intro r hr
      exact (mem_append.mp hr).elim close_nonempty fun hr => h.nonempty r (hqueued r hr)
    · intro t k hmem t' ht'
      exact (hpairs t' k).mpr (h.complete_close ((hpairs t k).mp hmem) ht')
    · exact Nat.lt_of_le_of_lt (countP_close_le partly_of_sublist) h.few

theorem Flowing.step (hmax : 1 ≤ max) (hremote : Remote ps max) (h : Flowing ps max st)
    {e : ReplayEvent κ} (hallowed : Allowed ps st e) :
    ∃ acts st', tracked false ps st e = some (acts, st') ∧ Flowing ps max st' := by
  cases e with
  | request keys cols node =>
    obtain ⟨acts, st', hstep, hflow, -⟩ := h.request hmax hremote hallowed
    exact ⟨acts, st', hstep, hflow⟩
  | finish tag keys =>
    obtain ⟨acts, st', hstep, hflow, -⟩ := h.finish hmax hremote hallowed
    exact ⟨acts, st', hstep, hflow⟩

/-! ## Whole runs -/

section Runs

variable {t : Trace (tracked false ps)}

theorem Answers.flowing (hmax : 1 ≤ max) (hremote : Remote ps max) (hrun : Answers ps t)
    (hinit : t.state 0 = (new max, [])) (n : ℕ) : Flowing ps max (t.state n) := by
  refine Trace.always (I := Flowing ps max) ?_ (fun n e he hflow => ?_) n
  · rw [hinit]
    exact flowing_new ps hmax
  · exact hflow.step hmax hremote (hrun.allowed n e he)

theorem state_succ {n : ℕ} {e : ReplayEvent κ} {acts : List (Asked κ)}
    {st' : Replays κ × Ledger Tag κ} (he : t.input n = some e)
    (hstep : tracked false ps (t.state n) e = some (acts, st')) : t.state (n + 1) = st' := by
  obtain ⟨o, hnext⟩ := Trace.reads he
  rw [hstep] at hnext
  cases hnext
  rfl

section

variable (hmax : 1 ≤ max) (hremote : Remote ps max) (hrun : Answers ps t)
  (hflow : ∀ n, Flowing ps max (t.state n))

include hmax hremote hrun hflow

/-- **The open requests get fewer.** While something is queued, nothing is sent. -/
theorem Answers.pairs_le {n : ℕ} (hqueue : (t.state n).1.replay_request_queue ≠ [])
    (hqueue' : (t.state (n + 1)).1.replay_request_queue ≠ []) :
    (pairs (t.state (n + 1)).2).length ≤ (pairs (t.state n).2).length := by
  cases he : t.input n with
  | none => rw [Trace.idle he]
  | some e =>
    have hallowed := hrun.allowed n e he
    cases e with
    | request keys cols node =>
      obtain ⟨acts, st', hstep, -, hsame, -⟩ := (hflow n).request hmax hremote hallowed
      rw [state_succ he hstep, hsame hqueue]
    | finish tag keys =>
      obtain ⟨acts, st', hstep, -, hclose, -⟩ := (hflow n).finish hmax hremote hallowed
      rw [state_succ he hstep] at hqueue' ⊢
      have := length_closed_add (siblings ps tag) keys (t.state n).2
      rw [hclose hqueue']
      omega

theorem Answers.pairs_lt {n : ℕ} {keys : List κ} {k : κ} (hk : k ∈ keys)
    (he : t.input n = some (.finish tag keys))
    (hqueue' : (t.state (n + 1)).1.replay_request_queue ≠ []) :
    (pairs (t.state (n + 1)).2).length < (pairs (t.state n).2).length := by
  have hallowed := hrun.allowed n _ he
  obtain ⟨acts, st', hstep, -, hclose, -⟩ := (hflow n).finish hmax hremote hallowed
  obtain ⟨hend, hsent⟩ := hallowed
  rw [state_succ he hstep] at hqueue' ⊢
  have hself := mem_siblings hend
  have hmem : (tag, k) ∈ closed (siblings ps tag) keys (t.state n).2 :=
    mem_filter.mpr ⟨hsent k hk tag hself, decide_eq_true ⟨hself, hk⟩⟩
  have hpos := length_pos_of_mem hmem
  have hsum := length_closed_add (siblings ps tag) keys (t.state n).2
  rw [hclose hqueue']
  omega

/-- **The queue is released** again and again. -/
theorem Answers.queue_released (n : ℕ) : ∃ m, n ≤ m ∧ (t.state m).1.replay_request_queue = [] := by
  refine eventually_of_progress (fun n => (pairs (t.state n).2).length)
    (fun n hq hq' => hrun.pairs_le hmax hremote hflow hq hq') (fun n hq => ?_) n
  obtain ⟨tag, k, hend, hsent⟩ := (hflow n).exists_fullySent hq
  obtain ⟨m, hm, tag', -, keys, hk, he⟩ := hrun.fair n tag k hend hsent
  exact ⟨m, hm, fun _ hq' => hrun.pairs_lt hmax hremote hflow hk he hq'⟩

end

/-- The key is answered at a destination in a step. -/
def AnsweredAt (ps : ReplayPaths κ) (t : Trace (tracked false ps)) (tag : Tag) (k : κ) (n : ℕ) :
    Prop :=
  ∃ tag' ∈ siblings ps tag, ∃ keys, k ∈ keys ∧ t.input n = some (.finish tag' keys)

theorem Answers.asked_until (hmax : 1 ≤ max) (hremote : Remote ps max) (hrun : Answers ps t)
    (hflow : ∀ n, Flowing ps max (t.state n)) {k : κ} {n : ℕ}
    (hasked : (tag, k) ∈ pairs ((t.state n).2 ++ (t.state n).1.replay_request_queue))
    (hnot : ¬AnsweredAt ps t tag k n) :
    (tag, k) ∈ pairs ((t.state (n + 1)).2 ++ (t.state (n + 1)).1.replay_request_queue) := by
  cases he : t.input n with
  | none =>
    rw [Trace.idle he]
    exact hasked
  | some e =>
    have hallowed := hrun.allowed n e he
    cases e with
    | request keys cols node =>
      obtain ⟨acts, st', hstep, -, -, hpairs⟩ := (hflow n).request hmax hremote hallowed
      rw [state_succ he hstep, hpairs]
      exact .inl hasked
    | finish tag' keys =>
      obtain ⟨acts, st', hstep, -, -, hpairs⟩ := (hflow n).finish hmax hremote hallowed
      rw [state_succ he hstep, hpairs]
      refine ⟨hasked, fun ⟨htag, hk⟩ => hnot ⟨tag', ?_, keys, hk, he⟩⟩
      rw [siblings_eq htag]
      exact mem_siblings hallowed.1

/-- **No starvation.** If no destination has more paths than there are slots, and every key that has
    been asked for along every path is answered, then no step panics; the queue is released again
    and again; and every key that is asked for is sent along every path of its destination at last,
    and answered. -/
theorem no_starvation (hmax : 1 ≤ max) (hremote : Remote ps max) (hrun : Answers ps t)
    (hinit : t.state 0 = (new max, [])) :
    (∀ n e, Allowed ps (t.state n) e → (tracked false ps (t.state n) e).isSome = true) ∧
    (∀ n, ∃ m, n ≤ m ∧ (t.state m).1.replay_request_queue = []) ∧
    ∀ n keys cols node, t.input n = some (.request keys cols node) → ∀ k ∈ keys,
      ∃ m, n < m ∧ (∀ tag ∈ ps.replay_paths_by_dst node cols, (tag, k) ∈ pairs (t.state m).2) ∧
        ∃ m', m ≤ m' ∧ ∃ tag ∈ ps.replay_paths_by_dst node cols, ∃ keys', k ∈ keys' ∧
          t.input m' = some (.finish tag keys') := by
  have hflow := hrun.flowing hmax hremote hinit
  refine ⟨fun n e hallowed => ?_, hrun.queue_released hmax hremote hflow, ?_⟩
  · obtain ⟨acts, st', hstep, -⟩ := (hflow n).step hmax hremote hallowed
    rw [hstep]
    rfl
  intro n keys cols node he k hk
  have hallowed := hrun.allowed n _ he
  obtain ⟨acts, st', hstep, -, -, hpairs⟩ := (hflow n).request hmax hremote hallowed
  obtain ⟨tag, htag⟩ := exists_mem_of_ne_nil _ hallowed.1
  have hsiblings := siblings_of_mem htag
  have hend := hremote.ends node cols tag htag
  rw [← state_succ he hstep] at hpairs
  obtain ⟨m, hm, hempty⟩ := hrun.queue_released hmax hremote hflow (n + 1)
  -- when the queue is empty the key has been sent, or was answered before
  obtain ⟨m, hm, hsent⟩ : ∃ m, n < m ∧ FullySent ps (t.state m).2 tag k := by
    rcases holds_until (p := fun m => (tag, k) ∈ pairs ((t.state m).2 ++
        (t.state m).1.replay_request_queue)) (q := AnsweredAt ps t tag k)
      ((hpairs tag k).mpr (.inr ⟨htag, hk⟩))
      (fun m _ hasked hnot => hrun.asked_until hmax hremote hflow hasked hnot) m hm with
      hasked | ⟨j, hj, -, -, tag', htag', keys', hk', hfinish⟩
    · have hcomplete := (hflow m).complete tag k hasked
      rw [hempty, append_nil] at hcomplete
      exact ⟨m, by omega, hcomplete⟩
    · have hsent := (hrun.allowed j _ hfinish).2 k hk'
      unfold FullySent at hsent
      rw [siblings_eq htag'] at hsent
      exact ⟨j, by omega, hsent⟩
  obtain ⟨m', hm', tag', htag', keys', hk', hfinish⟩ := hrun.fair m tag k hend hsent
  unfold FullySent at hsent
  rw [hsiblings] at hsent htag'
  exact ⟨m, hm, hsent, m', hm', tag', htag', keys', hk', hfinish⟩

end Runs

/-! ## A union of two domains -/

theorem remote_fresh : remote.replay_paths 1 = none := rfl

def union : ReplayPaths Nat :=
  remote.setup 1 (.endpoint 1 none) 5 [0] endpoint_triggered remote_fresh

theorem union_by_dst (node : Nat) (cols : List Nat) : union.replay_paths_by_dst node cols =
    if node = 5 ∧ cols = [0] then [0, 1] else [] := by
  unfold union remote ReplayPaths.setup ReplayPaths.empty
  split <;> simp [*]

theorem union_isEnd (h : tag ∈ [0, 1]) : union.isEnd tag = true := by
  rcases mem_cons.mp h with rfl | h
  · rfl
  · rw [mem_singleton.mp h]
    rfl

theorem siblings_union (h : union.isEnd tag = true) : siblings union tag = [0, 1] := by
  have hself := mem_siblings h
  obtain ⟨p, cols, hp, -, hcols⟩ := path_of_isEnd h
  simp only [siblings, hp, union_by_dst] at hself ⊢
  split at hself
  · next hdst => rw [if_pos hdst]
  · cases hself

def answered : Trace (tracked false union) where
  state
    | 0 => (new 2, [])
    | 1 => (⟨2, 2, []⟩, [(0, [7]), (1, [7])])
    | _ => (new 2, [])
  input
    | 0 => some (.request [7] [0] 5)
    | 1 => some (.finish 0 [7])
    | _ => none
  next n := by
    rcases n with _ | _ | n
    · exact ⟨_, rfl⟩
    · exact ⟨_, rfl⟩
    · exact rfl

theorem not_fullySent_nil {k : Nat} (h : union.isEnd tag = true) : ¬FullySent union [] tag k := by
  intro hsent
  cases hsent tag (mem_siblings h)

theorem answers_answered : Answers union answered where
  allowed n e he := by
    rcases n with _ | _ | n
    · cases he
      refine ⟨by decide, by decide, by decide, ?_⟩
      intro tag htag k hk hmem
      cases hmem
    · cases he
      refine ⟨rfl, fun k hk => ?_⟩
      rw [mem_singleton.mp hk]
      intro t ht
      rcases mem_cons.mp ht with rfl | ht
      · decide
      · rw [mem_singleton.mp ht]
        decide
    · cases he
  fair n tag k hend hsent := by
    rcases n with _ | _ | n
    · exact absurd hsent (not_fullySent_nil hend)
    · refine ⟨1, Nat.le_refl 1, 0, ?_, [7], ?_, rfl⟩
      · rw [siblings_union hend]
        exact mem_cons_self
      · have hmem := hsent tag (mem_siblings hend)
        obtain ⟨r, hr, -, hk⟩ := mem_pairs.mp hmem
        rcases mem_cons.mp hr with rfl | hr
        · exact hk
        · rw [mem_singleton.mp hr] at hk
          exact hk
    · exact absurd hsent (not_fullySent_nil hend)

/-- With two slots the key is sent to both domains and answered. -/
theorem no_starvation_of_two : ∃ m, 0 < m ∧
    (∀ tag ∈ union.replay_paths_by_dst 5 [0], (tag, 7) ∈ pairs (answered.state m).2) ∧
      ∃ m', m ≤ m' ∧ ∃ tag ∈ union.replay_paths_by_dst 5 [0], ∃ keys', 7 ∈ keys' ∧
        answered.input m' = some (.finish tag keys') := by
  have hremote : Remote union 2 := by
    refine ⟨fun node cols tag htag => ?_, fun node cols => ?_⟩
    · rw [union_by_dst] at htag
      split at htag
      · exact union_isEnd htag
      · cases htag
    · rw [union_by_dst]
      split <;> decide
  exact (no_starvation (by decide) hremote answers_answered rfl).2.2 0 [7] [0] 5 rfl 7
    mem_cons_self

/-- One slot is not enough: the request to the second domain is queued, and
    nothing happens any more. -/
def stuck : Trace (tracked false union) where
  state
    | 0 => (new 1, [])
    | _ => (⟨1, 1, [(1, [7])]⟩, [(0, [7])])
  input
    | 0 => some (.request [7] [0] 5)
    | _ => none
  next n := by
    rcases n with _ | n
    · exact ⟨_, rfl⟩
    · exact rfl

/-- **Starvation.** A key is asked for from two domains, with one slot. It is never asked for from
    the second one, so it is never answered; every key that has been asked for along every path is
    answered, as there is none. -/
theorem starved : stuck.state 0 = (new 1, []) ∧ Answers union stuck ∧
    stuck.input 0 = some (.request [7] [0] 5) ∧
    (∀ n, 0 < n → (stuck.state n).1.replay_request_queue = [(1, [7])]) ∧
    ∀ n tag keys, stuck.input n ≠ some (.finish tag keys) := by
  refine ⟨rfl, ⟨fun n e he => ?_, fun n tag k hend hsent => ?_⟩, rfl, fun n hn => ?_,
    fun n tag keys he => ?_⟩
  · rcases n with _ | n
    · cases he
      refine ⟨by decide, by decide, by decide, ?_⟩
      intro tag htag k hk hmem
      cases hmem
    · cases he
  · rcases n with _ | n
    · exact absurd hsent (not_fullySent_nil hend)
    · have hmem := hsent 1 (by rw [siblings_union hend]; decide)
      obtain ⟨r, hr, htag, -⟩ := mem_pairs.mp hmem
      rw [mem_singleton.mp hr] at htag
      cases htag
  · rcases n with _ | n
    · cases hn
    · rfl
  · rcases n with _ | n <;> cases he

end Noria.Server.Replays

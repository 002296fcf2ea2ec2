import Mathlib.Data.List.Forall2
import Noria.Framework.Loop

/-! # Blocking reads

    `handle_message` (`worker/readers.rs`) looks up every key of a request and keeps the keys that
    it misses, with their places in the reply. `BlockingRead::check` looks these up again, from the
    last one on, until one is missed again. There is a reply when no key is left.

    What the reader holds may change between any two lookups, so it is a
    function of the number of lookups so far. The log of the lookups stands
    beside the state, to say what the reply is made of.
-/

namespace Noria.Server

open List

variable {κ β : Type}

/-- The answer of `try_find_and`: rows, a miss, or `Err(())` without a map. -/
abbrev Found (β : Type) := Except Unit (Option β)

/-- The lookups of a read: which key of the request, and what was found. -/
abbrev LookupLog (β : Type) := List (Nat × Found β)

/-- A `ReadQuery::Normal`, with what its reader holds at each lookup. -/
structure ReadQuery (κ β : Type) where
  keys : List κ
  reader : Nat → κ → Found β
  /-- `SerializedReadReplyBatch::empty()`. -/
  empty : β

/-- A read that waits; the time of its last warning is left out. -/
structure BlockingRead (κ β : Type) where
  read : List β
  keys : List κ
  /-- Where in `read` each of the keys belongs. -/
  pending : List Nat
  trigger_timeout : Nat
  next_trigger : Nat

inductive ReadStatus (κ β : Type) where
  | replied (reply : Except Unit (List β))
  | waiting (b : BlockingRead κ β)

/-- A read and its lookups so far. -/
abbrev ReadState (κ β : Type) := LookupLog β × ReadStatus κ β

/-- A call of `check`: its time, and what `reader.trigger` would return. -/
structure Poll where
  now : Nat
  triggered : Bool

namespace ReadQuery

variable (q : ReadQuery κ β)

/-! ## The code -/

/-- `keys.retain` from key `i` on: the keys that stay, `pending` and `ret`.
    Without a map nothing more is looked up, and the reply is an error. -/
def retain (log : LookupLog β) (i : Nat) :
    List κ → LookupLog β × Except Unit (List κ × List Nat × List β)
  | [] => (log, .ok ([], [], []))
  | key :: rest =>
    let rs := q.reader log.length key
    let log := log ++ [(i, rs)]
    match rs with
    | .error () => (log, .error ())
    | .ok rs =>
      let (log, r) := retain log (i + 1) rest
      match rs with
      | some rs => (log, r.map fun (keys, pending, ret) => (keys, pending, rs :: ret))
      | none => (log, r.map fun (keys, pending, ret) => (key :: keys, i :: pending, q.empty :: ret))

def TRIGGER_TIMEOUT_MS : Nat := 20

/-- The panic of the assertion is `none`. -/
def handle_message (now : Nat) (block : Bool) : Option (ReadState κ β) :=
  match q.retain [] 0 q.keys with
  | (log, .error ()) => some (log, .replied (.error ()))
  | (log, .ok (keys, pending, ret)) =>
    if keys.isEmpty then if pending.isEmpty then some (log, .replied (.ok ret)) else none
    else if !block then some (log, .replied (.ok ret))
    else some (log, .waiting ⟨ret, keys, pending, TRIGGER_TIMEOUT_MS, now⟩)

/-- The loop of `check`, on lists that start with the last element; `none` is
    the panic of `expect` or of an index. -/
def retry (log : LookupLog β) (read : List β) :
    List Nat → List κ → Option (LookupLog β × Except Unit (List β × List Nat × List κ))
  | [], keys => some (log, .ok (read, [], keys))
  | _ :: _, [] => none
  | read_i :: pending, key :: keys =>
    let rs := q.reader log.length key
    let log := log ++ [(read_i, rs)]
    match rs with
    | .ok (some rs) =>
      if read_i < read.length then retry log (read.set read_i rs) pending keys else none
    | .error () => some (log, .error ())
    | .ok none => some (log, .ok (read, read_i :: pending, key :: keys))

def check (p : Poll) (log : LookupLog β) (b : BlockingRead κ β) : Option (ReadState κ β) := do
  let (log, r) ← q.retry log b.read b.pending.reverse b.keys.reverse
  match r with
  | .error () => some (log, .replied (.error ()))
  | .ok (read, pending, keys) =>
    if pending.length ≠ keys.length then none
    else if keys.isEmpty then some (log, .replied (.ok read))
    else
      let b := { b with read := read, keys := keys.reverse, pending := pending.reverse }
      if p.now ≤ b.next_trigger then some (log, .waiting b)
      else if !p.triggered then some (log, .replied (.error ()))
      else
        let trigger_timeout := b.trigger_timeout * 2
        some (log, .waiting { b with
          trigger_timeout := trigger_timeout, next_trigger := p.now + trigger_timeout })

/-- A read is polled until there is a reply. -/
def poll (s : ReadState κ β) (p : Poll) : Option (ReadState κ β) :=
  match s.2 with
  | .replied _ => some s
  | .waiting b => q.check p s.1 b

/-- A blocking read, from the request on. -/
def run (now : Nat) (polls : List Poll) : Option (ReadState κ β) := do
  polls.foldlM q.poll (← q.handle_message now true)

/-! ## The lookups -/

/-- The keys that were found are those that are not pending, and `read` has what was found. -/
structure Sound (log : LookupLog β) (read : List β) (pending : List Nat) : Prop where
  asked : ∀ t i rs, log[t]? = some (i, rs) → ∃ k, q.keys[i]? = some k ∧ q.reader t k = rs
  length : read.length = q.keys.length
  nodup : pending.Nodup
  valid : ∀ i ∈ pending, i < q.keys.length
  hit : ∀ i, (∃ rs, (i, .ok (some rs)) ∈ log) ↔ i < q.keys.length ∧ i ∉ pending
  found : ∀ i rs, (i, .ok (some rs)) ∈ log → read[i]? = some rs

/-- The key at a place of the request. -/
def Place (i : Nat) (k : κ) : Prop := q.keys[i]? = some k

/-- Every one of the lookups found rows. -/
def AllFound (asked : LookupLog β) : Prop := ∀ x ∈ asked, ∃ rs, x.2 = .ok (some rs)

/-- The lookups of one poll: the places that wait, in this order, up to the
    first key that is not found. -/
structure Retried (places : List Nat) (asked : LookupLog β) : Prop where
  order : asked.map Prod.fst <+: places
  found : AllFound asked.dropLast
  through : AllFound asked → asked.map Prod.fst = places

/-- What is true of a read; `refused` says that a backfill was refused. -/
inductive Good (refused : Prop) (log : LookupLog β) : ReadStatus κ β → Prop
  | reply {rs : List β} (h : q.Sound log rs [])
      (hasked : range q.keys.length <+: log.map Prod.fst) : Good refused log (.replied (.ok rs))
  | failure {read : List β} {pending : List Nat} (h : q.Sound log read pending)
      (hne : pending ≠ []) (hcause : (∃ i, (i, .error ()) ∈ log) ∨ refused) :
      Good refused log (.replied (.error ()))
  | wait {b : BlockingRead κ β} (h : q.Sound log b.read b.pending)
      (hasked : range q.keys.length <+: log.map Prod.fst) (hne : b.pending ≠ [])
      (hkeys : Forall₂ q.Place b.pending b.keys) : Good refused log (.waiting b)

variable {q} {log : LookupLog β} {read : List β} {pending : List Nat} {i : Nat} {k : κ}

namespace Sound

theorem perm {pending' : List Nat} (h : q.Sound log read pending) (hp : pending.Perm pending') :
    q.Sound log read pending' where
  asked := h.asked
  length := h.length
  nodup := hp.nodup_iff.mp h.nodup
  valid i hi := h.valid i (hp.mem_iff.mpr hi)
  hit i := by rw [h.hit, hp.mem_iff]
  found := h.found

theorem lt_read (h : q.Sound log read pending) (hi : i ∈ pending) : i < read.length := by
  rw [h.length]
  exact h.valid i hi

theorem asked_snoc (h : q.Sound log read pending) (hk : q.Place i k) (t j : Nat) (rs : Found β)
    (hat : (log ++ [(i, q.reader log.length k)])[t]? = some (j, rs)) :
    ∃ k, q.keys[j]? = some k ∧ q.reader t k = rs := by
  rcases Nat.lt_trichotomy t log.length with ht | rfl | ht
  · rw [getElem?_append_left ht] at hat
    exact h.asked t j rs hat
  · rw [getElem?_concat_length] at hat
    cases hat
    exact ⟨k, hk, rfl⟩
  · rw [getElem?_eq_none (by rw [length_append]; exact ht)] at hat
    cases hat

/-- A key that is not found stays pending. -/
theorem miss (h : q.Sound log read pending) (hk : q.Place i k) {rs : Found β}
    (hrs : q.reader log.length k = rs) (hmiss : ∀ r, rs ≠ .ok (some r)) :
    q.Sound (log ++ [(i, rs)]) read pending := by
  have hmem : ∀ j r, (j, .ok (some r)) ∈ log ++ [(i, rs)] ↔ (j, .ok (some r)) ∈ log := by
    intro j r
    rw [mem_append, mem_singleton, Prod.mk.injEq]
    exact or_iff_left fun he => hmiss r he.2.symm
  refine ⟨?_, h.length, h.nodup, h.valid, fun j => ?_, fun j r hj => ?_⟩
  · subst hrs
    exact h.asked_snoc hk
  · simp only [hmem]
    exact h.hit j
  · exact h.found j r ((hmem j r).mp hj)

/-- A key that is found is no longer pending. -/
theorem found_pending (h : q.Sound log read (i :: pending)) (hk : q.Place i k) {rs : β}
    (hrs : q.reader log.length k = .ok (some rs)) :
    q.Sound (log ++ [(i, .ok (some rs))]) (read.set i rs) pending := by
  obtain ⟨hi, hnodup⟩ := nodup_cons.mp h.nodup
  have hlt := h.valid i mem_cons_self
  have hmem : ∀ j r, (j, .ok (some r)) ∈ log ++ [(i, .ok (some rs))] ↔
      (j, .ok (some r)) ∈ log ∨ j = i ∧ r = rs := by
    intro j r
    simp
  refine ⟨?_, by rw [length_set, h.length], hnodup,
    fun j hj => h.valid j (mem_cons_of_mem i hj), fun j => ?_, fun j r hj => ?_⟩
  · rw [← hrs]
    exact h.asked_snoc hk
  · simp only [hmem, exists_or, h.hit, mem_cons]
    by_cases hj : j = i
    · subst hj
      simp [hlt, hi]
    · simp [hj]
  · rcases (hmem j r).mp hj with hj | ⟨rfl, rfl⟩
    · have hne : i ≠ j := by
        rintro rfl
        exact ((h.hit i).mp ⟨r, hj⟩).2 mem_cons_self
      rw [getElem?_set_ne hne]
      exact h.found j r hj
    · rw [getElem?_set_self (h.lt_read mem_cons_self)]

/-- Every key has been found exactly if none is pending. -/
theorem all_hit_iff (h : q.Sound log read pending) :
    (∀ i < q.keys.length, ∃ rs, (i, .ok (some rs)) ∈ log) ↔ pending = [] := by
  constructor
  · intro hall
    refine eq_nil_iff_forall_not_mem.mpr fun i hi => ?_
    exact ((h.hit i).mp (hall i (h.valid i hi))).2 hi
  · rintro rfl i hi
    exact (h.hit i).mpr ⟨hi, not_mem_nil⟩

theorem mem_pending_iff (h : q.Sound log read pending) (i : Nat) :
    i ∈ pending ↔ i < q.keys.length ∧ ∀ rs, (i, .ok (some rs)) ∉ log := by
  rw [← not_exists, h.hit]
  by_cases hi : i ∈ pending
  · simp [hi, h.valid i hi]
  · simp [hi]

theorem forall₂_read (h : q.Sound log read []) :
    Forall₂ (fun k r => ∃ t < log.length, q.reader t k = .ok (some r)) q.keys read := by
  refine forall₂_iff_get.mpr ⟨h.length.symm, fun i hi hi' => ?_⟩
  obtain ⟨rs, hlog⟩ := h.all_hit_iff.mpr rfl i hi
  obtain ⟨t, ht⟩ := mem_iff_getElem?.mp hlog
  obtain ⟨k, hk, hreader⟩ := h.asked t i _ ht
  obtain ⟨hi, rfl⟩ := List.getElem?_eq_some_iff.mp hk
  obtain ⟨hi', rfl⟩ := List.getElem?_eq_some_iff.mp (h.found i rs hlog)
  exact ⟨t, (List.getElem?_eq_some_iff.mp ht).1, hreader⟩

end Sound

theorem not_allFound {rs : Found β} (hmiss : ∀ r, rs ≠ .ok (some r)) :
    ¬ AllFound [(i, rs)] := by
  intro hall
  obtain ⟨r, hr⟩ := hall _ mem_cons_self
  exact hmiss r hr

theorem allFound_cons {asked : LookupLog β} (rs : β) :
    AllFound ((i, .ok (some rs)) :: asked) ↔ AllFound asked := by
  simp [AllFound]

namespace Retried

theorem nil : Retried [] ([] : LookupLog β) := ⟨⟨[], rfl⟩, nofun, fun _ => rfl⟩

theorem miss {places : List Nat} {rs : Found β} (hmiss : ¬ AllFound [(i, rs)]) :
    Retried (i :: places) [(i, rs)] :=
  ⟨⟨places, rfl⟩, nofun, fun hall => absurd hall hmiss⟩

theorem hit {places : List Nat} {asked : LookupLog β} (h : Retried places asked) (rs : β) :
    Retried (i :: places) ((i, .ok (some rs)) :: asked) where
  order := cons_prefix_cons.mpr ⟨rfl, h.order⟩
  found := by
    cases asked with
    | nil => exact nofun
    | cons x asked => exact (allFound_cons rs).mpr h.found
  through hall := congrArg (i :: ·) (h.through ((allFound_cons rs).mp hall))

end Retried

/-! ## The request -/

/-- The keys from `i` on are looked up for the first time. -/
theorem retain_good (refused : Prop) {rest : List κ} {before : List β}
    (hrest : q.keys.drop i = rest) (hi : before.length = i)
    (h : q.Sound log (before ++ replicate rest.length q.empty) (pending ++ range' i rest.length)) :
    ∃ asked r, q.retain log i rest = (log ++ asked, r) ∧
      (r = .error () ∧ q.Good refused (log ++ asked) (.replied (.error ())) ∨
        ∃ keys' pending' ret, r = .ok (keys', pending', ret) ∧
          asked.map Prod.fst = range' i rest.length ∧
          q.Sound (log ++ asked) (before ++ ret) (pending ++ pending') ∧
          Forall₂ q.Place pending' keys') := by
  induction rest generalizing log i before pending with
  | nil =>
    rw [← append_nil log] at h
    exact ⟨[], _, by rw [append_nil]; rfl, .inr ⟨[], [], [], rfl, rfl, h, .nil⟩⟩
  | cons key rest ih =>
    have hk : q.Place i key := by
      rw [Place, ← Nat.add_zero i, ← getElem?_drop, hrest]
      rfl
    have hrest' : q.keys.drop (i + 1) = rest := by
      rw [← tail_drop, hrest]
      rfl
    rw [length_cons, replicate_succ, range'_succ] at h
    cases hrs : q.reader log.length key with
    | error e =>
      refine ⟨[(i, .error e)], _, by rw [retain, hrs], .inl ⟨rfl, ?_⟩⟩
      exact .failure (h.miss hk hrs nofun) (by simp) (.inl ⟨i, by simp⟩)
    | ok rs =>
      -- one more lookup in the log, whether the key stays pending or not
      cases rs with
      | none =>
        have hmiss := h.miss hk hrs nofun
        rw [append_cons before, append_cons pending] at hmiss
        obtain ⟨asked, r, hr, hcases⟩ := ih hrest' (by simp [hi]) hmiss
        rw [append_assoc, singleton_append] at hr hcases
        refine ⟨(i, .ok none) :: asked, _, by simp only [retain, hrs, hr]; rfl, ?_⟩
        rcases hcases with ⟨rfl, hgood⟩ | ⟨keys', pending', ret, rfl, hasked, hs, hkeys⟩
        · exact .inl ⟨rfl, hgood⟩
        · rw [append_assoc, append_assoc] at hs
          exact .inr ⟨_, _, _, rfl, congrArg (i :: ·) hasked, hs, .cons hk hkeys⟩
      | some rs =>
        have hfound := (h.perm perm_middle).found_pending hk hrs
        rw [set_append_right _ _ (Nat.le_of_eq hi), hi, Nat.sub_self, set_cons_zero,
          append_cons before] at hfound
        obtain ⟨asked, r, hr, hcases⟩ := ih hrest' (by simp [hi]) hfound
        rw [append_assoc, singleton_append] at hr hcases
        refine ⟨(i, .ok (some rs)) :: asked, _, by simp only [retain, hrs, hr]; rfl, ?_⟩
        rcases hcases with ⟨rfl, hgood⟩ | ⟨keys', pending', ret, rfl, hasked, hs, hkeys⟩
        · exact .inl ⟨rfl, hgood⟩
        · rw [append_assoc] at hs
          exact .inr ⟨_, _, _, rfl, congrArg (i :: ·) hasked, hs, hkeys⟩

/-- A request is answered, or waits for the keys that it missed. -/
theorem handle_message_good (q : ReadQuery κ β) (refused : Prop) (now : Nat) :
    ∃ s, q.handle_message now true = some s ∧ q.Good refused s.1 s.2 := by
  have hstart : q.Sound [] ([] ++ replicate q.keys.length q.empty)
      ([] ++ range' 0 q.keys.length) := by
    rw [nil_append, nil_append]
    exact ⟨by simp, by simp, nodup_range', by simp, by simp, by simp⟩
  obtain ⟨asked, r, hr, ⟨rfl, hgood⟩ | ⟨keys, pending, ret, rfl, hasked, hs, hkeys⟩⟩ :=
    retain_good (i := 0) refused drop_zero rfl hstart
  · exact ⟨_, by rw [handle_message, hr], hgood⟩
  · rw [handle_message, hr]
    have hall : range q.keys.length <+: ([] ++ asked).map Prod.fst :=
      ⟨[], by rw [append_nil, nil_append, hasked, range_eq_range']⟩
    cases hkeys with
    | nil => exact ⟨_, rfl, .reply hs hall⟩
    | cons hk hkeys => exact ⟨_, rfl, .wait hs hall (by simp) (.cons hk hkeys)⟩

/-! ## The polls -/

/-- The loop goes on with the keys that it has not found. -/
theorem retry_good (refused : Prop) {keys : List κ} (h : q.Sound log read pending)
    (hkeys : Forall₂ q.Place pending keys) :
    ∃ asked r, q.retry log read pending keys = some (log ++ asked, r) ∧ Retried pending asked ∧
      (r = .error () ∧ ¬ AllFound asked ∧ q.Good refused (log ++ asked) (.replied (.error ())) ∨
        ∃ read' pending' keys', r = .ok (read', pending', keys') ∧
          (pending' = [] ↔ AllFound asked) ∧
          q.Sound (log ++ asked) read' pending' ∧ Forall₂ q.Place pending' keys') := by
  induction hkeys generalizing log read with
  | nil =>
    rw [← append_nil log] at h
    exact ⟨[], _, by rw [append_nil]; rfl, .nil,
      .inr ⟨read, [], [], rfl, by simp [AllFound], h, .nil⟩⟩
  | @cons i k pending keys hk hkeys ih =>
    cases hrs : q.reader log.length k with
    | error e =>
      have hmiss : ¬ AllFound [(i, (.error e : Found β))] := not_allFound nofun
      refine ⟨_, _, by rw [retry, hrs], .miss hmiss, .inl ⟨rfl, hmiss, ?_⟩⟩
      exact .failure (h.miss hk hrs nofun) (by simp) (.inl ⟨i, by simp⟩)
    | ok rs =>
      cases rs with
      | none =>
        have hmiss : ¬ AllFound [(i, (.ok none : Found β))] := not_allFound nofun
        refine ⟨_, _, by rw [retry, hrs], .miss hmiss,
          .inr ⟨_, _, _, rfl, iff_of_false (by simp) hmiss, ?_, .cons hk hkeys⟩⟩
        exact h.miss hk hrs nofun
      | some rs =>
        -- the place is filled, and the loop goes on with one more lookup in the log
        obtain ⟨asked, r, hr, hasked, hcases⟩ := ih (h.found_pending hk hrs)
        rw [append_assoc, singleton_append] at hr hcases
        rw [← allFound_cons (i := i) rs] at hcases
        refine ⟨(i, .ok (some rs)) :: asked, r, ?_, hasked.hit rs, hcases⟩
        rw [retry, hrs]
        simp only [if_pos (h.lt_read mem_cons_self)]
        exact hr

theorem check_good {refused : Prop} {p : Poll} {b : BlockingRead κ β}
    (hrefused : p.triggered = false → refused) (h : q.Sound log b.read b.pending)
    (hall : range q.keys.length <+: log.map Prod.fst) (hkeys : Forall₂ q.Place b.pending b.keys) :
    ∃ asked status, q.check p log b = some (log ++ asked, status) ∧
      Retried b.pending.reverse asked ∧
      ((∃ rs, status = .replied (.ok rs)) ↔ AllFound asked) ∧
      q.Good refused (log ++ asked) status := by
  obtain ⟨asked, r, hr, hasked,
      ⟨rfl, hmiss, hgood⟩ | ⟨read, pending, keys, rfl, hdone, hs, hleft⟩⟩ :=
    retry_good refused (h.perm b.pending.reverse_perm.symm)
      (forall₂_reverse_iff.mpr hkeys)
  · exact ⟨asked, .replied (.error ()), by simp only [check, hr]; rfl, hasked,
      iff_of_false nofun hmiss, hgood⟩
  · simp only [check, hr, Option.bind_eq_bind, Option.bind_some]
    rw [if_neg (not_not_intro hleft.length_eq)]
    have hs' := hs.perm pending.reverse_perm.symm
    have hleft' := forall₂_reverse_iff.mpr hleft
    have hall' : range q.keys.length <+: (log ++ asked).map Prod.fst := by
      rw [map_append]
      exact hall.trans (prefix_append _ _)
    cases hleft with
    | nil =>
      exact ⟨asked, _, rfl, hasked, iff_of_true ⟨_, rfl⟩ (hdone.mp rfl), .reply hs hall'⟩
    | @cons i k pending keys hk hrest =>
      have hne : (i :: pending).reverse ≠ [] := by simp
      have hmiss : ¬ AllFound asked := fun hfound => cons_ne_nil i pending (hdone.mpr hfound)
      rw [isEmpty_cons, if_neg Bool.false_ne_true]
      by_cases hnow : p.now ≤ b.next_trigger
      · exact ⟨asked, _, if_pos hnow, hasked, iff_of_false nofun hmiss,
          .wait hs' hall' hne hleft'⟩
      · rw [if_neg hnow]
        cases htrigger : p.triggered with
        | false =>
          exact ⟨asked, _, rfl, hasked, iff_of_false nofun hmiss,
            .failure hs' hne (.inr (hrefused htrigger))⟩
        | true =>
          exact ⟨asked, _, rfl, hasked, iff_of_false nofun hmiss, .wait hs' hall' hne hleft'⟩

/-- The reads that are reached, whatever is found at the lookups. -/
theorem run_good (q : ReadQuery κ β) (now : Nat) (polls : List Poll) :
    ∃ s, q.run now polls = some s ∧ q.Good (∃ p ∈ polls, p.triggered = false) s.1 s.2 := by
  obtain ⟨s, hs, hgood⟩ := q.handle_message_good (∃ p ∈ polls, p.triggered = false) now
  obtain ⟨s', hrun, hgood'⟩ := foldlM_option_total (f := q.poll) (l := polls)
    (P := fun s => q.Good (∃ p ∈ polls, p.triggered = false) s.1 s.2) (fun s p hp hgood => by
      obtain ⟨log, status⟩ := s
      cases hgood with
      | reply h hall => exact ⟨_, rfl, .reply h hall⟩
      | failure h hne hcause => exact ⟨_, rfl, .failure h hne hcause⟩
      | wait h hall hne hkeys =>
        have hrefused : p.triggered = false → ∃ p ∈ polls, p.triggered = false :=
          fun hp' => ⟨p, hp, hp'⟩
        obtain ⟨asked, status, hcheck, -, -, hgood⟩ := check_good hrefused h hall hkeys
        exact ⟨_, hcheck, hgood⟩) hgood
  exact ⟨s', by rw [run, hs]; exact hrun, hgood'⟩

/-- One more poll of a read that waits. -/
theorem run_snoc {now : Nat} {polls : List Poll} {b : BlockingRead κ β}
    (hrun : q.run now polls = some (log, .waiting b)) (p : Poll) :
    q.run now (polls ++ [p]) = q.check p log b := by
  obtain ⟨s₀, hs₀, hpolls⟩ := Option.bind_eq_some_iff.mp hrun
  rw [run, hs₀, Option.bind_eq_bind, Option.bind_some, foldlM_append, hpolls]
  simp [poll]

/-- **Blocking reads are complete and ordered.** After any polls, whatever
    the reader holds at each lookup: there is a reply exactly if every key has
    been found, and it has for each key what the reader held at one of the
    lookups; until then the keys that have not been found are pending, with
    their places in the reply. The request looks every key up, and a poll the
    pending ones, from the last on, until it misses; when it misses none it
    replies. -/
theorem blocking_read_complete (q : ReadQuery κ β) (now : Nat) (polls : List Poll) :
    ∃ log status, q.run now polls = some (log, status) ∧
      (∀ t i rs, log[t]? = some (i, rs) → ∃ k, q.keys[i]? = some k ∧ q.reader t k = rs) ∧
      ((∃ rs, status = .replied (.ok rs)) ↔
        ∀ i < q.keys.length, ∃ rs, (i, .ok (some rs)) ∈ log) ∧
      (∀ rs, status = .replied (.ok rs) →
        Forall₂ (fun k r => ∃ t < log.length, q.reader t k = .ok (some r)) q.keys rs) ∧
      (status = .replied (.error ()) →
        (∃ i, (i, .error ()) ∈ log) ∨ ∃ p ∈ polls, p.triggered = false) ∧
      (status ≠ .replied (.error ()) → range q.keys.length <+: log.map Prod.fst) ∧
      ∀ b, status = .waiting b →
        Forall₂ (fun i k => q.keys[i]? = some k) b.pending b.keys ∧ b.pending.Nodup ∧
        (∀ i, i ∈ b.pending ↔ i < q.keys.length ∧ ∀ rs, (i, .ok (some rs)) ∉ log) ∧
        ∀ p, ∃ asked status', q.run now (polls ++ [p]) = some (log ++ asked, status') ∧
          Retried b.pending.reverse asked ∧
          ((∃ rs, status' = .replied (.ok rs)) ↔ AllFound asked) := by
  obtain ⟨⟨log, status⟩, hrun, hgood⟩ := q.run_good now polls
  refine ⟨log, status, hrun, ?_⟩
  cases hgood with
  | reply h hall =>
    refine ⟨h.asked, ?_, ?_, nofun, fun _ => hall, nofun⟩
    · exact iff_of_true ⟨_, rfl⟩ (h.all_hit_iff.mpr rfl)
    · rintro rs ⟨⟩
      exact h.forall₂_read
  | failure h hne hcause =>
    refine ⟨h.asked, ?_, nofun, fun _ => hcause, fun hne => absurd rfl hne, nofun⟩
    exact iff_of_false nofun fun hall => hne (h.all_hit_iff.mp hall)
  | wait h hall hne hkeys =>
    refine ⟨h.asked, ?_, nofun, nofun, fun _ => hall, ?_⟩
    · exact iff_of_false nofun fun hall => hne (h.all_hit_iff.mp hall)
    · rintro b ⟨⟩
      refine ⟨hkeys, h.nodup, h.mem_pending_iff, fun p => ?_⟩
      obtain ⟨asked, status', hcheck, hasked, hreply, -⟩ :=
        check_good (fun _ => trivial) h hall hkeys
      exact ⟨asked, status', (run_snoc hrun p).trans hcheck, hasked, hreply⟩

/-- Asked for 7 and twice for 8. The request finds the first 8, and the first
    poll the second 8 but not 7, which is filled only after it. -/
def lateQuery : ReadQuery Nat Nat :=
  ⟨[7, 8, 8], fun t k => .ok (if k = 7 ∧ t < 5 ∨ t = 2 then none else some (10 * k + t)), 0⟩

theorem lateQuery_complete :
    lateQuery.run 3 [⟨4, true⟩, ⟨9, true⟩] =
      some ([(0, .ok none), (1, .ok (some 81)), (2, .ok none), (2, .ok (some 83)), (0, .ok none),
        (0, .ok (some 75))], .replied (.ok [75, 81, 83])) ∧
    Forall₂ (fun k r => ∃ t < 6, lateQuery.reader t k = .ok (some r)) lateQuery.keys
      [75, 81, 83] := by
  obtain ⟨log, status, hrun, -, -, hreply, -⟩ :=
    blocking_read_complete lateQuery 3 [⟨4, true⟩, ⟨9, true⟩]
  have hcode : lateQuery.run 3 [⟨4, true⟩, ⟨9, true⟩] = some ([(0, .ok none), (1, .ok (some 81)),
      (2, .ok none), (2, .ok (some 83)), (0, .ok none), (0, .ok (some 75))],
      .replied (.ok [75, 81, 83])) := rfl
  cases hrun.symm.trans hcode
  exact ⟨hcode, hreply _ rfl⟩

/-! ## Progress -/

/-- When every key is there, each lookup of a poll finds rows. -/
theorem Sound.allFound {asked : LookupLog β} (h : q.Sound (log ++ asked) read pending)
    (hfilled : ∀ t k, log.length ≤ t → k ∈ q.keys → ∃ rs, q.reader t k = .ok (some rs)) :
    AllFound asked := by
  rintro ⟨i, rs⟩ hx
  obtain ⟨t, ht⟩ := mem_iff_getElem?.mp hx
  have hlog : (log ++ asked)[log.length + t]? = some (i, rs) := by
    rw [getElem?_append_right (Nat.le_add_right _ _), Nat.add_sub_cancel_left, ht]
  obtain ⟨k, hk, rfl⟩ := h.asked _ i rs hlog
  exact hfilled _ k (Nat.le_add_right _ _) (mem_of_getElem? hk)

/-- What a reply has at a place whose key was pending, a lookup of the last poll found. -/
theorem Sound.found_since {asked : LookupLog β} {rs : List β} (h : q.Sound (log ++ asked) rs [])
    (hi : i < q.keys.length) (hpending : ∀ r, (i, .ok (some r)) ∉ log) :
    ∃ t k r, log.length ≤ t ∧ t < (log ++ asked).length ∧ q.keys[i]? = some k ∧
      rs[i]? = some r ∧ q.reader t k = .ok (some r) := by
  obtain ⟨r, hr⟩ := h.all_hit_iff.mpr rfl i hi
  obtain ⟨t, ht⟩ := mem_iff_getElem?.mp hr
  obtain ⟨k, hk, hreader⟩ := h.asked t i _ ht
  refine ⟨t, k, r, Nat.le_of_not_lt fun hlt => ?_, (List.getElem?_eq_some_iff.mp ht).1, hk,
    h.found i r hr, hreader⟩
  rw [getElem?_append_left hlt] at ht
  exact hpending r (mem_of_getElem? ht)

/-- **A poll of a read whose keys are all there replies**, however often
    keys were missed, filled and evicted before. The reply has one batch for
    each key, found by this poll where the key was still pending. -/
theorem filled_read_replies {now : Nat} {polls : List Poll} {b : BlockingRead κ β}
    (hrun : q.run now polls = some (log, .waiting b))
    (hfilled : ∀ t k, log.length ≤ t → k ∈ q.keys → ∃ rs, q.reader t k = .ok (some rs))
    (p : Poll) :
    ∃ asked rs, q.run now (polls ++ [p]) = some (log ++ asked, .replied (.ok rs)) ∧
      rs.length = q.keys.length ∧
      Forall₂ (fun k r => ∃ t < (log ++ asked).length, q.reader t k = .ok (some r)) q.keys rs ∧
      ∀ i ∈ b.pending, ∃ t k r, log.length ≤ t ∧ t < (log ++ asked).length ∧
        q.keys[i]? = some k ∧ rs[i]? = some r ∧ q.reader t k = .ok (some r) := by
  obtain ⟨s, hs, hgood⟩ := q.run_good now polls
  obtain rfl := Option.some.inj (hs.symm.trans hrun)
  cases hgood with
  | wait h hall hne hkeys =>
    obtain ⟨asked, status, hcheck, -, hreply, hgood⟩ :=
      check_good (p := p) (fun _ => trivial) h hall hkeys
    have hfound : AllFound asked := by
      cases hgood with
      | reply h => exact h.allFound hfilled
      | failure h => exact h.allFound hfilled
      | wait h => exact h.allFound hfilled
    obtain ⟨rs, rfl⟩ := hreply.mpr hfound
    cases hgood with
    | reply h' =>
      refine ⟨asked, rs, (run_snoc hrun p).trans hcheck, h'.length, h'.forall₂_read, ?_⟩
      intro i hi
      exact h'.found_since (h.valid i hi) ((h.mem_pending_iff i).mp hi).2

theorem lateQuery_replies :
    ∃ asked rs, lateQuery.run 3 ([⟨4, true⟩] ++ [⟨9, true⟩]) =
        some ([(0, .ok none), (1, .ok (some 81)), (2, .ok none), (2, .ok (some 83)),
          (0, .ok none)] ++ asked, .replied (.ok rs)) ∧ rs.length = 3 := by
  have hrun : lateQuery.run 3 [⟨4, true⟩] =
      some ([(0, .ok none), (1, .ok (some 81)), (2, .ok none), (2, .ok (some 83)), (0, .ok none)],
        .waiting ⟨[0, 81, 83], [7], [0], 40, 44⟩) := rfl
  have hfilled : ∀ t k, 5 ≤ t → k ∈ lateQuery.keys →
      ∃ rs, lateQuery.reader t k = .ok (some rs) := by
    intro t k ht _
    have hlate : ¬ (k = 7 ∧ t < 5 ∨ t = 2) := by omega
    exact ⟨10 * k + t, by simp [lateQuery, hlate]⟩
  obtain ⟨asked, rs, hreply, hlength, -, -⟩ := filled_read_replies hrun hfilled ⟨9, true⟩
  exact ⟨asked, rs, hreply, hlength⟩

end ReadQuery

end Noria.Server

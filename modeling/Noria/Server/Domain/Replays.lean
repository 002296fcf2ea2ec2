import Noria.Framework.Ledger
import Noria.Framework.Machine
import Noria.Server.State

/-! # Replay requests to other domains

  What is missing in a domain is asked for from the domains that have it, one request for each
  replay path into the node that misses it. Only so many requests may be under way at a time
  (`max_concurrent_replays`); the others wait in a queue and are sent, one for each tag, when an
  answer has made room (`domain/mod.rs`, `find_tags_and_replay`, `request_partial_replay`,
  `finished_partial_replay`).

  Keys are only passed on here, so their type is left open. A failed assertion or an `unreachable!`
  is `none`; debug assertions fail only if `debug_assertions` says so.
-/

namespace Noria.Server

open List

/-! ## Replay paths -/

/-- How the replays along a path are triggered. -/
inductive TriggerEndpoint (κ : Type) where
  | none
  | start
  /-- By a request to another domain with some shards (`End`). If the
      source is sharded by the key, a key is asked for from its shard. -/
  | endpoint (options : Nat) (key_shard : Option (κ → Fin options))
  | localSource

namespace TriggerEndpoint

variable {κ : Type}

def isEnd : TriggerEndpoint κ → Bool
  | .endpoint _ _ => true
  | _ => false

def isLocal : TriggerEndpoint κ → Bool
  | .localSource => true
  | _ => false

end TriggerEndpoint

/-- A replay path, with the node and the key at its end. -/
structure ReplayPath (κ : Type) where
  trigger : TriggerEndpoint κ
  node : Nat
  partial_key : Option (List Nat)

/-- The replay paths of a domain, by tag and by destination. -/
structure ReplayPaths (κ : Type) where
  replay_paths : Tag → Option (ReplayPath κ)
  replay_paths_by_dst : Nat → List Nat → List Tag
  /-- The paths that this domain triggers are listed at their ends. -/
  listed : ∀ node cols tag, tag ∈ replay_paths_by_dst node cols ↔
    ∃ p, replay_paths tag = some p ∧ (p.trigger.isEnd || p.trigger.isLocal) = true ∧
      p.node = node ∧ p.partial_key = some cols
  nodup : ∀ node cols, (replay_paths_by_dst node cols).Nodup
  /-- They are for a key. -/
  keyed : ∀ tag p, replay_paths tag = some p →
    (p.trigger.isEnd || p.trigger.isLocal) = true → p.partial_key.isSome = true

namespace ReplayPaths

variable {κ : Type}

def empty : ReplayPaths κ where
  replay_paths _ := none
  replay_paths_by_dst _ _ := []
  listed node cols tag := by simp
  nodup _ _ := .nil
  keyed _ _ h := by cases h

/-- `SetupReplayPath`: a new path that this domain triggers. -/
def setup (ps : ReplayPaths κ) (tag : Tag) (trigger : TriggerEndpoint κ) (node : Nat)
    (partial_key : List Nat) (htrigger : (trigger.isEnd || trigger.isLocal) = true)
    (hnew : ps.replay_paths tag = none) : ReplayPaths κ where
  replay_paths t := if t = tag then some ⟨trigger, node, some partial_key⟩ else ps.replay_paths t
  replay_paths_by_dst n cols :=
    if n = node ∧ cols = partial_key then ps.replay_paths_by_dst n cols ++ [tag]
    else ps.replay_paths_by_dst n cols
  listed n cols t := by
    have hold := ps.listed n cols t
    by_cases ht : t = tag
    · subst ht
      -- the new tag has not been listed before
      rw [hnew] at hold
      have hnot : t ∉ ps.replay_paths_by_dst n cols := by simp [hold]
      by_cases hd : n = node ∧ cols = partial_key
      · rw [if_pos hd]
        exact iff_of_true (List.mem_append_right _ List.mem_cons_self)
          ⟨_, if_pos rfl, htrigger, hd.1.symm, by rw [hd.2]⟩
      · rw [if_neg hd]
        refine iff_of_false hnot ?_
        rintro ⟨p, hp, -, hnode, hkey⟩
        rw [if_pos rfl, Option.some.injEq] at hp
        subst hp
        exact hd ⟨hnode.symm, (Option.some.inj hkey).symm⟩
    · rw [if_neg ht, ← hold]
      by_cases hd : n = node ∧ cols = partial_key
      · simp [hd, ht]
      · rw [if_neg hd]
  nodup n cols := by
    have hnot : tag ∉ ps.replay_paths_by_dst n cols := by
      rw [ps.listed, hnew]
      rintro ⟨p, hp, -⟩
      cases hp
    split
    · exact (ps.nodup n cols).append (List.nodup_singleton tag)
        (List.disjoint_singleton.mpr hnot)
    · exact ps.nodup n cols
  keyed t p hp := by
    split at hp
    · cases hp
      exact fun _ => rfl
    · exact ps.keyed t p hp

/-- Is the tag one of another domain's paths? -/
def isEnd (ps : ReplayPaths κ) (tag : Tag) : Bool :=
  match ps.replay_paths tag with
  | some p => p.trigger.isEnd
  | none => false

end ReplayPaths

/-! ## Requests -/

/-- The part of a domain that keeps track of its requests. -/
structure Replays (κ : Type) where
  concurrent_replays : Nat
  max_concurrent_replays : Nat
  replay_request_queue : List (Tag × List κ)

/-- A request for some keys along a path. -/
structure Request (κ : Type) where
  tag : Tag
  keys : List κ
  /-- The shards it goes to, with the keys for each and the `unishard` mark. -/
  messages : List (Nat × List κ × Bool)

/-- What comes out of asking for keys. -/
inductive Asked (κ : Type) where
  | sent (r : Request κ)
  | delayed (tag : Tag) (keys : List κ)

/-- What happens to the requests of a domain. -/
inductive ReplayEvent (κ : Type) where
  /-- Some keys are missing in a node (`find_tags_and_replay`). -/
  | request (miss_keys : List κ) (miss_columns : List Nat) (miss_in : Nat)
  /-- The replay of some keys has finished (`finished_partial_replay`). -/
  | finish (tag : Tag) (keys : List κ)

namespace Replays

theorem endpoint_triggered : ((TriggerEndpoint.endpoint 1 none : TriggerEndpoint Nat).isEnd ||
    (TriggerEndpoint.endpoint 1 none : TriggerEndpoint Nat).isLocal) = true := rfl

/-- A node that is filled from another domain, along one path. -/
def remote : ReplayPaths Nat :=
  ReplayPaths.empty.setup 0 (.endpoint 1 none) 5 [0] endpoint_triggered rfl

variable {κ : Type}

def messages (options : Nat) (key_shard : Option (κ → Fin options)) (keys : List κ) :
    List (Nat × List κ × Bool) :=
  match key_shard with
  | none =>
    -- the source is sharded by a different key, so we need to trigger on all the shards
    if options ≠ 1 then (List.range options).map fun i => (i, keys, false)
    else [(0, keys, true)]
  | some shard =>
    if options = 1 then [(0, keys, true)]
    else
      let shards := keys.foldl (fun (shards : AssocMap Nat (List κ)) key =>
        shards.insert (shard key) ((shards.get? (shard key)).getD [] ++ [key])) ∅
      shards.entries.map fun e => (e.1, e.2, true)

section Requests

variable (debug_assertions : Bool) (ps : ReplayPaths κ)

def send_partial_replay_request (s : Replays κ) (tag : Tag) (keys : List κ) :
    Option (Request κ × Replays κ) :=
  if debug_assertions && !(s.concurrent_replays < s.max_concurrent_replays) then none
  else
    match (ps.replay_paths tag).map ReplayPath.trigger with
    | some (.endpoint options key_shard) =>
      some (⟨tag, keys, messages options key_shard keys⟩,
        { s with concurrent_replays := s.concurrent_replays + 1 })
    | _ => none

def request_partial_replay (s : Replays κ) (tag : Tag) (keys : List κ) :
    Option (List (Asked κ) × Replays κ) :=
  if s.concurrent_replays < s.max_concurrent_replays then
    if s.replay_request_queue.length = 0 then
      (s.send_partial_replay_request debug_assertions ps tag keys).map
        fun r => ([.sent r.1], r.2)
    else none
  else
    some ([], { s with replay_request_queue := s.replay_request_queue ++ [(tag, keys)] })

def ask (s : Replays κ) (tag : Tag) (keys : List κ) : Option (List (Asked κ) × Replays κ) :=
  match (ps.replay_paths tag).map ReplayPath.trigger with
  | none => none
  | some .localSource => some ([.delayed tag keys], s)
  | some _ => s.request_partial_replay debug_assertions ps tag keys

def askAll (s : Replays κ) (keys : List κ) : List Tag → Option (List (Asked κ) × Replays κ)
  | [] => some ([], s)
  | tag :: tags => do
    let res ← s.ask debug_assertions ps tag keys
    let res' ← res.2.askAll keys tags
    some (res.1 ++ res'.1, res'.2)

def find_tags_and_replay (s : Replays κ) (miss_keys : List κ) (miss_columns : List Nat)
    (miss_in : Nat) : Option (List (Asked κ) × Replays κ) :=
  let tags := ps.replay_paths_by_dst miss_in miss_columns
  -- "no tag found to fill missing value"
  if tags.isEmpty then none else s.askAll debug_assertions ps miss_keys tags

/-! ## Answers -/

/-- How many requests the replay of `num` keys along a path satisfies. -/
def requests_satisfied (tag : Tag) (num : Nat) : Option Nat := do
  let p ← ps.replay_paths tag
  let cols ← p.partial_key
  some (((ps.replay_paths_by_dst p.node cols).filter ps.isEnd).length * num)

/-- Take requests from the queue as long as there is room, by tag. -/
def release (room : Bool) (per_tag : AssocMap Tag (List κ)) :
    List (Tag × List κ) → AssocMap Tag (List κ) × List (Tag × List κ)
  | [] => (per_tag, [])
  | r :: queue =>
    if room then
      release room (per_tag.insert r.1 ((per_tag.get? r.1).getD [] ++ r.2)) queue
    else (per_tag, r :: queue)

def sendAll (s : Replays κ) : List (Tag × List κ) → Option (List (Asked κ) × Replays κ)
  | [] => some ([], s)
  | r :: rest => do
    let res ← s.send_partial_replay_request debug_assertions ps r.1 r.2
    let res' ← res.2.sendAll rest
    some (.sent res.1 :: res'.1, res'.2)

def finished_partial_replay (s : Replays κ) (tag : Tag) (num : Nat) :
    Option (List (Asked κ) × Replays κ) :=
  match (ps.replay_paths tag).map ReplayPath.trigger with
  | some (.endpoint _ _) => do
    let satisfied ← requests_satisfied ps tag num
    -- `saturating_sub`
    let concurrent_replays := s.concurrent_replays - satisfied
    let room : Bool := concurrent_replays < s.max_concurrent_replays
    if debug_assertions && !room then none
    else
      -- nothing is sent before all has been taken, so there is room all the time
      let released := release room ∅ s.replay_request_queue
      sendAll debug_assertions ps
        { s with concurrent_replays, replay_request_queue := released.2 } released.1.entries
  | some .localSource => some ([], s)
  | _ => none

def machine : Machine (Replays κ) (ReplayEvent κ) (List (Asked κ)) := fun s e =>
  match e with
  | .request miss_keys miss_columns miss_in =>
    s.find_tags_and_replay debug_assertions ps miss_keys miss_columns miss_in
  | .finish tag keys => s.finished_partial_replay debug_assertions ps tag keys.length

end Requests

def new (max_concurrent_replays : Nat) : Replays κ := ⟨0, max_concurrent_replays, []⟩

def sent : List (Asked κ) → Ledger Tag κ
  | [] => []
  | .sent r :: rest => (r.tag, r.keys) :: sent rest
  | .delayed _ _ :: rest => sent rest

/-! ## What asking does -/

section Spec

variable {debug : Bool} {ps : ReplayPaths κ} {s : Replays κ} {tag : Tag} {keys : List κ}

theorem path_of_isEnd (h : ps.isEnd tag = true) : ∃ p cols, ps.replay_paths tag = some p ∧
    p.trigger.isEnd = true ∧ p.partial_key = some cols := by
  unfold ReplayPaths.isEnd at h
  cases hp : ps.replay_paths tag with
  | none =>
    rw [hp] at h
    cases h
  | some p =>
    replace h : p.trigger.isEnd = true := by rwa [hp] at h
    obtain ⟨cols, hcols⟩ := Option.isSome_iff_exists.mp (ps.keyed tag p hp (by rw [h]; rfl))
    exact ⟨p, cols, rfl, h, hcols⟩

theorem trigger_of_isEnd (h : ps.isEnd tag = true) : ∃ options key_shard,
    (ps.replay_paths tag).map ReplayPath.trigger = some (.endpoint options key_shard) := by
  obtain ⟨⟨trigger, node, partial_key⟩, cols, hp, hend, -⟩ := path_of_isEnd h
  rw [hp]
  cases trigger with
  | endpoint options key_shard => exact ⟨options, key_shard, rfl⟩
  | none => cases hend
  | start => cases hend
  | localSource => cases hend

theorem send_eq (debug : Bool) (s : Replays κ) (keys : List κ)
    (hend : ps.isEnd tag = true)
    (hroom : debug = true → s.concurrent_replays < s.max_concurrent_replays) :
    ∃ r : Request κ, (r.tag, r.keys) = (tag, keys) ∧
      s.send_partial_replay_request debug ps tag keys =
        some (r, { s with concurrent_replays := s.concurrent_replays + 1 }) := by
  obtain ⟨options, key_shard, htrigger⟩ := trigger_of_isEnd hend
  refine ⟨⟨tag, keys, messages options key_shard keys⟩, rfl, ?_⟩
  unfold send_partial_replay_request
  rw [htrigger, if_neg]
  cases debug with
  | false => exact Bool.false_ne_true
  | true => simp [hroom rfl]

/-- A path along which the domain asks for keys. -/
def Triggered (ps : ReplayPaths κ) (tag : Tag) : Prop :=
  ps.isEnd tag = true ∨
    (ps.replay_paths tag).map ReplayPath.trigger = some .localSource ∧ ps.isEnd tag = false

theorem triggered_of_mem {node : Nat} {cols : List Nat}
    (h : tag ∈ ps.replay_paths_by_dst node cols) : Triggered ps tag := by
  obtain ⟨p, hp, htrigger, -⟩ := (ps.listed node cols tag).mp h
  unfold Triggered ReplayPaths.isEnd
  rw [hp]
  obtain ⟨trigger, node, partial_key⟩ := p
  cases trigger with
  | endpoint options key_shard => exact .inl rfl
  | localSource => exact .inr ⟨rfl, rfl⟩
  | none => cases htrigger
  | start => cases htrigger

/-- The paths to other domains for which there is room. -/
def now (ps : ReplayPaths κ) (s : Replays κ) (tags : List Tag) : List Tag :=
  (tags.filter ps.isEnd).take (s.max_concurrent_replays - s.concurrent_replays)

/-- The paths to other domains for which there is no room. -/
def later (ps : ReplayPaths κ) (s : Replays κ) (tags : List Tag) : List Tag :=
  (tags.filter ps.isEnd).drop (s.max_concurrent_replays - s.concurrent_replays)

theorem length_now_le (ps : ReplayPaths κ) (s : Replays κ) (tags : List Tag) :
    (now ps s tags).length ≤ s.max_concurrent_replays - s.concurrent_replays :=
  length_take_le _ _

theorem later_eq_nil {s : Replays κ} {tags : List Tag}
    (h : s.concurrent_replays + (now ps s tags).length < s.max_concurrent_replays) :
    later ps s tags = [] := by
  unfold now at h
  rw [length_take] at h
  exact drop_eq_nil_of_le (by omega)

theorem now_append_later (ps : ReplayPaths κ) (s : Replays κ) (tags : List Tag) :
    now ps s tags ++ later ps s tags = tags.filter ps.isEnd := take_append_drop _ _

/-- **Asking along some paths.** The requests to other domains are sent as
    long as there is room, and queued from then on. -/
theorem askAll_eq (debug : Bool) (keys : List κ) {tags : List Tag}
    (htags : ∀ tag ∈ tags, Triggered ps tag)
    (hqueue : s.concurrent_replays < s.max_concurrent_replays → s.replay_request_queue = []) :
    ∃ acts, s.askAll debug ps keys tags =
        some (acts, ⟨s.concurrent_replays + (now ps s tags).length, s.max_concurrent_replays,
          s.replay_request_queue ++ (later ps s tags).map fun tag => (tag, keys)⟩) ∧
      sent acts = (now ps s tags).map fun tag => (tag, keys) := by
  induction tags generalizing s with
  | nil => exact ⟨[], by simp [askAll, now, later], by simp [sent, now]⟩
  | cons tag tags ih =>
    have htags' : ∀ tag' ∈ tags, Triggered ps tag' := (forall_mem_cons.mp htags).2
    unfold askAll
    rcases htags tag mem_cons_self with hend | ⟨htrigger, hend⟩
    · obtain ⟨options, key_shard, htrigger⟩ := trigger_of_isEnd hend
      have hask : s.ask debug ps tag keys =
          s.request_partial_replay debug ps tag keys := by
        unfold ask
        rw [htrigger]
      unfold request_partial_replay at hask
      unfold now later
      rw [filter_cons_of_pos hend]
      by_cases hroom : s.concurrent_replays < s.max_concurrent_replays
      · -- sent: there is room for one request less
        obtain ⟨r, hr, hsend⟩ := send_eq debug s keys hend fun _ => hroom
        obtain ⟨acts, hrun, hsent⟩ := ih
          (s := { s with concurrent_replays := s.concurrent_replays + 1 }) htags'
          (fun _ => hqueue hroom)
        have hslots : s.max_concurrent_replays - s.concurrent_replays =
            (s.max_concurrent_replays - (s.concurrent_replays + 1)) + 1 := by omega
        rw [if_pos hroom, if_pos (by rw [hqueue hroom]; rfl), hsend] at hask
        refine ⟨.sent r :: acts, ?_, ?_⟩
        · rw [hask]
          simp only [Option.map_some, Option.bind_eq_bind, Option.bind_some, hrun, now, later]
          rw [hslots, take_succ_cons, drop_succ_cons, length_cons,
            Nat.add_assoc, Nat.add_comm 1]
          rfl
        · rw [sent, hsent, hr, hslots]
          rfl
      · -- queued: there is no room for the others either
        obtain ⟨acts, hrun, hsent⟩ := ih
          (s := { s with replay_request_queue := s.replay_request_queue ++ [(tag, keys)] }) htags'
          (fun h => absurd h hroom)
        have hslots : s.max_concurrent_replays - s.concurrent_replays = 0 := by omega
        rw [if_neg hroom] at hask
        simp only [now, later, hslots, take_zero, drop_zero] at hrun hsent ⊢
        refine ⟨acts, ?_, hsent⟩
        rw [hask]
        simp only [Option.bind_eq_bind, Option.bind_some, hrun, append_assoc,
          map_cons, singleton_append, nil_append]
    · have hask : s.ask debug ps tag keys = some ([.delayed tag keys], s) := by
        unfold ask
        rw [htrigger]
      obtain ⟨acts, hrun, hsent⟩ := ih htags' hqueue
      simp only [now, later] at hrun hsent ⊢
      rw [filter_cons_of_neg (by rw [hend]; exact Bool.false_ne_true)]
      refine ⟨.delayed tag keys :: acts, ?_, hsent⟩
      rw [hask]
      simp only [Option.bind_eq_bind, Option.bind_some, hrun]
      rfl

theorem sendAll_eq (s : Replays κ) {l : List (Tag × List κ)} (hend : ∀ r ∈ l, ps.isEnd r.1 = true)
    (hroom : debug = true →
      s.concurrent_replays + l.length ≤ s.max_concurrent_replays) :
    ∃ acts, s.sendAll debug ps l =
        some (acts, { s with concurrent_replays := s.concurrent_replays + l.length }) ∧
      sent acts = l := by
  induction l generalizing s with
  | nil => exact ⟨[], rfl, rfl⟩
  | cons r l ih =>
    rw [length_cons] at hroom
    obtain ⟨r', hr', hsend⟩ := send_eq debug s r.2 (hend r mem_cons_self)
      fun h => by have := hroom h; omega
    obtain ⟨acts, hrun, hsent⟩ := ih { s with concurrent_replays := s.concurrent_replays + 1 }
      (forall_mem_cons.mp hend).2 fun h => by have := hroom h; simp only; omega
    refine ⟨.sent r' :: acts, ?_, ?_⟩
    · unfold sendAll
      simp only [hsend, hrun, Option.bind_eq_bind, Option.bind_some, length_cons,
        Nat.add_assoc, Nat.add_comm 1]
    · rw [sent, hsent, hr']

theorem release_false (per_tag : AssocMap Tag (List κ)) (queue : List (Tag × List κ)) :
    release false per_tag queue = (per_tag, queue) := by
  cases queue <;> rfl

theorem release_queue (per_tag : AssocMap Tag (List κ)) (queue : List (Tag × List κ)) :
    (release true per_tag queue).2 = [] := by
  induction queue generalizing per_tag with
  | nil => rfl
  | cons r queue ih => exact ih _

theorem pairs_insert (per_tag : AssocMap Tag (List κ)) (tag : Tag) (keys : List κ) :
    (Ledger.pairs (per_tag.insert tag ((per_tag.get? tag).getD [] ++ keys)).entries).Perm
      (Ledger.pairs per_tag.entries ++ keys.map fun k => (tag, k)) := by
  cases hget : per_tag.get? tag with
  | none =>
    rw [AssocMap.entries_insert, hget, Ledger.pairs_append]
    simp [Ledger.pairs]
  | some old =>
    obtain ⟨tag₀, rest, htag₀, -, hperm, hins, -⟩ := per_tag.exists_split hget
    have heq : tag₀ = tag := eq_of_beq htag₀
    subst heq
    refine ((hins (old ++ keys)).flatMap_right _).trans ?_
    refine .trans ?_ ((hperm.flatMap_right _).append_right _).symm
    simp only [flatMap_cons, map_append, append_assoc]
    exact (perm_append_comm).append_left _

/-- **All that is queued is released**, batched by tag. -/
theorem release_pairs (per_tag : AssocMap Tag (List κ)) (queue : List (Tag × List κ)) :
    (Ledger.pairs (release true per_tag queue).1.entries).Perm
      (Ledger.pairs per_tag.entries ++ Ledger.pairs queue) := by
  induction queue generalizing per_tag with
  | nil =>
    rw [Ledger.pairs_nil, append_nil]
    exact .refl _
  | cons r queue ih =>
    refine (ih _).trans ?_
    rw [Ledger.pairs_cons, ← append_assoc]
    exact (pairs_insert per_tag r.1 r.2).append_right _

theorem release_mem {P : Tag × List κ → Prop}
    (hP : ∀ tag keys keys', P (tag, keys) → P (tag, keys') → P (tag, keys ++ keys'))
    {per_tag : AssocMap Tag (List κ)} {queue : List (Tag × List κ)}
    (hold : ∀ r ∈ per_tag.entries, P r) (hqueue : ∀ r ∈ queue, P r) :
    ∀ r ∈ (release true per_tag queue).1.entries, P r := by
  induction queue generalizing per_tag with
  | nil => exact hold
  | cons r queue ih =>
    refine ih (fun e he => ?_) (forall_mem_cons.mp hqueue).2
    have hr := hqueue r mem_cons_self
    rw [AssocMap.entries_insert] at he
    cases hget : per_tag.get? r.1 with
    | none =>
      simp only [hget, mem_append, mem_singleton] at he
      rcases he with he | rfl
      · exact hold e he
      · exact hr
    | some old =>
      simp only [hget, AssocMap.replaceIn, mem_map] at he
      obtain ⟨e₀, he₀, rfl⟩ := he
      split
      · next htag =>
        obtain ⟨tag₀, htag₀, hmem⟩ := per_tag.mem_of_get? hget
        have hP₀ := hold _ hmem
        rw [eq_of_beq htag₀] at hP₀
        rw [eq_of_beq htag]
        exact hP _ _ _ hP₀ hr
      · exact hold e₀ he₀

theorem release_distinct (per_tag : AssocMap Tag (List κ)) {queue : List (Tag × List κ)}
    (hnodup : (per_tag.entries.map Prod.fst ++ queue.map Prod.fst).Nodup) :
    (release true per_tag queue).1.entries = per_tag.entries ++ queue := by
  induction queue generalizing per_tag with
  | nil => exact (append_nil _).symm
  | cons r queue ih =>
    have hnone : per_tag.get? r.1 = none := by
      cases hget : per_tag.get? r.1 with
      | none => rfl
      | some old =>
        obtain ⟨tag₀, htag₀, hmem⟩ := per_tag.mem_of_get? hget
        have hdisjoint := (nodup_append.mp hnodup).2.2
        exact absurd (eq_of_beq htag₀) (hdisjoint tag₀ (mem_map_of_mem hmem) r.1
          mem_cons_self)
    have hentries : (per_tag.insert r.1 ((per_tag.get? r.1).getD [] ++ r.2)).entries =
        per_tag.entries ++ [r] := by
      rw [AssocMap.entries_insert, hnone]
      rfl
    show (release true (per_tag.insert r.1 _) queue).1.entries = _
    rw [ih, hentries, append_assoc]
    · rfl
    · rw [hentries, map_append, append_assoc]
      exact hnodup

/-- The paths to the same destination as a path. -/
def siblings (ps : ReplayPaths κ) (tag : Tag) : List Tag :=
  match ps.replay_paths tag with
  | some p => ps.replay_paths_by_dst p.node (p.partial_key.getD [])
  | none => []

/-- How many requests the replay of a key satisfies. -/
def paths_to (ps : ReplayPaths κ) (tag : Tag) : Nat := ((siblings ps tag).filter ps.isEnd).length

theorem satisfied_eq (hend : ps.isEnd tag = true) (num : Nat) :
    requests_satisfied ps tag num = some (paths_to ps tag * num) := by
  obtain ⟨p, cols, hp, -, hcols⟩ := path_of_isEnd hend
  simp only [requests_satisfied, paths_to, siblings, hp, hcols, Option.bind_eq_bind,
    Option.bind_some, Option.getD_some]

theorem mem_siblings (hend : ps.isEnd tag = true) : tag ∈ siblings ps tag := by
  obtain ⟨p, cols, hp, htrigger, hcols⟩ := path_of_isEnd hend
  simp only [siblings, hp, hcols, Option.getD_some]
  exact (ps.listed _ _ tag).mpr ⟨p, hp, by rw [htrigger]; rfl, rfl, hcols⟩

theorem paths_to_pos (hend : ps.isEnd tag = true) : 0 < paths_to ps tag :=
  length_pos_of_mem (mem_filter.mpr ⟨mem_siblings hend, hend⟩)

theorem nodup_siblings (ps : ReplayPaths κ) (tag : Tag) : (siblings ps tag).Nodup := by
  unfold siblings
  split
  · exact ps.nodup _ _
  · exact .nil

/-- **An answer that makes room** releases the whole queue. -/
theorem finished_room (debug : Bool) (num : Nat) (hend : ps.isEnd tag = true)
    (hroom : s.concurrent_replays - paths_to ps tag * num < s.max_concurrent_replays)
    (hqueue : ∀ r ∈ s.replay_request_queue, ps.isEnd r.1 = true)
    (hdebug : debug = true → s.concurrent_replays - paths_to ps tag * num +
      (release true ∅ s.replay_request_queue).1.entries.length ≤ s.max_concurrent_replays) :
    ∃ acts, s.finished_partial_replay debug ps tag num =
        some (acts, ⟨s.concurrent_replays - paths_to ps tag * num +
            (release true ∅ s.replay_request_queue).1.entries.length,
          s.max_concurrent_replays, []⟩) ∧
      sent acts = (release true ∅ s.replay_request_queue).1.entries := by
  obtain ⟨options, key_shard, htrigger⟩ := trigger_of_isEnd hend
  have hends : ∀ r ∈ (release true ∅ s.replay_request_queue).1.entries, ps.isEnd r.1 = true :=
    release_mem (P := fun r => ps.isEnd r.1 = true) (fun _ _ _ h _ => h)
      (fun r hr => by cases hr) hqueue
  obtain ⟨acts, hrun, hsent⟩ := sendAll_eq
    (⟨s.concurrent_replays - paths_to ps tag * num, s.max_concurrent_replays, []⟩ : Replays κ)
    hends hdebug
  refine ⟨acts, ?_, hsent⟩
  unfold finished_partial_replay
  rw [htrigger]
  simp only [satisfied_eq hend, Option.bind_eq_bind, Option.bind_some, decide_eq_true hroom,
    Bool.not_true, Bool.and_false, Bool.false_eq_true, if_false, release_queue]
  exact hrun

/-- An answer that does not make room, in a release build. -/
theorem finished_full (hend : ps.isEnd tag = true) {num : Nat}
    (hroom : ¬s.concurrent_replays - paths_to ps tag * num < s.max_concurrent_replays) :
    s.finished_partial_replay false ps tag num =
      some ([], { s with concurrent_replays := s.concurrent_replays - paths_to ps tag * num }) := by
  obtain ⟨options, key_shard, htrigger⟩ := trigger_of_isEnd hend
  unfold finished_partial_replay
  rw [htrigger]
  simp only [satisfied_eq hend, Option.bind_eq_bind, Option.bind_some, decide_eq_false hroom,
    Bool.false_and, Bool.false_eq_true, if_false, release_false]
  rfl

end Spec

/-! ## The open requests -/

variable [DecidableEq κ]

/-- The requests that have been sent and not been answered in full. -/
def settle (ps : ReplayPaths κ) (l : Ledger Tag κ) : ReplayEvent κ → Ledger Tag κ
  | .request _ _ _ => l
  | .finish tag keys => l.close (siblings ps tag) keys

/-- The machine together with the open requests. -/
def tracked (debug : Bool) (ps : ReplayPaths κ) :
    Machine (Replays κ × Ledger Tag κ) (ReplayEvent κ) (List (Asked κ)) := fun st e => do
  let res ← machine debug ps st.1 e
  some (res.1, res.2, settle ps st.2 e ++ sent res.1)

section Tracked

variable {ps : ReplayPaths κ} {tag : Tag}

/-- **Asking for keys.** The open requests grow by what is sent, and the queue by the rest. -/
theorem tracked_request (debug : Bool) (st : Replays κ × Ledger Tag κ) (keys : List κ)
    {cols : List Nat} {node : Nat} (hne : ps.replay_paths_by_dst node cols ≠ [])
    (hqueue : st.1.concurrent_replays < st.1.max_concurrent_replays →
      st.1.replay_request_queue = []) :
    ∃ acts, tracked debug ps st (.request keys cols node) = some (acts,
      ⟨st.1.concurrent_replays + (now ps st.1 (ps.replay_paths_by_dst node cols)).length,
        st.1.max_concurrent_replays, st.1.replay_request_queue ++
          (later ps st.1 (ps.replay_paths_by_dst node cols)).map fun tag => (tag, keys)⟩,
      st.2 ++ (now ps st.1 (ps.replay_paths_by_dst node cols)).map fun tag => (tag, keys)) := by
  obtain ⟨acts, hrun, hsent⟩ := askAll_eq debug keys
    (fun tag (htag : tag ∈ ps.replay_paths_by_dst node cols) => triggered_of_mem htag) hqueue
  refine ⟨acts, ?_⟩
  have hempty : (ps.replay_paths_by_dst node cols).isEmpty = false := by
    rw [isEmpty_eq_false_iff]
    exact hne
  unfold tracked machine find_tags_and_replay
  simp only [hempty, Bool.false_eq_true, if_false, hrun, Option.bind_eq_bind, Option.bind_some,
    hsent]
  rfl

/-- **An answer that makes room.** What it answers is closed, and the queue is sent. -/
theorem tracked_finish_room (debug : Bool) (st : Replays κ × Ledger Tag κ)
    (keys : List κ) (hend : ps.isEnd tag = true)
    (hroom : st.1.concurrent_replays - paths_to ps tag * keys.length <
      st.1.max_concurrent_replays)
    (hqueue : ∀ r ∈ st.1.replay_request_queue, ps.isEnd r.1 = true)
    (hdebug : debug = true → st.1.concurrent_replays -
      paths_to ps tag * keys.length +
        (release true ∅ st.1.replay_request_queue).1.entries.length ≤
      st.1.max_concurrent_replays) :
    ∃ acts, tracked debug ps st (.finish tag keys) = some (acts,
      ⟨st.1.concurrent_replays - paths_to ps tag * keys.length +
          (release true ∅ st.1.replay_request_queue).1.entries.length,
        st.1.max_concurrent_replays, []⟩,
      st.2.close (siblings ps tag) keys ++
        (release true ∅ st.1.replay_request_queue).1.entries) := by
  obtain ⟨acts, hrun, hsent⟩ := finished_room debug keys.length hend hroom hqueue hdebug
  refine ⟨acts, ?_⟩
  unfold tracked machine
  simp only [hrun, hsent, Option.bind_eq_bind, Option.bind_some]
  rfl

/-- **An answer that does not make room**, in a release build. -/
theorem tracked_finish_full (st : Replays κ × Ledger Tag κ) (keys : List κ)
    (hend : ps.isEnd tag = true)
    (hroom : ¬st.1.concurrent_replays - paths_to ps tag * keys.length <
      st.1.max_concurrent_replays) :
    tracked false ps st (.finish tag keys) = some ([],
      { st.1 with concurrent_replays :=
        st.1.concurrent_replays - paths_to ps tag * keys.length },
      st.2.close (siblings ps tag) keys) := by
  unfold tracked machine
  simp only [finished_full hend hroom, Option.bind_eq_bind, Option.bind_some, sent, append_nil]
  rfl

end Tracked

end Replays

end Noria.Server

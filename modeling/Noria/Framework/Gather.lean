import Mathlib.Data.Finset.Basic

/-! # Gathering the answers of several parties

  A query goes to a finite set of parties. Each answers it with some rows, and may send updates of
  its answer afterwards. Once the last party has answered, all answers are handed on and the next
  query may begin.

  A message is, as far as one query is concerned, an answer, an update or neither (`Note`).
  Everything is a function of the notes so far: `round` is what has come in since the last answers
  were handed on, and `pending` what a party has answered in it. The `_snoc` lemmas say how one more
  note changes that, so that a buffer which keeps the answers can be compared with `gathered` step
  by step.
-/

/-- What a message means for a query. -/
inductive Note (σ ρ : Type*) where
  | answer (s : σ) (rows : List ρ)
  | update (s : σ) (rows : List ρ)
  | other

namespace Gather

open List

variable {σ ρ : Type*} [DecidableEq σ]

/-- The rows that a note adds to an answer of `s`. -/
def updateOf (s : σ) : Note σ ρ → List ρ
  | .update s' rows => if s' = s then rows else []
  | _ => []

/-- The answer of `s` with its later updates. -/
def pending (s : σ) : List (Note σ ρ) → Option (List ρ)
  | [] => none
  | .answer s' rows :: rest =>
    if s' = s then some (rows ++ rest.flatMap (updateOf s)) else pending s rest
  | .update _ _ :: rest => pending s rest
  | .other :: rest => pending s rest

/-- Has every party answered? -/
def Complete (P : Finset σ) (h : List (Note σ ρ)) : Prop :=
  ∀ s ∈ P, (pending s h).isSome = true

instance (P : Finset σ) (h : List (Note σ ρ)) : Decidable (Complete P h) :=
  inferInstanceAs (Decidable (∀ s ∈ P, (pending s h).isSome = true))

/-- What has come in since the answers were last handed on. -/
def round (P : Finset σ) (h : List (Note σ ρ)) : List (Note σ ρ) :=
  h.foldl (fun r n => if Complete P (r ++ [n]) then [] else r ++ [n]) []

/-- The answers that are being held. -/
def gathered (P : Finset σ) (h : List (Note σ ρ)) (s : σ) : Option (List ρ) :=
  pending s (round P h)

variable {P : Finset σ} {h : List (Note σ ρ)} {s s' : σ} {rows : List ρ} {n : Note σ ρ}

/-! ## One more note -/

theorem pending_append (s : σ) (h h' : List (Note σ ρ)) :
    pending s (h ++ h') = (pending s h).elim (pending s h')
      fun rows => some (rows ++ h'.flatMap (updateOf s)) := by
  induction h with
  | nil => rfl
  | cons n h ih =>
    cases n with
    | answer s' rows =>
      simp only [cons_append, pending]
      by_cases hs : s' = s
      · simp [hs, append_assoc]
      · simpa [hs] using ih
    | update s' rows => exact ih
    | other => exact ih

theorem pending_answer (hnone : pending s h = none) :
    pending s (h ++ [.answer s rows]) = some rows := by
  simp [pending_append, hnone, pending]

theorem pending_answer_ne (hne : s' ≠ s) : pending s (h ++ [.answer s' rows]) = pending s h := by
  rw [pending_append]
  cases pending s h <;> simp [pending, updateOf, hne]

theorem pending_update : pending s (h ++ [.update s rows]) = (pending s h).map (· ++ rows) := by
  rw [pending_append]
  cases pending s h <;> simp [pending, updateOf]

theorem pending_update_ne (hne : s' ≠ s) : pending s (h ++ [.update s' rows]) = pending s h := by
  rw [pending_append]
  cases pending s h <;> simp [pending, updateOf, hne]

theorem pending_other : pending s (h ++ [.other]) = pending s h := by
  rw [pending_append]
  cases pending s h <;> simp [pending, updateOf]

/-! ## Completion -/

theorem complete_update : Complete P (h ++ [.update s' rows]) ↔ Complete P h := by
  have hsome : ∀ s, (pending s (h ++ [.update s' rows])).isSome = (pending s h).isSome := by
    intro s
    by_cases hs : s' = s
    · rw [hs, pending_update, Option.isSome_map]
    · rw [pending_update_ne hs]
  simp only [Complete, hsome]

theorem complete_other : Complete P (h ++ [.other]) ↔ Complete P h := by
  simp only [Complete, pending_other]

/-- **The last answer**: all other parties have given theirs. -/
theorem complete_answer (hnone : pending s h = none) :
    Complete P (h ++ [.answer s rows]) ↔ ∀ s' ∈ P, s' ≠ s → (pending s' h).isSome = true := by
  constructor
  · intro hall s' hs' hne
    have := hall s' hs'
    rwa [pending_answer_ne hne.symm] at this
  · intro hall s' hs'
    by_cases hs : s' = s
    · rw [hs, pending_answer hnone]
      rfl
    · rw [pending_answer_ne (Ne.symm hs)]
      exact hall s' hs' hs

/-! ## Rounds -/

theorem round_snoc (P : Finset σ) (h : List (Note σ ρ)) (n : Note σ ρ) :
    round P (h ++ [n]) = if Complete P (round P h ++ [n]) then [] else round P h ++ [n] := by
  unfold round
  rw [foldl_append]
  rfl

theorem not_complete_round (hP : P.Nonempty) (h : List (Note σ ρ)) : ¬Complete P (round P h) := by
  have hnil : ¬Complete P ([] : List (Note σ ρ)) := by
    intro hall
    obtain ⟨s, hs⟩ := hP
    cases hall s hs
  induction h using reverseRecOn with
  | nil => exact hnil
  | append_singleton h n ih =>
    rw [round_snoc]
    by_cases hc : Complete P (round P h ++ [n])
    · rw [if_pos hc]
      exact hnil
    · rwa [if_neg hc]

theorem gathered_snoc_complete (hc : Complete P (round P h ++ [n])) (s : σ) :
    gathered P (h ++ [n]) s = none := by
  rw [gathered, round_snoc, if_pos hc]
  rfl

theorem gathered_snoc (hc : ¬Complete P (round P h ++ [n])) (s : σ) :
    gathered P (h ++ [n]) s = pending s (round P h ++ [n]) := by
  rw [gathered, round_snoc, if_neg hc]

theorem gathered_update (hP : P.Nonempty) (s s' : σ) : gathered P (h ++ [.update s' rows]) s =
      if s' = s then (gathered P h s).map (· ++ rows) else gathered P h s := by
  rw [gathered_snoc (mt complete_update.mp (not_complete_round hP h))]
  by_cases hs : s' = s
  · rw [if_pos hs, hs, pending_update]
    rfl
  · rw [if_neg hs, pending_update_ne hs]
    rfl

theorem gathered_other (hP : P.Nonempty) (s : σ) :
    gathered P (h ++ [.other]) s = gathered P h s := by
  rw [gathered_snoc (mt complete_other.mp (not_complete_round hP h)), pending_other]
  rfl

theorem gathered_of_silent (hs : ∀ n ∈ h, ∀ rows, n ≠ .answer s rows) : gathered P h s = none := by
  induction h using reverseRecOn with
  | nil => rfl
  | append_singleton h n ih =>
    have ih' := ih fun n' hn' => hs n' (mem_append_left _ hn')
    by_cases hc : Complete P (round P h ++ [n])
    · exact gathered_snoc_complete hc s
    · rw [gathered_snoc hc]
      have hn := hs n (mem_append_right _ mem_cons_self)
      cases n with
      | answer s' rows =>
        rw [pending_answer_ne fun heq => hn rows (by rw [heq])]
        exact ih'
      | update s' rows =>
        by_cases heq : s' = s
        · rw [heq, pending_update, ← gathered, ih']
          rfl
        · rw [pending_update_ne heq]
          exact ih'
      | other =>
        rw [pending_other]
        exact ih'

end Gather

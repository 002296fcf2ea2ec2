import Mathlib.Data.Nat.Init
import Noria.Framework.Machine

/-! # Infinite runs

  What must happen at last is stated about infinite runs of a machine. In
  a step without an input nothing changes, so a run may come to rest.

  `Trace.always` is the rule for invariants. `eventually_of_progress` is the rule for what must
  happen: a number that never grows, and gets smaller again and again, until it has happened.
-/

structure Trace {σ ι ο : Type*} (step : Machine σ ι ο) where
  state : ℕ → σ
  /-- The input that is read in a step, if any. -/
  input : ℕ → Option ι
  next : ∀ n, (input n).elim (state (n + 1) = state n)
    fun i => ∃ o, step (state n) i = some (o, state (n + 1))

namespace Trace

variable {σ ι ο : Type*} {step : Machine σ ι ο} {t : Trace step} {n : ℕ}

theorem idle (h : t.input n = none) : t.state (n + 1) = t.state n := by
  have := t.next n
  rwa [h] at this

theorem reads {i : ι} (h : t.input n = some i) :
    ∃ o, step (t.state n) i = some (o, t.state (n + 1)) := by
  have := t.next n
  rwa [h] at this

/-- **Invariants of an infinite run.** -/
theorem always {I : σ → Prop} (hinit : I (t.state 0))
    (hstep : ∀ n i, t.input n = some i → I (t.state n) →
      ∃ o s', step (t.state n) i = some (o, s') ∧ I s') (n : ℕ) : I (t.state n) := by
  induction n with
  | zero => exact hinit
  | succ n ih =>
    cases hi : t.input n with
    | none =>
      rw [idle hi]
      exact ih
    | some i =>
      obtain ⟨o, hnext⟩ := reads hi
      obtain ⟨o', s', hnext', hs'⟩ := hstep n i hi ih
      rw [hnext, Option.some.injEq, Prod.mk.injEq] at hnext'
      rw [hnext'.2]
      exact hs'

end Trace

theorem holds_until {p q : ℕ → Prop} {n : ℕ} (hn : p n)
    (hstep : ∀ m, n ≤ m → p m → ¬q m → p (m + 1)) (m : ℕ) (hm : n ≤ m) :
    p m ∨ ∃ j, n ≤ j ∧ j < m ∧ p j ∧ q j := by
  induction m, hm using Nat.le_induction with
  | base => exact .inl hn
  | succ m hm ih =>
    rcases ih with hp | ⟨j, hj, hlt, hjp, hjq⟩
    · by_cases hq : q m
      · exact .inr ⟨m, hm, Nat.lt_succ_self m, hp, hq⟩
      · exact .inl (hstep m hm hp hq)
    · exact .inr ⟨j, hj, Nat.lt_succ_of_lt hlt, hjp, hjq⟩

/-- **Progress.** If a number does not grow as long as something has not happened, and there is
    always a step ahead that makes it smaller, then it happens at last. -/
theorem eventually_of_progress {q : ℕ → Prop} (μ : ℕ → ℕ)
    (hle : ∀ n, ¬q n → ¬q (n + 1) → μ (n + 1) ≤ μ n)
    (hlt : ∀ n, ¬q n → ∃ m, n ≤ m ∧ (¬q m → ¬q (m + 1) → μ (m + 1) < μ m)) (n : ℕ) :
    ∃ m, n ≤ m ∧ q m := by
  by_contra hnever
  push Not at hnever
  have hanti : ∀ j m, n ≤ j → j ≤ m → μ m ≤ μ j := by
    intro j m hj hm
    induction m, hm using Nat.le_induction with
    | base => exact Nat.le_refl _
    | succ m hm ih =>
      have := hle m (hnever m (by omega)) (hnever (m + 1) (by omega))
      omega
  -- the number would get smaller without end
  have hend : ∀ k j, n ≤ j → μ j = k → False := by
    intro k
    induction k using Nat.strong_induction_on with
    | _ k ih =>
      intro j hj hk
      obtain ⟨m, hm, hdec⟩ := hlt j (hnever j hj)
      have h₁ := hdec (hnever m (by omega)) (hnever (m + 1) (by omega))
      have h₂ := hanti j m hj hm
      exact ih (μ (m + 1)) (by omega) (m + 1) (by omega) rfl
  exact hend (μ n) n (Nat.le_refl n) rfl

import Mathlib.Data.List.Induction

/-! # Machines that read a stream of inputs

  A machine takes one input at a time; each step puts something out and
  moves to another state, or panics. `feed` runs it on a list of inputs.

  What holds along a run is stated about the inputs read so far (`feed_invariant`): a property of
  the inputs, the outputs and the state that one step keeps holds after every prefix of the run, and
  the run does not panic.
-/

/-- The output and the next state for an input; `none` is a panic. -/
abbrev Machine (σ ι ο : Type*) := σ → ι → Option (ο × σ)

namespace Machine

open Option

variable {σ ι ο : Type*} {step : Machine σ ι ο}

def feed (step : Machine σ ι ο) : σ → List ι → Option (List ο × σ)
  | s, [] => some ([], s)
  | s, i :: rest => do
    let (o, s) ← step s i
    let (os, s) ← feed step s rest
    some (o :: os, s)

@[simp] theorem feed_nil (s : σ) : feed step s [] = some ([], s) := rfl

theorem feed_cons {s s₁ s₂ : σ} {i : ι} {o : ο} {is : List ι} {os : List ο}
    (h : step s i = some (o, s₁)) (h' : feed step s₁ is = some (os, s₂)) :
    feed step s (i :: is) = some (o :: os, s₂) := by
  simp only [feed, h, h', bind_eq_bind, bind_some]

theorem feed_append {s s₁ s₂ : σ} {is js : List ι} {os ps : List ο}
    (h : feed step s is = some (os, s₁)) (h' : feed step s₁ js = some (ps, s₂)) :
    feed step s (is ++ js) = some (os ++ ps, s₂) := by
  induction is generalizing s os with
  | nil =>
    cases h
    exact h'
  | cons i is ih =>
    simp only [feed, bind_eq_bind, bind_eq_some_iff, Prod.exists,
      some.injEq, Prod.mk.injEq] at h
    obtain ⟨o, t, hstep, os', t', hfeed, rfl, rfl⟩ := h
    exact feed_cons hstep (ih hfeed)

theorem feed_snoc {s s₁ s₂ : σ} {is : List ι} {os : List ο} {i : ι} {o : ο}
    (h : feed step s is = some (os, s₁)) (h' : step s₁ i = some (o, s₂)) :
    feed step s (is ++ [i]) = some (os ++ [o], s₂) := feed_append h (feed_cons h' rfl)

/-- **Invariants of a run.** A property of the inputs so far, the outputs so far and the state, kept
    by every step the run takes, holds after every prefix of the run. -/
theorem feed_invariant {I : List ι → List ο → σ → Prop} {s₀ : σ} {inputs : List ι}
    (hinit : I [] [] s₀)
    (hstep : ∀ before i rest out s, inputs = before ++ i :: rest → I before out s →
      ∃ o s', step s i = some (o, s') ∧ I (before ++ [i]) (out ++ [o]) s')
    {before rest : List ι} (h : inputs = before ++ rest) :
    ∃ out s, feed step s₀ before = some (out, s) ∧ I before out s := by
  induction before using List.reverseRecOn generalizing rest with
  | nil => exact ⟨[], s₀, rfl, hinit⟩
  | append_singleton before i ih =>
    rw [List.append_assoc] at h
    obtain ⟨out, s, hfeed, hinv⟩ := ih h
    obtain ⟨o, s', hnext, hinv'⟩ := hstep before i rest out s h hinv
    exact ⟨out ++ [o], s', feed_snoc hfeed hnext, hinv'⟩

/-- Every input of a run meets a condition in the state in which it is read. -/
def Guarded (step : Machine σ ι ο) (s₀ : σ) (guard : σ → ι → Prop) (inputs : List ι) : Prop :=
  ∀ before i rest out s, inputs = before ++ i :: rest → feed step s₀ before = some (out, s) →
    guard s i

theorem Guarded.nil (s₀ : σ) (guard : σ → ι → Prop) : Guarded step s₀ guard [] := by
  intro before i rest out s h
  cases before <;> cases h

theorem Guarded.cons {guard : σ → ι → Prop} {s₀ s₁ : σ} {i : ι} {o : ο} {is : List ι}
    (hi : guard s₀ i) (hstep : step s₀ i = some (o, s₁)) (his : Guarded step s₁ guard is) :
    Guarded step s₀ guard (i :: is) := by
  intro before j rest out s hsplit hfeed
  cases before with
  | nil =>
    cases hsplit
    cases hfeed
    exact hi
  | cons i' before =>
    obtain ⟨rfl, rfl⟩ := List.cons.inj hsplit
    simp only [feed, hstep, bind_eq_bind, bind_some, bind_eq_some_iff,
      Prod.exists, some.injEq, Prod.mk.injEq] at hfeed
    obtain ⟨os, s', hrest, -, rfl⟩ := hfeed
    exact his before j rest os s' rfl hrest

/-- **Guarded runs.** A property of the state that is kept by every step whose input meets the guard
    holds before and after every step of a guarded run, and no step panics. -/
theorem Guarded.invariant {guard : σ → ι → Prop} {I : σ → Prop} {s₀ : σ} {inputs : List ι}
    (hguard : Guarded step s₀ guard inputs) (hinit : I s₀)
    (hstep : ∀ s i, I s → guard s i → ∃ o s', step s i = some (o, s') ∧ I s')
    {before rest : List ι} {i : ι} (h : inputs = before ++ i :: rest) :
    ∃ out s o s', feed step s₀ before = some (out, s) ∧ I s ∧ guard s i ∧
      step s i = some (o, s') ∧ I s' := by
  obtain ⟨out, s, hfeed, -, hinv⟩ := feed_invariant
    (I := fun before out s => feed step s₀ before = some (out, s) ∧ I s) ⟨rfl, hinit⟩
    (fun before i rest out s hsplit hinv => by
      obtain ⟨o, s', hnext, hinv'⟩ := hstep s i hinv.2 (hguard before i rest out s hsplit hinv.1)
      exact ⟨o, s', hnext, feed_snoc hinv.1 hnext, hinv'⟩) h
  have hi := hguard before i rest out s h hfeed
  obtain ⟨o, s', hnext, hinv'⟩ := hstep s i hinv hi
  exact ⟨out, s, o, s', hfeed, hinv, hi, hnext, hinv'⟩

end Machine

import Mathlib.Tactic.Common

/-! # Computations that fail, panic and keep their state

  `Outcome ε α` is the result of a function that returns a `Result` and may also panic. `Keeping σ ε
  α` is such a function with a mutable argument of type `σ`: what it has done to the argument stays
  done when it returns an error.

  The `*_ok_iff` lemmas take a computation that returned a value apart into its parts;
  `Keeping.Ends` says what a computation does however it ends.
-/

/-- A value, an error, or a panic. -/
inductive Outcome (ε α : Type*) where
  | ok (a : α)
  | error (e : ε)
  | panic
  deriving DecidableEq

namespace Outcome

variable {ε α β : Type}

def bind (x : Outcome ε α) (f : α → Outcome ε β) : Outcome ε β :=
  match x with
  | .ok a => f a
  | .error e => .error e
  | .panic => .panic

instance : Monad (Outcome ε) where
  pure := .ok
  bind := Outcome.bind

/-- `unwrap` on an option. -/
def ofOption : Option α → Outcome ε α
  | some a => .ok a
  | none => .panic

@[simp] theorem pure_eq (a : α) : (pure a : Outcome ε α) = .ok a := rfl

@[simp] theorem ok_bind (a : α) (f : α → Outcome ε β) : (.ok a >>= f) = f a := rfl

@[simp] theorem error_bind (e : ε) (f : α → Outcome ε β) :
    ((.error e : Outcome ε α) >>= f) = .error e := rfl

@[simp] theorem panic_bind (f : α → Outcome ε β) : ((.panic : Outcome ε α) >>= f) = .panic := rfl

theorem bind_ok_iff {x : Outcome ε α} {f : α → Outcome ε β} {b : β} :
    (x >>= f) = .ok b ↔ ∃ a, x = .ok a ∧ f a = .ok b := by
  cases x with
  | ok a => simp
  | error e => simp
  | panic => simp

theorem ofOption_bind (x : Option α) (f : α → Option β) :
    (ofOption (x >>= f) : Outcome ε β) = (ofOption x >>= fun a => ofOption (f a)) := by
  cases x <;> rfl

end Outcome

/-- A computation with a mutable argument. -/
def Keeping (σ ε α : Type) : Type := σ → Outcome ε α × σ

namespace Keeping

variable {σ ε α β : Type}

/-- Continue with the value and the state; an error or a panic stops with the state reached. -/
def bind (m : Keeping σ ε α) (f : α → Keeping σ ε β) : Keeping σ ε β := fun s =>
  match m s with
  | (.ok a, s') => f a s'
  | (.error e, s') => (.error e, s')
  | (.panic, s') => (.panic, s')

instance : Monad (Keeping σ ε) where
  pure a := fun s => (.ok a, s)
  bind := Keeping.bind

/-- A computation that leaves the state alone. -/
def lift (x : Outcome ε α) : Keeping σ ε α := fun s => (x, s)

/-- A state change that may panic. -/
def modifyGet (f : σ → Option (α × σ)) : Keeping σ ε α := fun s =>
  match f s with
  | some (a, s') => (.ok a, s')
  | none => (.panic, s)

@[simp] theorem pure_apply (a : α) (s : σ) : (pure a : Keeping σ ε α) s = (.ok a, s) := rfl

@[simp] theorem lift_apply (x : Outcome ε α) (s : σ) : (lift x : Keeping σ ε α) s = (x, s) := rfl

theorem bind_apply (m : Keeping σ ε α) (f : α → Keeping σ ε β) (s : σ) :
    (m >>= f) s = match m s with
      | (.ok a, s') => f a s'
      | (.error e, s') => (.error e, s')
      | (.panic, s') => (.panic, s') := rfl

/-- A sequence that returned a value: both parts did. -/
theorem bind_ok_iff {m : Keeping σ ε α} {f : α → Keeping σ ε β} {s s'' : σ} {b : β} :
    (m >>= f) s = (.ok b, s'') ↔ ∃ a s', m s = (.ok a, s') ∧ f a s' = (.ok b, s'') := by
  rw [bind_apply]
  rcases hm : m s with ⟨_ | _ | _, s'⟩ <;> simp

theorem modifyGet_ok_iff {f : σ → Option (α × σ)} {s s' : σ} {a : α} :
    (modifyGet f : Keeping σ ε α) s = (.ok a, s') ↔ f s = some (a, s') := by
  unfold modifyGet
  rcases f s with _ | ⟨b, t⟩ <;> simp

/-! ## How a computation ends

  `Ends m s Q E`: started from `s`, the computation ends with a value `a` and a state `s'` with `Q a
  s'`, or with an error and a state with `E`. Panics are not constrained. -/

def Ends (m : Keeping σ ε α) (s : σ) (Q : α → σ → Prop) (E : σ → Prop) : Prop :=
  match m s with
  | (.ok a, s') => Q a s'
  | (.error _, s') => E s'
  | (.panic, _) => True

section Ends

variable {m : Keeping σ ε α} {s s' : σ} {Q Q' : α → σ → Prop} {E : σ → Prop}

theorem Ends.ok (h : m.Ends s Q E) {a : α} (hm : m s = (.ok a, s')) : Q a s' := by
  unfold Ends at h
  rw [hm] at h
  exact h

theorem Ends.error (h : m.Ends s Q E) {e : ε} (hm : m s = (.error e, s')) : E s' := by
  unfold Ends at h
  rw [hm] at h
  exact h

theorem Ends.mono (h : m.Ends s Q E) (hQ : ∀ a s', Q a s' → Q' a s') : m.Ends s Q' E := by
  unfold Ends at h ⊢
  rcases hm : m s with ⟨a | e | _, s'⟩ <;> rw [hm] at h
  · exact hQ a s' h
  · exact h
  · trivial

theorem Ends.pure {a : α} (h : Q a s) : (Pure.pure a : Keeping σ ε α).Ends s Q E := h

theorem Ends.lift {x : Outcome ε α} (hok : ∀ a, x = .ok a → Q a s) (herr : E s) :
    (lift x : Keeping σ ε α).Ends s Q E := by
  unfold Ends
  cases x with
  | ok a => exact hok a rfl
  | error e => exact herr
  | panic => trivial

theorem Ends.modifyGet {f : σ → Option (α × σ)} (h : ∀ a s', f s = some (a, s') → Q a s') :
    (modifyGet f : Keeping σ ε α).Ends s Q E := by
  unfold Ends Keeping.modifyGet
  cases hf : f s with
  | none => trivial
  | some p => exact h p.1 p.2 hf

/-- Sequencing: what follows starts where the first part may end. -/
theorem Ends.bind {f : α → Keeping σ ε β} {R : β → σ → Prop} (hm : m.Ends s Q E)
    (hf : ∀ a s', Q a s' → (f a).Ends s' R E) : (m >>= f).Ends s R E := by
  unfold Ends at hm ⊢
  rw [bind_apply]
  rcases hms : m s with ⟨a | e | _, s'⟩ <;> rw [hms] at hm
  · exact hf a s' hm
  · exact hm
  · trivial

end Ends

end Keeping

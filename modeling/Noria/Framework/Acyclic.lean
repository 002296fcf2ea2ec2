import Mathlib.Order.WellFoundedSet

/-! # Relations without cycles

  A relation with finitely many edges and no cycle is well-founded, so
  that one can recurse along it.
-/

/-- A walk along the edges never comes back. -/
def NoCycle {α : Type*} (R : α → α → Prop) : Prop := ∀ a, ¬Relation.TransGen R a a

theorem NoCycle.wellFounded {α : Type*} {R : α → α → Prop} (h : NoCycle R)
    {s : Set α} (hs : s.Finite) (hsource : ∀ a b, R a b → a ∈ s) (htarget : ∀ a b, R a b → b ∈ s) :
    WellFounded fun b a => R a b := by
  let order : α → α → Prop := fun b a => Relation.TransGen R a b
  have hstrict : IsStrictOrder α order :=
    { irrefl := fun a => h a
      trans := fun a b c hab hbc => hbc.trans hab }
  have hon : s.WellFoundedOn order := hs.wellFoundedOn
  rw [Set.wellFoundedOn_iff] at hon
  refine hon.mono fun b a hab => ?_
  exact ⟨.single hab, htarget a b hab, hsource a b hab⟩

theorem NoCycle.of_lt {R : Nat → Nat → Prop} (h : ∀ a b, R a b → a < b) : NoCycle R := by
  intro a ha
  have hlt : ∀ b, Relation.TransGen R a b → a < b := by
    intro b hb
    induction hb with
    | single hab => exact h _ _ hab
    | tail _ hbc ih => exact Nat.lt_trans ih (h _ _ hbc)
  exact Nat.lt_irrefl a (hlt a ha)

theorem exists_common_bound {α : Type*} {Q : α → Nat → Prop} {l : List α}
    (h : ∀ a ∈ l, ∃ bound, ∀ n ≥ bound, Q a n) : ∃ bound, ∀ a ∈ l, ∀ n ≥ bound, Q a n := by
  induction l with
  | nil => exact ⟨0, fun a ha => absurd ha List.not_mem_nil⟩
  | cons a l ih =>
    obtain ⟨b, hb⟩ := h a List.mem_cons_self
    obtain ⟨c, hc⟩ := ih (List.forall_mem_cons.mp h).2
    refine ⟨max b c, fun a' ha' n hn => ?_⟩
    rcases List.mem_cons.mp ha' with rfl | ha'
    · exact hb n (Nat.le_trans (Nat.le_max_left b c) hn)
    · exact hc a' ha' n (Nat.le_trans (Nat.le_max_right b c) hn)

import Noria.Framework.Outcome

/-! # Computations that return exactly under a condition

  `x.Returns G Q`: the computation returns a value with `Q` if `G` holds, and panics otherwise. The
  condition of a sequence or a loop is the conjunction of the conditions of its parts.
-/

namespace Outcome

open List

variable {ε α β σ : Type}

/-- A value with `Q` if `G` holds, and a panic otherwise. -/
structure Returns (x : Outcome ε α) (G : Prop) (Q : α → Prop) : Prop where
  ok : G → ∃ a, x = .ok a ∧ Q a
  panic : ¬G → x = .panic

namespace Returns

variable {x : Outcome ε α} {G H : Prop} {Q : α → Prop}

theorem of_ok {a : α} (h : Q a) (hG : G) : (.ok a : Outcome ε α).Returns G Q :=
  ⟨fun _ => ⟨a, rfl, h⟩, fun hn => absurd hG hn⟩

theorem ofOption {x : Option α} (hsome : G → ∃ a, x = some a ∧ Q a) (hnone : ¬G → x = none) :
    (Outcome.ofOption x : Outcome ε α).Returns G Q := by
  refine ⟨fun hG => ?_, fun hG => ?_⟩
  · obtain ⟨a, rfl, hQ⟩ := hsome hG
    exact ⟨a, rfl, hQ⟩
  · rw [hnone hG]
    rfl

theorem mono {Q' : α → Prop} (h : x.Returns G Q) (hQ : ∀ a, Q a → Q' a) : x.Returns G Q' := by
  refine ⟨fun hG => ?_, h.panic⟩
  obtain ⟨a, ha, hQa⟩ := h.ok hG
  exact ⟨a, ha, hQ a hQa⟩

theorem congr (h : x.Returns G Q) (hiff : G ↔ H) : x.Returns H Q :=
  ⟨fun hH => h.ok (hiff.mpr hH), fun hH => h.panic (mt hiff.mp hH)⟩

theorem bind {f : α → Outcome ε β} {R : β → Prop} (hx : x.Returns G Q)
    (hf : ∀ a, Q a → (f a).Returns H R) : (x >>= f).Returns (G ∧ H) R := by
  refine ⟨fun hGH => ?_, fun hGH => ?_⟩
  · obtain ⟨a, rfl, hQ⟩ := hx.ok hGH.1
    exact (hf a hQ).ok hGH.2
  · by_cases hG : G
    · obtain ⟨a, rfl, hQ⟩ := hx.ok hG
      exact (hf a hQ).panic fun hH => hGH ⟨hG, hH⟩
    · rw [hx.panic hG]
      rfl

/-- A loop that goes forward along `R`. Going forward leaves the condition of
    each round as it is and keeps what the rounds have done. -/
theorem foldlM {f : σ → α → Outcome ε σ} {R : σ → σ → Prop} {G D : σ → α → Prop} {l : List α}
    (hrefl : ∀ s, R s s) (htrans : ∀ s s₁ s₂, R s s₁ → R s₁ s₂ → R s s₂)
    (hG : ∀ s s' a, R s s' → (G s a ↔ G s' a)) (hD : ∀ s s' a, R s s' → D s a → D s' a) {s : σ}
    (hstep : ∀ s', R s s' → ∀ a ∈ l, (f s' a).Returns (G s' a) fun s'' => R s' s'' ∧ D s'' a) :
    (l.foldlM f s).Returns (∀ a ∈ l, G s a) fun s' => R s s' ∧ ∀ a ∈ l, D s' a := by
  induction l generalizing s with
  | nil =>
    exact of_ok ⟨hrefl s, fun a ha => absurd ha not_mem_nil⟩
      fun a ha => absurd ha not_mem_nil
  | cons a l ih =>
    have hfirst := hstep s (hrefl s) a mem_cons_self
    have hrest : ∀ s₁, R s s₁ ∧ D s₁ a → (l.foldlM f s₁).Returns (∀ a' ∈ l, G s a')
        fun s' => R s s' ∧ ∀ a' ∈ a :: l, D s' a' := by
      rintro s₁ ⟨hs₁, hd⟩
      have hloop := ih (s := s₁) fun s' hs' a' ha' =>
        hstep s' (htrans _ _ _ hs₁ hs') a' (mem_cons_of_mem _ ha')
      refine (hloop.congr ?_).mono fun s' hs' => ⟨htrans _ _ _ hs₁ hs'.1, fun a' ha' => ?_⟩
      · exact forall₂_congr fun a' _ => (hG s s₁ a' hs₁).symm
      · rcases mem_cons.mp ha' with rfl | ha'
        · exact hD _ _ _ hs'.1 hd
        · exact hs'.2 a' ha'
    exact (hfirst.bind hrest).congr forall_mem_cons.symm

end Returns

end Outcome

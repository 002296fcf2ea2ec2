import Mathlib.Tactic.Common

/-! # Loops that may panic

  A loop over `Option`: what every round keeps, the whole loop keeps; a loop whose rounds all
  succeed succeeds; and two loops whose rounds are related are.
-/

open List Option

variable {σ τ α β : Type*}

/-- A property kept by every round of a loop that may panic. -/
theorem foldlM_option_keeps {f : σ → α → Option σ} {P : σ → Prop} {l : List α}
    (hstep : ∀ s a s', a ∈ l → P s → f s a = some s' → P s') {s s' : σ} (hs : P s)
    (h : l.foldlM f s = some s') : P s' := by
  induction l generalizing s with
  | nil =>
    cases h
    exact hs
  | cons a l ih =>
    simp only [foldlM_cons, bind_eq_bind, bind_eq_some_iff] at h
    obtain ⟨s₁, h₁, h₂⟩ := h
    exact ih (fun s a s' ha => hstep s a s' (mem_cons_of_mem _ ha))
      (hstep s a s₁ mem_cons_self hs h₁) h₂

/-- A loop whose rounds do not panic where `P` holds, and keep it. -/
theorem foldlM_option_total {f : σ → α → Option σ} {P : σ → Prop} {l : List α}
    (hstep : ∀ s a, a ∈ l → P s → ∃ s', f s a = some s' ∧ P s') {s : σ} (hs : P s) :
    ∃ s', l.foldlM f s = some s' ∧ P s' := by
  induction l generalizing s with
  | nil => exact ⟨s, rfl, hs⟩
  | cons a l ih =>
    obtain ⟨s₁, h₁, hs₁⟩ := hstep s a mem_cons_self hs
    obtain ⟨s', h', hs'⟩ := ih (fun s a ha => hstep s a (mem_cons_of_mem _ ha)) hs₁
    refine ⟨s', ?_, hs'⟩
    rw [foldlM_cons, h₁]
    exact h'

/-- A loop with a round that panics wherever it is reached. -/
theorem foldlM_option_none {f : σ → α → Option σ} {P : σ → Prop} {l : List α}
    (hstep : ∀ s a s', P s → f s a = some s' → P s')
    (hpanic : ∃ a ∈ l, ∀ s, P s → f s a = none) {s : σ} (hs : P s) : l.foldlM f s = none := by
  induction l generalizing s with
  | nil => simp at hpanic
  | cons a l ih =>
    rw [foldlM_cons, bind_eq_bind]
    cases ha : f s a with
    | none => rfl
    | some s' =>
      have hrest : ∃ a ∈ l, ∀ s, P s → f s a = none := by
        obtain ⟨a', ha', hnone⟩ := hpanic
        rcases mem_cons.mp ha' with rfl | ha'
        · rw [hnone s hs] at ha
          cases ha
        · exact ⟨a', ha', hnone⟩
      exact ih hrest (hstep s a s' hs ha)

theorem option_rel_mono {R S : α → β → Prop} {x : Option α} {y : Option β}
    (h : Option.Rel R x y) (hRS : ∀ a b, x = some a → y = some b → R a b → S a b) :
    Option.Rel S x y := by
  cases h with
  | none => exact .none
  | some hR => exact .some (hRS _ _ rfl rfl hR)

/-- Related computations, each followed by related ones. -/
theorem option_rel_bind {R : α → β → Prop} {S : σ → τ → Prop} {x : Option α} {y : Option β}
    {f : α → Option σ} {g : β → Option τ} (h : Option.Rel R x y)
    (hfg : ∀ a b, x = some a → y = some b → R a b → Option.Rel S (f a) (g b)) :
    Option.Rel S (x.bind f) (y.bind g) := by
  cases h with
  | none => exact .none
  | some hR => exact hfg _ _ rfl rfl hR

/-- Two loops over one list whose rounds panic together and keep `R`. -/
theorem foldlM_option_rel {f : σ → α → Option σ} {g : τ → α → Option τ} {R : σ → τ → Prop}
    {l : List α} (hstep : ∀ s t a, a ∈ l → R s t → Option.Rel R (f s a) (g t a)) {s : σ} {t : τ}
    (h : R s t) : Option.Rel R (l.foldlM f s) (l.foldlM g t) := by
  induction l generalizing s t with
  | nil => exact .some h
  | cons a l ih =>
    refine option_rel_bind (hstep s t a mem_cons_self h) fun s₁ t₁ _ _ hR => ?_
    exact ih (fun s t a' ha' => hstep s t a' (mem_cons_of_mem _ ha')) hR

/-- A map whose rounds do not panic, related element by element. -/
theorem mapM_option_forall₂ {f : α → Option β} {R : α → β → Prop} {l : List α}
    (h : ∀ a ∈ l, ∃ b, f a = some b ∧ R a b) : ∃ bs, l.mapM f = some bs ∧ List.Forall₂ R l bs := by
  induction l with
  | nil => exact ⟨[], rfl, .nil⟩
  | cons a l ih =>
    obtain ⟨b, hb, hR⟩ := h a mem_cons_self
    obtain ⟨bs, hbs, hRs⟩ := ih (forall_mem_cons.mp h).2
    refine ⟨b :: bs, ?_, .cons hR hRs⟩
    rw [mapM_cons, hb, hbs]
    rfl

/-- The results of a map that has not panicked, element by element. -/
theorem forall₂_of_mapM_option {f : α → Option β} {l : List α} {bs : List β}
    (h : l.mapM f = some bs) : List.Forall₂ (fun a b => f a = some b) l bs := by
  induction l generalizing bs with
  | nil =>
    cases h
    exact .nil
  | cons a l ih =>
    rw [mapM_cons] at h
    obtain ⟨b, hb, h⟩ := bind_eq_some_iff.mp h
    obtain ⟨bs', hbs', heq⟩ := bind_eq_some_iff.mp h
    cases heq
    exact .cons hb (ih hbs')

theorem exists_of_mem_mapM_option {f : α → Option β} {l : List α} {bs : List β}
    (h : l.mapM f = some bs) {b : β} (hb : b ∈ bs) : ∃ a ∈ l, f a = some b := by
  have hrel := forall₂_of_mapM_option h
  clear h
  induction hrel with
  | nil => exact absurd hb not_mem_nil
  | @cons a b' _ _ hab _ ih =>
    rcases mem_cons.mp hb with rfl | hb
    · exact ⟨a, mem_cons_self, hab⟩
    · obtain ⟨a', ha', hf⟩ := ih hb
      exact ⟨a', mem_cons_of_mem _ ha', hf⟩

/-- A map whose rounds do not panic, for a property of the results. -/
theorem mapM_option_total {f : α → Option β} {P : β → Prop} {l : List α}
    (h : ∀ a ∈ l, ∃ b, f a = some b ∧ P b) : ∃ bs, l.mapM f = some bs ∧ ∀ b ∈ bs, P b := by
  obtain ⟨bs, hbs, hR⟩ := mapM_option_forall₂ h
  refine ⟨bs, hbs, ?_⟩
  clear hbs h
  induction hR with
  | nil => exact fun b hb => absurd hb not_mem_nil
  | cons hP _ ih =>
    intro b hb
    rcases mem_cons.mp hb with rfl | hb
    · exact hP
    · exact ih b hb

theorem mapM_option_map {f : α → Option β} {g : α → β} {l : List α}
    (h : ∀ a ∈ l, f a = some (g a)) : l.mapM f = some (l.map g) := by
  induction l with
  | nil => rfl
  | cons a l ih =>
    rw [mapM_cons, h a mem_cons_self, ih (forall_mem_cons.mp h).2]
    rfl

theorem mapM_option_congr {f g : α → Option β} {l : List α} (h : ∀ a ∈ l, f a = g a) :
    l.mapM f = l.mapM g := by
  induction l with
  | nil => rfl
  | cons a l ih =>
    rw [mapM_cons, mapM_cons, h a mem_cons_self, ih (forall_mem_cons.mp h).2]

theorem mapM_option_none {f : α → Option β} {l : List α} (h : ∃ a ∈ l, f a = none) :
    l.mapM f = none := by
  induction l with
  | nil => simp at h
  | cons a l ih =>
    rw [mapM_cons, bind_eq_bind]
    cases ha : f a with
    | none => rfl
    | some b =>
      have hrest : ∃ a ∈ l, f a = none := by
        obtain ⟨a', ha', hnone⟩ := h
        rcases mem_cons.mp ha' with rfl | ha'
        · rw [ha] at hnone
          cases hnone
        · exact ⟨a', ha', hnone⟩
      rw [bind_some, ih hrest]
      rfl

/-- Mapping back the results of a map: the list is returned exactly if every element is. -/
theorem mapM_option_back_iff {f : α → Option β} {g : β → Option α} {l : List α} {bs : List β}
    (h : l.mapM f = some bs) : bs.mapM g = some l ↔ ∀ a ∈ l, ∃ b, f a = some b ∧ g b = some a := by
  constructor
  · intro hback
    have hforth := forall₂_of_mapM_option h
    replace hback := forall₂_of_mapM_option hback
    clear h
    induction hforth with
    | nil => exact fun a ha => absurd ha not_mem_nil
    | cons hab _ ih =>
      cases hback with
      | cons hba hrest =>
        intro a ha
        rcases mem_cons.mp ha with rfl | ha
        · exact ⟨_, hab, hba⟩
        · exact ih hrest a ha
  · intro hall
    have hforth := forall₂_of_mapM_option h
    clear h
    induction hforth with
    | nil => rfl
    | @cons a b _ _ hab _ ih =>
      obtain ⟨b', hb', hback⟩ := hall a mem_cons_self
      rw [hab] at hb'
      cases hb'
      rw [mapM_cons, hback, ih (forall_mem_cons.mp hall).2]
      rfl

theorem forall₂_forall_iff {R : α → β → Prop} {P : α → Prop} {Q : β → Prop} {l : List α}
    {bs : List β} (h : List.Forall₂ R l bs) (hPQ : ∀ a ∈ l, ∀ b, R a b → (P a ↔ Q b)) :
    (∀ a ∈ l, P a) ↔ ∀ b ∈ bs, Q b := by
  induction h with
  | nil => exact iff_of_true (by simp) (by simp)
  | cons hab _ ih =>
    rw [forall_mem_cons, forall_mem_cons, hPQ _ mem_cons_self _ hab,
      ih (forall_mem_cons.mp hPQ).2]

theorem map_eq_of_forall₂ {γ : Type*} {f : α → γ} {g : β → γ} {l : List α} {bs : List β}
    (h : List.Forall₂ (fun a b => g b = f a) l bs) : bs.map g = l.map f := by
  induction h with
  | nil => rfl
  | cons hab _ ih => rw [map_cons, map_cons, hab, ih]

/-! ## Fuel -/

theorem enough_of_stop {P : Nat → Prop} (h : ∀ fuel, P (fuel + 1)) :
    ∃ bound, ∀ fuel ≥ bound, P fuel :=
  ⟨1, fun fuel hfuel => Nat.sub_add_cancel hfuel ▸ h (fuel - 1)⟩

theorem enough_of_round {P Q : Nat → Prop} (hrest : ∃ bound, ∀ fuel ≥ bound, P fuel)
    (h : ∀ fuel, P fuel → Q (fuel + 1)) : ∃ bound, ∀ fuel ≥ bound, Q fuel := by
  obtain ⟨bound, hbound⟩ := hrest
  refine ⟨bound + 1, fun fuel hfuel => ?_⟩
  obtain ⟨fuel, rfl⟩ : ∃ m, fuel = m + 1 := ⟨fuel - 1, by omega⟩
  exact h fuel (hbound fuel (Nat.le_of_succ_le_succ hfuel))

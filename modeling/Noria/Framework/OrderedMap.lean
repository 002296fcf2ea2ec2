import Mathlib.Order.Compare
import Noria.Framework.KeySet

/-! # Maps over an order

  A map that finds its keys by comparing them, seen from outside. Its documentation promises
  something only where the comparison is a total order, so its laws are not facts about the
  operations: they are what `Documented` promises, for maps built from keys on which the comparison
  is an order (`TotalOrderOn`). Off those keys the operations may do anything.

  `hashed` is an implementation that keeps the promise. `BTree` has one that keeps no more than it.
-/

/-- The comparison is a total order on some keys: it compares ranks. -/
def TotalOrderOn {κ : Type} (cmp : κ → κ → Ordering) (D : κ → Prop) : Prop :=
  ∃ (α : Type) (_ : LinearOrder α) (rank : κ → α),
    ∀ a b, D a → D b → (cmp a b).Compares (rank a) (rank b)

/-- The operations of an ordered map. -/
structure OrderedMap (κ ν : Type) where
  Map : Type
  empty : Map
  isEmpty : Map → Bool
  get? : Map → κ → Option ν
  /-- Set the value of a key. An existing entry keeps its key. -/
  insert : Map → κ → ν → Map
  erase : Map → κ → Map
  /-- Change every value, in place; `none` where one of the changes panics. -/
  updateAll : Map → (κ → ν → Option ν) → Option Map
  isEmpty_empty : isEmpty empty = true

namespace OrderedMap

open List

variable {κ ν : Type} (B : OrderedMap κ ν) (cmp : κ → κ → Ordering) (D : κ → Prop)

/-- Maps that have only seen keys of `D`. -/
inductive Built : B.Map → Prop where
  | empty : Built B.empty
  | insert {m : B.Map} {k : κ} (v : ν) : Built m → D k → Built (B.insert m k v)
  | erase {m : B.Map} {k : κ} : Built m → D k → Built (B.erase m k)
  | updateAll {m m' : B.Map} {f : κ → ν → Option ν} :
      Built m → B.updateAll m f = some m' → Built m'

/-- The laws of a map, for keys of `D`. -/
structure LawfulOn : Prop where
  isEmpty : ∀ {m}, B.Built D m → B.isEmpty m = true → ∀ {k}, D k → B.get? m k = none
  get?_congr : ∀ {m}, B.Built D m → ∀ {k k'}, D k → D k' → cmp k k' = .eq →
    B.get? m k = B.get? m k'
  get?_insert : ∀ {m}, B.Built D m → ∀ {k k'}, D k → D k' → ∀ v,
    B.get? (B.insert m k v) k' = if cmp k k' = .eq then some v else B.get? m k'
  get?_erase : ∀ {m}, B.Built D m → ∀ {k k'}, D k → D k' →
    B.get? (B.erase m k) k' = if cmp k k' = .eq then none else B.get? m k'
  updateAll : ∀ {m}, B.Built D m → ∀ {f : κ → ν → Option ν},
    (∀ k k' v, cmp k k' = .eq → f k v = f k' v) →
    (∀ k v, D k → B.get? m k = some v → ∃ v', f k v = some v') →
    ∃ m', B.updateAll m f = some m' ∧ ∀ k, D k → B.get? m' k = (B.get? m k).bind (f k)

/-- **What the documentation promises**: the laws, on keys where the comparison is an order. -/
def Documented : Prop := ∀ D, TotalOrderOn cmp D → B.LawfulOn cmp D

/-! ## An implementation -/

/-- A map that finds its keys by their equality. -/
def hashed (κ ν : Type) [BEq κ] : OrderedMap κ ν where
  Map := AssocMap κ ν
  empty := ∅
  isEmpty m := m.entries.isEmpty
  get? := AssocMap.get?
  insert := AssocMap.insert
  erase := AssocMap.erase
  updateAll := AssocMap.updateAll
  isEmpty_empty := rfl

section

variable [BEq κ]

theorem keys_of_updateAll {D : κ → Prop} {f : κ → ν → Option ν} {l : List (κ × ν)}
    {m m' : AssocMap κ ν} (hl : ∀ e ∈ l, D e.1) (hm : ∀ e ∈ m.entries, D e.1)
    (h : l.foldlM (fun m e => (f e.1 e.2).map (m.insert e.1)) m = some m') :
    ∀ e ∈ m'.entries, D e.1 := by
  induction l generalizing m with
  | nil =>
    rw [foldlM_nil, Option.pure_def, Option.some.injEq] at h
    exact h ▸ hm
  | cons a l ih =>
    obtain ⟨m₁, hm₁, h⟩ := Option.bind_eq_some_iff.mp h
    rw [Option.map_eq_some_iff] at hm₁
    obtain ⟨v, -, rfl⟩ := hm₁
    refine ih (forall_mem_cons.mp hl).2 (fun e he => ?_) h
    rcases m.key_of_mem_insert he with heq | ⟨e₀, he₀, heq⟩
    · exact heq ▸ hl a mem_cons_self
    · exact heq ▸ hm e₀ he₀

theorem Built.keys {D : κ → Prop} {m : (hashed κ ν).Map} (h : (hashed κ ν).Built D m) :
    ∀ e ∈ AssocMap.entries m, D e.1 := by
  induction h with
  | empty =>
    intro e he
    cases he
  | @insert m k v _ hk ih =>
    intro e he
    rcases AssocMap.key_of_mem_insert m he with heq | ⟨e₀, he₀, heq⟩
    · exact heq ▸ hk
    · exact heq ▸ ih e₀ he₀
  | erase _ _ ih => exact fun e he => ih e (mem_filter.mp he).1
  | updateAll _ hf ih => exact keys_of_updateAll ih ih hf

/-- Where the equality of keys is that of the comparison, the promise is kept. -/
theorem hashed_documented [EquivBEq κ] (h : ∀ a b, cmp a b = .eq ↔ (a == b) = true) :
    (hashed κ ν).Documented cmp := by
  intro D _
  refine ⟨fun _ hempty k _ => ?_, fun _ _ _ _ _ heq => ?_, fun _ _ _ _ _ v => ?_,
    fun _ _ _ _ _ => ?_, fun {m} hm f hf hsome => ?_⟩
  · exact (AssocMap.entries_eq_nil_iff _).mp (isEmpty_iff.mp hempty) k
  · exact AssocMap.get?_congr _ ((h _ _).mp heq)
  · simp only [h]
    exact AssocMap.get?_insert _ _ _ v
  · simp only [h]
    exact AssocMap.get?_erase _ _ _
  · -- every entry has a key of `D`, so no change panics
    have hall : ∀ k v, AssocMap.get? m k = some v → ∃ v', f k v = some v' := by
      intro k v hget
      obtain ⟨k₀, hk₀, hmem⟩ := AssocMap.mem_of_get? m hget
      obtain ⟨v', hv'⟩ := hsome k₀ v (hm.keys _ hmem) (AssocMap.get?_of_mem m hmem)
      exact ⟨v', (hf k₀ k v ((h _ _).mpr hk₀)).symm.trans hv'⟩
    obtain ⟨m', hm'⟩ := AssocMap.updateAll_isSome hall
    exact ⟨m', hm', fun k _ => AssocMap.get?_updateAll
      (fun k k' v heq => hf k k' v ((h k k').mpr heq)) hm' k⟩

end

end OrderedMap

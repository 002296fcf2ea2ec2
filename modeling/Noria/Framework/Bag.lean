import Mathlib.Algebra.BigOperators.Group.Finset.Basic
import Mathlib.Tactic.Abel

/-! # Bags and signed changes

  A store that is maintained incrementally sees its content as a bag (`Multiset`) and learns about
  updates as a list of signed changes. This module fixes what it means for such a list to lead from
  one bag to another (`Applies`) and how the relation behaves under the bag operations that queries
  are made of:

  * `Applies.append`, `Applies.add_right`: sequencing and framing.
  * `Applies.bind`: the delta rule for every operation that works
    element by element; `Applies.filter` and `Applies.map` are the
    rules for selection and projection.
  * `Applies.sum_eq`: how a list of changes moves an additive statistic.

  Nothing here depends on what the elements are.
-/

namespace Bag

open List

variable {α : Type*} {β : Type*}

/-- A signed change: one element enters the bag or leaves it. -/
inductive Change (α : Type*) where
  | ins (a : α)
  | del (a : α)
  deriving DecidableEq, Repr

namespace Change

/-- The element a change is about. -/
def elem : Change α → α
  | .ins a => a
  | .del a => a

/-- A change with its element replaced. -/
def map (f : α → β) : Change α → Change β
  | .ins a => .ins (f a)
  | .del a => .del (f a)

/-- `c.Expands f cs`: the changes `cs` insert, respectively delete, the
    elements of `f a` in some order, where `a` is the element of `c`. -/
def Expands (f : α → Multiset β) : Change α → List (Change β) → Prop
  | .ins a, cs => ∃ l : List β, (l : Multiset β) = f a ∧ cs = l.map .ins
  | .del a, cs => ∃ l : List β, (l : Multiset β) = f a ∧ cs = l.map .del

def weight {G : Type*} [AddCommGroup G] (f : α → G) : Change α → G
  | .ins a => f a
  | .del a => - f a

@[simp] theorem elem_ins (a : α) : (Change.ins a).elem = a := rfl
@[simp] theorem elem_del (a : α) : (Change.del a).elem = a := rfl
@[simp] theorem map_ins (f : α → β) (a : α) : (Change.ins a).map f = .ins (f a) := rfl
@[simp] theorem map_del (f : α → β) (a : α) : (Change.del a).map f = .del (f a) := rfl
@[simp] theorem weight_ins {G : Type*} [AddCommGroup G] (f : α → G) (a : α) :
    (Change.ins a).weight f = f a := rfl
@[simp] theorem weight_del {G : Type*} [AddCommGroup G] (f : α → G) (a : α) :
    (Change.del a).weight f = - f a := rfl

end Change

theorem Change.Expands.congr {f g : α → Multiset β} {c : Change α} {cs : List (Change β)}
    (h : c.Expands f cs) (heq : f c.elem = g c.elem) : c.Expands g cs := by
  cases c with
  | ins a =>
    obtain ⟨l, hl, hcs⟩ := h
    exact ⟨l, hl.trans heq, hcs⟩
  | del a =>
    obtain ⟨l, hl, hcs⟩ := h
    exact ⟨l, hl.trans heq, hcs⟩

theorem Change.Expands.elem_mem {f : α → Multiset β} {a : Change α} {cs : List (Change β)}
    (h : a.Expands f cs) {c : Change β} (hc : c ∈ cs) : c.elem ∈ f a.elem := by
  cases a with
  | ins a =>
    obtain ⟨l, hl, rfl⟩ := h
    obtain ⟨b, hb, rfl⟩ := mem_map.mp hc
    show b ∈ f a
    rw [← hl]
    exact Multiset.mem_coe.mpr hb
  | del a =>
    obtain ⟨l, hl, rfl⟩ := h
    obtain ⟨b, hb, rfl⟩ := mem_map.mp hc
    show b ∈ f a
    rw [← hl]
    exact Multiset.mem_coe.mpr hb

theorem Change.mem_of_expands {f : α → Multiset β} {cs : List (Change α)}
    {out : List (List (Change β))} (hout : List.Forall₂ (Change.Expands f) cs out)
    {c : Change β} (hc : c ∈ out.flatten) : ∃ a ∈ cs, c.elem ∈ f a.elem := by
  induction hout with
  | nil => cases hc
  | @cons a os cs out hhead _ ih =>
    rw [flatten_cons, mem_append] at hc
    rcases hc with hc | hc
    · exact ⟨a, mem_cons_self, hhead.elem_mem hc⟩
    · obtain ⟨a', ha', hmem⟩ := ih hc
      exact ⟨a', mem_cons_of_mem _ ha', hmem⟩

theorem map_filter_eq_bind (M : Multiset α) (p : α → Prop) [DecidablePred p]
    (f : α → β) : (M.filter p).map f = M.bind fun a => if p a then {f a} else 0 := by
  induction M using Multiset.induction with
  | empty => rfl
  | cons a M ih =>
    rw [Multiset.cons_bind, ← ih]
    by_cases hp : p a
    · rw [Multiset.filter_cons_of_pos _ hp, Multiset.map_cons, if_pos hp]
      rfl
    · rw [Multiset.filter_cons_of_neg _ hp, if_neg hp, zero_add]

/-! ## Lists of changes between two bags -/

/-- `Applies m cs m'`: processing the changes `cs` one after another leads from `m` to `m'`. A
    deletion needs its element to be present at the moment it is processed, so there is no way to
    delete what is not there. -/
inductive Applies : Multiset α → List (Change α) → Multiset α → Prop where
  | nil (m : Multiset α) : Applies m [] m
  | ins {a : α} {m m' : Multiset α} {cs : List (Change α)} :
      Applies (a ::ₘ m) cs m' → Applies m (.ins a :: cs) m'
  | del {a : α} {m m' : Multiset α} {cs : List (Change α)} :
      Applies m cs m' → Applies (a ::ₘ m) (.del a :: cs) m'

namespace Applies

theorem nil_iff {m m' : Multiset α} : Applies m [] m' ↔ m = m' := by
  constructor
  · intro h
    cases h
    rfl
  · rintro rfl
    exact .nil m

theorem ins_iff {a : α} {m m' : Multiset α} {cs : List (Change α)} :
    Applies m (.ins a :: cs) m' ↔ Applies (a ::ₘ m) cs m' := by
  constructor
  · intro h
    cases h with
    | ins h => exact h
  · exact .ins

theorem del_iff {a : α} {m m' : Multiset α} {cs : List (Change α)} :
    Applies m (.del a :: cs) m' ↔ ∃ m₀, m = a ::ₘ m₀ ∧ Applies m₀ cs m' := by
  constructor
  · intro h
    cases h with
    | del h => exact ⟨_, rfl, h⟩
  · rintro ⟨m₀, rfl, h⟩
    exact .del h

theorem forall_mem {m m' : Multiset α} {cs : List (Change α)} (h : Applies m cs m') {P : α → Prop}
    (hm : ∀ a ∈ m, P a) (hcs : ∀ c ∈ cs, P c.elem) : ∀ a ∈ m', P a := by
  induction h with
  | nil m => exact hm
  | @ins a m m' cs _ ih =>
    refine ih (Multiset.forall_mem_cons.mpr ⟨hcs _ mem_cons_self, hm⟩) fun c hc => ?_
    exact hcs c (mem_cons_of_mem _ hc)
  | @del a m m' cs _ ih =>
    refine ih (fun b hb => hm b (Multiset.mem_cons_of_mem hb)) fun c hc => ?_
    exact hcs c (mem_cons_of_mem _ hc)

/-- Changes are processed in order, so two lists compose. -/
theorem append {m m' m'' : Multiset α} {cs ds : List (Change α)}
    (h : Applies m cs m') (h' : Applies m' ds m'') : Applies m (cs ++ ds) m'' := by
  induction h with
  | nil m => exact h'
  | ins _ ih => exact .ins (ih h')
  | del _ ih => exact .del (ih h')

theorem append_iff {m m'' : Multiset α} {cs ds : List (Change α)} :
    Applies m (cs ++ ds) m'' ↔ ∃ m', Applies m cs m' ∧ Applies m' ds m'' := by
  constructor
  · intro h
    induction cs generalizing m with
    | nil => exact ⟨m, .nil m, h⟩
    | cons c cs ih =>
      cases h with
      | ins h =>
        obtain ⟨m', h₁, h₂⟩ := ih h
        exact ⟨m', .ins h₁, h₂⟩
      | del h =>
        obtain ⟨m', h₁, h₂⟩ := ih h
        exact ⟨m', .del h₁, h₂⟩
  · rintro ⟨m', h₁, h₂⟩
    exact h₁.append h₂

theorem unique {m m₁ m₂ : Multiset α} {cs : List (Change α)}
    (h₁ : Applies m cs m₁) (h₂ : Applies m cs m₂) : m₁ = m₂ := by
  induction h₁ with
  | nil m => exact nil_iff.mp h₂
  | ins _ ih => exact ih (ins_iff.mp h₂)
  | del _ ih =>
    obtain ⟨m₀, hm, h⟩ := del_iff.mp h₂
    rw [Multiset.cons_inj_right] at hm
    subst hm
    exact ih h

theorem add_right {m m' : Multiset α} {cs : List (Change α)} (h : Applies m cs m')
    (k : Multiset α) : Applies (m + k) cs (m' + k) := by
  induction h with
  | nil m => exact .nil _
  | ins _ ih =>
    rw [Multiset.cons_add] at ih
    exact .ins ih
  | del _ ih =>
    rw [Multiset.cons_add]
    exact .del ih

theorem ins_list (m : Multiset α) (l : List α) : Applies m (l.map .ins) (m + (l : Multiset α)) := by
  induction l generalizing m with
  | nil => simpa using Applies.nil m
  | cons a l ih =>
    have h := ih (a ::ₘ m)
    rw [Multiset.cons_add, ← Multiset.add_cons, Multiset.cons_coe] at h
    exact .ins h

theorem del_list (m : Multiset α) (l : List α) : Applies (m + (l : Multiset α)) (l.map .del) m := by
  induction l with
  | nil => simpa using Applies.nil m
  | cons a l ih =>
    rw [← Multiset.cons_coe, Multiset.add_cons]
    exact .del ih

/-- **Delta rule for element-wise operations.** If an operation sends a bag to the sum of `f a` over
    its elements, then replacing every change by changes for `f a` turns the changes of the input
    into changes of the output. -/
theorem bind {m m' : Multiset α} {cs : List (Change α)} {f : α → Multiset β}
    {out : List (List (Change β))} (h : Applies m cs m')
    (hout : List.Forall₂ (Change.Expands f) cs out) :
    Applies (m.bind f) out.flatten (m'.bind f) := by
  induction h generalizing out with
  | nil m =>
    cases hout
    exact .nil _
  | @ins a m m' cs _ ih =>
    obtain ⟨os, out, ⟨l, hl, rfl⟩, hrest, rfl⟩ := forall₂_cons_left_iff.mp hout
    have h := ih hrest
    rw [Multiset.cons_bind, add_comm, ← hl] at h
    exact (ins_list _ l).append h
  | @del a m m' cs _ ih =>
    obtain ⟨os, out, ⟨l, hl, rfl⟩, hrest, rfl⟩ := forall₂_cons_left_iff.mp hout
    rw [Multiset.cons_bind, add_comm, ← hl]
    exact (del_list _ l).append (ih hrest)

theorem map {m m' : Multiset α} {cs : List (Change α)} (h : Applies m cs m') (f : α → β) :
    Applies (m.map f) (cs.map (Change.map f)) (m'.map f) := by
  induction h with
  | nil m => exact .nil _
  | ins _ ih =>
    rw [Multiset.map_cons] at ih
    exact .ins ih
  | del _ ih =>
    rw [Multiset.map_cons]
    exact .del ih

theorem filter {m m' : Multiset α} {cs : List (Change α)} (h : Applies m cs m')
    (p : α → Prop) [DecidablePred p] :
    Applies (m.filter p) (cs.filter fun c => p c.elem) (m'.filter p) := by
  induction h with
  | nil m => exact .nil _
  | @ins a m m' cs _ ih =>
    by_cases hp : p a
    · rw [Multiset.filter_cons_of_pos _ hp] at ih
      simpa [hp] using ih.ins
    · simpa [hp] using ih
  | @del a m m' cs _ ih =>
    by_cases hp : p a
    · simpa [hp] using ih.del (a := a)
    · simpa [hp] using ih

theorem sum_groups {ι : Type*} [DecidableEq ι] (S : Finset ι) {l : List ι} (hl : l.Nodup)
    (hS : ∀ i ∈ l, i ∈ S) {F F' : ι → Multiset α} {ch : ι → List (Change α)}
    (h : ∀ i ∈ l, Applies (F i) (ch i) (F' i)) (hsame : ∀ i ∈ S, i ∉ l → F i = F' i) :
    Applies (∑ i ∈ S, F i) (l.map ch).flatten (∑ i ∈ S, F' i) := by
  induction l generalizing F with
  | nil =>
    rw [Finset.sum_congr rfl fun i hi => hsame i hi (by simp)]
    exact .nil _
  | cons i l ih =>
    rw [nodup_cons] at hl
    have hi : i ∈ S := hS i mem_cons_self
    -- the sum after group `i` has changed and before the groups of `l` do
    have hrest : Applies (∑ j ∈ S, Function.update F i (F' i) j) (l.map ch).flatten
        (∑ j ∈ S, F' j) := by
      refine ih hl.2 (forall_mem_cons.mp hS).2 ?_ ?_
      · intro j hj
        have hji : j ≠ i := by rintro rfl; exact hl.1 hj
        rw [Function.update_of_ne hji]
        exact h j (mem_cons_of_mem _ hj)
      · intro j hjS hj
        by_cases hji : j = i
        · rw [hji, Function.update_self]
        · rw [Function.update_of_ne hji]
          exact hsame j hjS (by simp [hji, hj])
    have hfirst := (h i mem_cons_self).add_right (∑ j ∈ S.erase i, F j)
    rw [Finset.add_sum_erase S F hi] at hfirst
    have hmid : F' i + ∑ j ∈ S.erase i, F j = ∑ j ∈ S, Function.update F i (F' i) j := by
      rw [← Finset.add_sum_erase S _ hi, Function.update_self]
      congr 1
      refine Finset.sum_congr rfl fun j hj => ?_
      rw [Function.update_of_ne (Finset.ne_of_mem_erase hj)]
    rw [hmid] at hfirst
    exact hfirst.append hrest

theorem sum_eq {G : Type*} [AddCommGroup G] {m m' : Multiset α} {cs : List (Change α)}
    (h : Applies m cs m') (f : α → G) :
    (m'.map f).sum = (m.map f).sum + (cs.map (Change.weight f)).sum := by
  induction h with
  | nil m => simp
  | ins _ ih =>
    rw [ih]
    simp only [Multiset.map_cons, Multiset.sum_cons, map_cons, sum_cons,
      Change.weight_ins]
    abel
  | del _ ih =>
    rw [ih]
    simp only [Multiset.map_cons, Multiset.sum_cons, map_cons, sum_cons,
      Change.weight_del]
    abel

end Applies

theorem exists_map_of_coe_eq {f : α → β} {l : List β} {m : Multiset α}
    (h : (l : Multiset β) = m.map f) : ∃ l' : List α, (l' : Multiset α) = m ∧ l = l'.map f := by
  induction m using Quot.inductionOn with
  | h l₀ =>
    have hperm : l.Perm (l₀.map f) := Multiset.coe_eq_coe.mp h
    obtain ⟨l', hl', hp⟩ : Relation.Comp (· = List.map f ·) List.Perm l l₀ := by
      rw [eq_map_comp_perm]
      exact hperm
    exact ⟨l', Multiset.coe_eq_coe.mpr hp, hl'⟩

end Bag

import Mathlib.Data.List.Lex
import Mathlib.Order.Lattice
import Noria.Data

/-! # The order on data of one kind

  `DataType::cmp` calls values of different kinds greater than each other, so it is not an order. On
  values of one kind it is: it compares their ranks (`DataType.cmp_compares`), and equal ranks are
  equal values (`DataType.rank_inj`). The same holds of rows, column by column.
-/

namespace Noria

open Ordering List

variable {r s : Row} {a b : DataType}

/-! ## Lists in lexicographic order -/

/-- The first difference decides. -/
theorem Compares.cons {α : Type*} [LinearOrder α] {o o' : Ordering} {a b : α} {as bs : List α}
    (h : o.Compares a b) (h' : o'.Compares as bs) : (o.then o').Compares (a :: as) (b :: bs) := by
  cases o with
  | lt => exact List.Lex.rel h
  | gt => exact List.Lex.rel h
  | eq =>
    obtain rfl : a = b := h
    cases o' with
    | lt => exact List.Lex.cons h'
    | gt => exact List.Lex.cons h'
    | eq => exact congrArg (a :: ·) h'

theorem compare_compares (x y : Int) : (compare x y).Compares x y := (compare_iff x y).mp rfl

theorem compare_compares_single (x y : Int) : (compare x y).Compares [x] [y] := by
  have hnil : Ordering.eq.Compares ([] : List Int) [] := rfl
  have h := Compares.cons (compare_compares x y) hnil
  cases hc : compare x y <;> rw [hc] at h <;> exact h

/-! ## Values of one kind -/

/-- What values can be compared with each other. -/
inductive Kind where
  | none
  | int
  | real
  | text
  | timestamp
  deriving DecidableEq

def DataType.kind : DataType → Kind
  | .none => .none
  | .int _ | .unsignedInt _ | .bigInt _ | .unsignedBigInt _ => .int
  | .real _ _ => .real
  | .text _ | .tinyText _ => .text
  | .timestamp _ => .timestamp

/-- Bytes as numbers. -/
def byteRank (bytes : List UInt8) : List Int := bytes.map fun b => (b.toNat : Int)

/-- The place of a value among those of its kind. -/
def DataType.rank : DataType → List Int
  | .none => []
  | .int v => [v.toInt]
  | .unsignedInt v => [(v.toNat : Int)]
  | .bigInt v => [v.toInt]
  | .unsignedBigInt v => [(v.toNat : Int)]
  | .real i f => [i.toInt, f.toInt]
  | .text s => byteRank s.bytes
  | .tinyText s => byteRank s.bytes
  | .timestamp t => [t.secs, (t.nanos.val : Int)]

theorem compareBytes_compares (a b : List UInt8) :
    (compareBytes a b).Compares (byteRank a) (byteRank b) := by
  induction a generalizing b with
  | nil =>
    cases b with
    | nil => rfl
    | cons y b => exact List.Lex.nil
  | cons x a ih =>
    cases b with
    | nil => exact List.Lex.nil
    | cons y b =>
      show ((compare x.toNat y.toNat).then (compareBytes a b)).Compares
        ((x.toNat : Int) :: byteRank a) (y.toNat :: byteRank b)
      rw [compare_natCast]
      exact Compares.cons (compare_compares _ _) (ih b)

/-- A long text has no NUL byte, so it does not matter whether an inline
    text is cut at its first one. -/
theorem compareBytes_tinyStr {a b : List UInt8} (ha : (0 : UInt8) ∉ a)
    (hlen : b.length < a.length) : compareBytes a (tinyStr b) = compareBytes a b := by
  unfold tinyStr
  split
  · clear * - ha hlen
    induction b generalizing a with
    | nil => rfl
    | cons y b ih =>
      cases a with
      | nil => simp at hlen
      | cons x a =>
        simp only [mem_cons, not_or] at ha
        by_cases hy : y = 0
        · -- the cut: what is left is shorter, and the byte is smaller
          subst hy
          have hx : 0 < x.toNat := by
            rw [Nat.pos_iff_ne_zero]
            exact fun h => ha.1 (UInt8.toNat_inj.mp h).symm
          have hgt : compare x.toNat (0 : UInt8).toNat = .gt := compare_gt_iff_gt.mpr hx
          show Ordering.gt = (compare x.toNat (0 : UInt8).toNat).then (compareBytes a b)
          rw [hgt]
          rfl
        · have htake : (y :: b).takeWhile (· != 0) = y :: b.takeWhile (· != 0) := by
            simp [hy]
          rw [htake]
          simp only [compareBytes]
          rw [ih ha.2 (by simpa using hlen)]
  · rfl

theorem compareBytes_swap (a b : List UInt8) : compareBytes a b = (compareBytes b a).swap :=
  (compareBytes_compares a b).inj (compares_swap.mpr (compareBytes_compares b a))

theorem text_tiny_compares (s : ArcCStr) (t : TinyBytes) :
    (compareBytes s.bytes t.to_str).Compares (byteRank s.bytes) (byteRank t.bytes) := by
  unfold TinyBytes.to_str
  rw [compareBytes_tinyStr s.nul_free (by rw [t.width]; exact s.long)]
  exact compareBytes_compares _ _

/-- **On one kind, data is compared by rank.** -/
theorem DataType.cmp_compares (h : a.kind = b.kind) : (a.cmp b).Compares a.rank b.rank := by
  unfold DataType.cmp
  cases a <;> cases b <;> first | (cases h; done) | simp only [DataType.to_i128,
    DataType.rank, NaiveDateTime.cmp, compare_natCast]
  case none.none => rfl
  case real.real =>
    exact Compares.cons (compare_compares _ _) (compare_compares_single _ _)
  case timestamp.timestamp =>
    exact Compares.cons (compare_compares _ _) (compare_compares_single _ _)
  case text.text => exact compareBytes_compares _ _
  case tinyText.tinyText => exact compareBytes_compares _ _
  case text.tinyText s t => exact text_tiny_compares s t
  case tinyText.text t s =>
    rw [compareBytes_swap]
    exact compares_swap.mpr (text_tiny_compares s t)
  -- the sixteen pairs of integers
  all_goals exact compare_compares_single _ _

theorem byteRank_inj {a b : List UInt8} : byteRank a = byteRank b ↔ a = b := by
  refine (map_injective_iff.mpr ?_).eq_iff
  intro x y hxy
  exact UInt8.toNat_inj.mp (Int.natCast_inj.mp hxy)

theorem ArcCStr.bytes_ne (s : ArcCStr) (t : TinyBytes) : s.bytes ≠ t.bytes := by
  intro heq
  have hlong := s.long
  rw [heq, t.width] at hlong
  exact Nat.lt_irrefl _ hlong

theorem NaiveDateTime.eq_iff (s t : NaiveDateTime) :
    s = t ↔ s.secs = t.secs ∧ (s.nanos.val : Int) = t.nanos.val := by
  obtain ⟨s, n⟩ := s
  obtain ⟨t, m⟩ := t
  rw [NaiveDateTime.mk.injEq, Int.natCast_inj, Fin.val_inj]

theorem DataType.rank_inj (h : a.kind = b.kind) : a.rank = b.rank ↔ a.val = b.val := by
  cases a <;> cases b <;> first | (cases h; done) | simp [DataType.rank, DataType.val,
    byteRank_inj, ArcCStr.bytes_ne, (ArcCStr.bytes_ne _ _).symm, NaiveDateTime.eq_iff]

theorem DataType.eq_of_val (h : a.val = b.val) (hint : a.kind ≠ .int) : a = b := by
  cases a <;> cases b <;> first | exact absurd rfl hint | simp only [DataType.val, reduceCtorEq,
    Value.real.injEq, Value.text.injEq, Value.tinyText.injEq, Value.timestamp.injEq,
    Int64.toInt_inj, Int32.toInt_inj] at h
  case none.none => rfl
  case real.real => rw [h.1, h.2]
  case text.text => rw [ArcCStr.ext_bytes h]
  case tinyText.tinyText => rw [TinyBytes.ext_bytes h]
  case timestamp.timestamp => rw [h]

/-! ## Rows with columns of one kind -/

def Row.cmp : Row → Row → Ordering
  | [], [] => .eq
  | [], _ :: _ => .lt
  | _ :: _, [] => .gt
  | a :: r, b :: s => (a.cmp b).then (Row.cmp r s)

def Row.kinds (r : Row) : List Kind := r.map DataType.kind

def Row.rank (r : Row) : List (List Int) := r.map DataType.rank

theorem Row.cmp_compares (h : r.kinds = s.kinds) : (Row.cmp r s).Compares r.rank s.rank := by
  induction r generalizing s with
  | nil =>
    cases s with
    | nil => rfl
    | cons b s => cases h
  | cons a r ih =>
    cases s with
    | nil => cases h
    | cons b s =>
      obtain ⟨hab, hrs⟩ := cons_eq_cons.mp h
      exact Compares.cons (DataType.cmp_compares hab) (ih hrs)

theorem Row.rank_inj (h : r.kinds = s.kinds) : r.rank = s.rank ↔ r.val = s.val := by
  induction r generalizing s with
  | nil =>
    cases s with
    | nil => exact ⟨fun _ => rfl, fun _ => rfl⟩
    | cons b s => cases h
  | cons a r ih =>
    cases s with
    | nil => cases h
    | cons b s =>
      obtain ⟨hab, hrs⟩ := cons_eq_cons.mp h
      show a.rank :: Row.rank r = b.rank :: Row.rank s ↔ a.val :: Row.val r = b.val :: Row.val s
      rw [cons_eq_cons, cons_eq_cons, DataType.rank_inj hab, ih hrs]

/-- Values of different kinds are greater than each other. -/
theorem DataType.cmp_of_kind_ne (h : a.kind ≠ b.kind) : a.cmp b = .gt := by
  cases a <;> cases b <;> first | exact absurd rfl h | rfl

theorem DataType.kind_of_val (h : a.val = b.val) : a.kind = b.kind := by
  cases a <;> cases b <;> first | rfl | cases h

/-- Whatever its kinds, `cmp` finds two values equal only if they are. -/
theorem DataType.cmp_eq_iff (a b : DataType) : a.cmp b = .eq ↔ a.val = b.val := by
  by_cases hk : a.kind = b.kind
  · rw [← DataType.rank_inj hk]
    exact (DataType.cmp_compares hk).eq_eq
  · rw [DataType.cmp_of_kind_ne hk]
    exact iff_of_false (fun h => by cases h) fun h => hk (DataType.kind_of_val h)

theorem Row.cmp_eq_iff (r s : Row) : Row.cmp r s = .eq ↔ Row.val r = Row.val s := by
  induction r generalizing s with
  | nil => cases s <;> simp [Row.cmp]
  | cons a r ih =>
    cases s with
    | nil => simp [Row.cmp]
    | cons b s =>
      rw [Row.cmp, Ordering.then_eq_eq, DataType.cmp_eq_iff, ih, Row.val_cons, Row.val_cons,
        cons_eq_cons]

/-! ## The laws of an order

  The loops that sort a batch and then walk over its groups need `cmp` to
  be a total order. It is one exactly on values of one kind.
-/

/-- The laws of `Ord`, on some values. -/
structure LawfulOn (values : List DataType) : Prop where
  eq_swap : ∀ a ∈ values, ∀ b ∈ values, a.cmp b = (b.cmp a).swap
  isLE_trans : ∀ a ∈ values, ∀ b ∈ values, ∀ c ∈ values,
    (a.cmp b).isLE → (b.cmp c).isLE → (a.cmp c).isLE
  eq_iff_beq : ∀ a ∈ values, ∀ b ∈ values, a.cmp b = .eq ↔ (a == b) = true

theorem DataType.isLE_cmp (h : a.kind = b.kind) : (a.cmp b).isLE ↔ a.rank ≤ b.rank := by
  have hcmp := DataType.cmp_compares h
  cases ho : a.cmp b with
  | lt =>
    rw [ho] at hcmp
    exact iff_of_true rfl (le_of_lt hcmp)
  | eq =>
    rw [ho] at hcmp
    exact iff_of_true rfl (le_of_eq hcmp)
  | gt =>
    rw [ho] at hcmp
    exact iff_of_false Bool.false_ne_true (not_le_of_gt hcmp)

theorem LawfulOn.of_kind {values : List DataType} {k : Kind} (h : ∀ a ∈ values, a.kind = k) :
    LawfulOn values where
  eq_swap a ha b hb := by
    have hk : a.kind = b.kind := (h a ha).trans (h b hb).symm
    exact (DataType.cmp_compares hk).inj (compares_swap.mpr (DataType.cmp_compares hk.symm))
  isLE_trans a ha b hb c hc hab hbc := by
    rw [DataType.isLE_cmp ((h _ ‹_›).trans (h _ ‹_›).symm)] at hab hbc ⊢
    exact hab.trans hbc
  eq_iff_beq a _ b _ := (DataType.cmp_eq_iff a b).trans (DataType.beq_iff_val a b).symm

/-- **The order is lawful on values of one kind, and on no others.** -/
theorem lawful_iff_one_kind (a b c : DataType) :
    LawfulOn [a, b, c] ↔ a.kind = b.kind ∧ b.kind = c.kind := by
  constructor
  · intro h
    -- two kinds would be greater than each other
    have hkind : ∀ x ∈ [a, b, c], ∀ y ∈ [a, b, c], x.kind = y.kind := by
      intro x hx y hy
      by_contra hne
      have hswap := h.eq_swap x hx y hy
      rw [DataType.cmp_of_kind_ne hne, DataType.cmp_of_kind_ne (Ne.symm hne)] at hswap
      cases hswap
    exact ⟨hkind a (by simp) b (by simp), hkind b (by simp) c (by simp)⟩
  · intro ⟨hab, hbc⟩
    apply LawfulOn.of_kind (k := c.kind)
    intro x hx
    simp only [mem_cons, not_mem_nil, or_false] at hx
    rcases hx with rfl | rfl | rfl
    · exact hab.trans hbc
    · exact hbc
    · rfl

theorem integers_lawful : LawfulOn [.int (-1), .unsignedBigInt 18446744073709551615, .bigInt 7] :=
  (lawful_iff_one_kind _ _ _).mpr ⟨rfl, rfl⟩

/-- An integer and NULL are greater than each other. -/
theorem integer_and_null_unordered :
    DataType.cmp (.int 1) .none = .gt ∧ DataType.cmp .none (.int 1) = .gt ∧
      ¬ LawfulOn [.int 1, .none, .none] := by
  refine ⟨rfl, rfl, ?_⟩
  intro h
  have hswap := h.eq_swap (.int 1) (by simp) .none (by simp)
  exact absurd hswap (by decide)

end Noria

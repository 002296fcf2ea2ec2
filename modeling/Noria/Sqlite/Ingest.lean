import Noria.Sqlite.Engine
import Noria.Sqlite.Reals

/-! # Ingestion of SQLite values

  Three places of `noria-sqlite` turn a value of SQLite into a `DataType`: the loader of tables and
  single rows (`dataflow/adapter.rs`), the decoder of session changesets (`dataflow/session.rs`),
  and the upquery (`dataflow/engine.rs`). They agree on everything but blobs.
-/

namespace Noria.Sqlite

open List

/-- Doubles as the exact numbers they stand for. No timestamp comes from
    SQLite, so there is no text of one. -/
def exactReals : ValueEnv ℚ where
  int_part f := saturate (truncate f)
  frac_part f := Int32.ofInt ⌊|fraction f| * 1000000000⌋
  of_parts i f := i.toInt + f.toInt / 1000000000
  timestamp_text _ := []

/-- A value in `row_to_datatypes` of the adapter. -/
def loaded_value : SqliteValue ℚ → Option DataType
  | .null => some .none
  | .integer i => some (.bigInt i)
  | .real f => some (encode_real f)
  | .text s => DataType.from_str ((from_utf8 s).getD "")
  -- store blob as text for now
  | .blob b => DataType.from_str ("BLOB:" ++ toString b.length)

def row_to_datatypes (row : SqliteRow ℚ) : Option Row := row.mapM loaded_value

/-- Convert a rusqlite ValueRef to DataType. -/
def valueref_to_datatype : SqliteValue ℚ → Option DataType
  | .null => some .none
  | .integer i => some (.bigInt i)
  | .real f => some (encode_real f)
  | .text s => DataType.from_str ((from_utf8 s).getD "")
  -- skip blobs for now
  | .blob _ => some .none

/-- A value in `upquery` of the engine. -/
def upquery_value : SqliteValue ℚ → Option DataType := SqliteValue.to_datatype exactReals

/-- The three ways a value comes in. -/
def ingestions : List (SqliteValue ℚ → Option DataType) :=
  [loaded_value, valueref_to_datatype, upquery_value]

/-- The loader stores the length of a blob as a text. -/
theorem loaded_blob (b : List UInt8) : loaded_value (.blob b) ≠ some .none := by
  intro h
  have hnone : ∀ b, DataType.try_from b ≠ .ok .none := by
    intro b hb
    unfold DataType.try_from at hb
    split at hb
    · cases hb
    · split at hb <;> cases hb
  change DataType.from_str _ = _ at h
  unfold DataType.from_str at h
  split at h
  · next hok =>
    cases h
    exact hnone _ hok
  · cases h

theorem ingestions_agree {v : SqliteValue ℚ} (h : ∀ b, v ≠ .blob b) :
    loaded_value v = upquery_value v ∧ valueref_to_datatype v = upquery_value v := by
  cases v with
  | blob b => exact absurd rfl (h b)
  | _ => exact ⟨rfl, rfl⟩

theorem ingest_real {ingest : SqliteValue ℚ → Option DataType} (h : ingest ∈ ingestions) (f : ℚ) :
    ingest (.real f) = some (encode_real f) := by
  simp only [ingestions, mem_cons, not_mem_nil, or_false] at h
  rcases h with rfl | rfl | rfl
  · rfl
  · rfl
  · rfl

/-- **Where the three encoders agree, and which reals they tell apart.** -/
theorem ingestion_agrees_iff (v : SqliteValue ℚ) (x y : ℚ) (hx : NineDecimals x)
    (hy : NineDecimals y) (hne : x ≠ y) :
    ((∀ f ∈ ingestions, ∀ g ∈ ingestions, f v = g v) ↔ ∀ b, v ≠ .blob b) ∧
    ((∀ f ∈ ingestions, ∀ g ∈ ingestions, ∀ d d', f (.real x) = some d → g (.real y) = some d' →
      (d == d') = false) ↔ ¬ Confused x y) := by
  constructor
  · constructor
    · rintro h b rfl
      exact loaded_blob b
        (h loaded_value (by simp [ingestions]) upquery_value (by simp [ingestions]))
    · intro h
      have hall : ∀ f ∈ ingestions, f v = upquery_value v := by
        obtain ⟨hload, hsession⟩ := ingestions_agree h
        simp only [ingestions, forall_mem_cons]
        exact ⟨hload, hsession, trivial, fun _ h => absurd h not_mem_nil⟩
      intro f hf g hg
      rw [hall f hf, hall g hg]
  · rw [← encode_real_confused hx hy hne, Bool.not_eq_true]
    constructor
    · intro h
      have hmem : upquery_value ∈ ingestions := by simp [ingestions]
      exact h _ hmem _ hmem _ _ rfl rfl
    · intro h f hf g hg d d' hd hd'
      rw [ingest_real hf, Option.some.injEq] at hd
      rw [ingest_real hg, Option.some.injEq] at hd'
      rw [← hd, ← hd']
      exact h

theorem truncate_half : truncate (1 / 2) = 0 :=
  truncate_eq (by norm_num) (by norm_num) (by norm_num)

theorem halves_apart : (∀ f ∈ ingestions, ∀ g ∈ ingestions, f (.real (1 / 2)) = g (.real (1 / 2))) ∧
    ∀ f ∈ ingestions, ∀ g ∈ ingestions, ∀ d d', f (.real (1 / 2)) = some d →
      g (.real (3 / 2)) = some d' → (d == d') = false := by
  have hagree := ingestion_agrees_iff (.real (1 / 2)) (1 / 2) (3 / 2) ⟨500000000, by norm_num⟩
    ⟨1500000000, by norm_num⟩ (by norm_num)
  have hone : truncate (3 / 2) = 1 := truncate_eq (by norm_num) (by norm_num) (by norm_num)
  refine ⟨hagree.1.mpr (fun b h => by cases h), hagree.2.mpr ?_⟩
  rintro ⟨-, hends⟩
  omega

/-- A blob is a text in one place and NULL in another; and a half and minus
    a half have the same encoding. -/
theorem blobs_and_signs_differ : loaded_value (.blob [1, 2]) ≠ upquery_value (.blob [1, 2]) ∧
      upquery_value (.real (-(1 / 2))) = upquery_value (.real (1 / 2)) := by
  refine ⟨loaded_blob _, ?_⟩
  show some (encode_real (-(1 / 2))) = some (encode_real (1 / 2))
  rw [encode_real_neg truncate_half]

end Noria.Sqlite

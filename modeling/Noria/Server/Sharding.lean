import Noria.Server.Domain.Walk
import Noria.Text

/-! # Hashing and sharding agree with equality

  Equal integers may have four representations, and `Hash` and `shard_by`
  look at each of them separately. Both read the number modulo 2^64, so
  equal data is hashed alike and sent to the same shard.
-/

namespace Noria

open List

variable {d : DataType}

/-! ## Hashing -/

/-- What `Hash for DataType` calls on a `Hasher`. The last two stand for what
    `Hash for str` and `Hash for NaiveDateTime` call. -/
structure Hasher (σ : Type) where
  write_i64 : σ → Int64 → σ
  write_u64 : σ → UInt64 → σ
  write_i32 : σ → Int32 → σ
  write_str : σ → String → σ
  write_timestamp : σ → NaiveDateTime → σ

/-- An `i64` and a `u64` with the same bits are fed alike. -/
def Hasher.Alike {σ : Type} (H : Hasher σ) : Prop :=
  ∀ state n, H.write_i64 state n = H.write_u64 state n.toUInt64

/-- `Hash for DataType`; `none` where the conversion to a `str` panics. -/
def DataType.hash {σ : Type} (H : Hasher σ) (state : σ) : DataType → Option σ
  | .none => some state
  | .int n => some (H.write_i64 state n.toInt64)
  | .bigInt n => some (H.write_i64 state n)
  | .unsignedInt n => some (H.write_u64 state n.toUInt64)
  | .unsignedBigInt n => some (H.write_u64 state n)
  | .real i f => some (H.write_i32 (H.write_i64 state i) f)
  | .text s => (DataType.text s).to_str.map (H.write_str state)
  | .tinyText s => (DataType.tinyText s).to_str.map (H.write_str state)
  | .timestamp ts => some (H.write_timestamp state ts)

/-! ### Numbers modulo 2^64 -/

theorem emod_of_lt {n : Nat} (h : n < 2 ^ 64) : ((n : Int) % 2 ^ 64).toNat = n := by
  omega

theorem ofInt_unsigned (v : UInt64) : UInt64.ofInt v.toNat = v := by
  unfold UInt64.ofInt
  rw [emod_of_lt v.toNat_lt, UInt64.ofNat_toNat]

theorem ofInt_signed (v : Int64) : UInt64.ofInt v.toInt = v.toUInt64 := by
  have hbits : v.toBitVec = BitVec.ofInt 64 v.toInt := BitVec.ofInt_toInt.symm
  have hnat : v.toUInt64.toNat = (v.toInt % 2 ^ 64).toNat := by
    show v.toBitVec.toNat = _
    rw [hbits, BitVec.toNat_ofInt]
    rfl
  unfold UInt64.ofInt
  rw [← hnat, UInt64.ofNat_toNat]

section Hash

variable {σ : Type} {H : Hasher σ}

/-- Integers are hashed by their number modulo 2^64. -/
theorem DataType.hash_of_int (hH : H.Alike) (state : σ) {n : Int} (h : d.val = .int n) :
    d.hash H state = some (H.write_u64 state (UInt64.ofInt n)) := by
  cases d <;> cases h
  case int v =>
    show some (H.write_i64 state v.toInt64) = _
    rw [hH, ← ofInt_signed, Int32.toInt_toInt64]
  case unsignedInt v =>
    show some (H.write_u64 state v.toUInt64) = _
    rw [← ofInt_unsigned v.toUInt64, UInt32.toNat_toUInt64]
  case bigInt v =>
    show some (H.write_i64 state v) = _
    rw [hH, ofInt_signed]
  case unsignedBigInt v =>
    show some (H.write_u64 state v) = _
    rw [ofInt_unsigned]

theorem DataType.hash_isSome (state : σ) (h : d.Built) : ∃ fed, d.hash H state = some fed := by
  cases d with
  | text s =>
    obtain ⟨t, ht⟩ := h.to_str rfl
    exact ⟨H.write_str state t, by rw [DataType.hash, ht]; rfl⟩
  | tinyText s =>
    obtain ⟨t, ht⟩ := h.to_str rfl
    exact ⟨H.write_str state t, by rw [DataType.hash, ht]; rfl⟩
  | _ => exact ⟨_, rfl⟩

theorem DataType.val_of_kind_int (h : d.kind = .int) : ∃ n, d.val = .int n := by
  cases d <;> first | (cases h; done) | exact ⟨_, rfl⟩

theorem DataType.hash_eq (hH : H.Alike) (state : σ) {a b : DataType} (ha : a.Built)
    (h : a.val = b.val) : ∃ fed, a.hash H state = some fed ∧ b.hash H state = some fed := by
  by_cases hint : a.kind = .int
  · obtain ⟨n, hn⟩ := DataType.val_of_kind_int hint
    exact ⟨_, hash_of_int hH state hn, hash_of_int hH state (h ▸ hn)⟩
  · obtain ⟨fed, hfed⟩ := hash_isSome state ha
    obtain rfl := eq_of_val h hint
    exact ⟨fed, hfed, hfed⟩

end Hash

/-! ## Sharding -/

namespace Server.Domain

/-- Integers are sharded by their number modulo 2^64. -/
theorem shard_by_of_int (hash_text : List UInt8 → Nat) {n : Int} {shards : Nat} (hpos : 1 ≤ shards)
    (h : d.val = .int n) : shard_by hash_text d shards = some ((n % 2 ^ 64).toNat % shards) := by
  have hne : shards ≠ 0 := by omega
  cases d <;> cases h
  case int v => exact rem_of_ne_zero hne _
  case bigInt v => exact rem_of_ne_zero hne _
  case unsignedInt v =>
    rw [emod_of_lt (Nat.lt_trans v.toNat_lt (by decide))]
    exact rem_of_ne_zero hne _
  case unsignedBigInt v =>
    rw [emod_of_lt v.toNat_lt]
    exact rem_of_ne_zero hne _

theorem shard_by_eq (hash_text : List UInt8 → Nat) {a b : DataType} {shards : Nat}
    (hpos : 1 ≤ shards) (ha : Shardable a) (h : a.val = b.val) :
    ∃ i < shards, shard_by hash_text a shards = some i ∧ shard_by hash_text b shards = some i := by
  obtain ⟨i, hshard, hi⟩ := shard_by_lt hash_text (Nat.ne_of_gt hpos) ha
  refine ⟨i, hi, hshard, ?_⟩
  by_cases hint : a.kind = .int
  · obtain ⟨n, hn⟩ := DataType.val_of_kind_int hint
    rw [← hshard, shard_by_of_int hash_text hpos hn, shard_by_of_int hash_text hpos (h ▸ hn)]
  · obtain rfl := DataType.eq_of_val h hint
    exact hshard

/-- **Equality, hashing and sharding agree.** The conversion to a `str` that
    the hash and the shard of a text need does not panic. -/
theorem equal_data_agrees {σ : Type} (H : Hasher σ) (hH : H.Alike) (hash_text : List UInt8 → Nat)
    (a b c : DataType) (ha : a.Built) : (a == a) = true ∧ ((a == b) = true → (b == a) = true) ∧
    ((a == b) = true → (b == c) = true → (a == c) = true) ∧
    (a.kind = .text → ∃ s, a.to_str = some s) ∧ ((a == b) = true → ∀ state,
      ∃ fed, a.hash H state = some fed ∧ b.hash H state = some fed) ∧
    (Shardable a → (a == b) = true → ∀ shards ≥ 1, ∃ i < shards,
      shard_by hash_text a shards = some i ∧ shard_by hash_text b shards = some i) := by
  refine ⟨BEq.rfl, BEq.symm, BEq.trans, ha.to_str, ?_, ?_⟩
  · intro h state
    exact DataType.hash_eq hH state ha ((DataType.beq_iff_val a b).mp h)
  · intro hshard h shards hpos
    exact shard_by_eq hash_text hpos hshard ((DataType.beq_iff_val a b).mp h)

/-- A hasher that collects the words it is fed. -/
def collector : Hasher (List UInt64) where
  write_i64 state n := n.toUInt64 :: state
  write_u64 state n := n :: state
  write_i32 state n := n.toInt64.toUInt64 :: state
  write_str state s := (as_bytes s).map UInt8.toUInt64 ++ state
  write_timestamp state ts := UInt64.ofInt ts.secs :: UInt64.ofNat ts.nanos :: state

/-- Minus one, as an `i32` and as an `i64`. -/
theorem minus_one_agrees : (∃ fed, DataType.hash collector [] (.int (-1)) = some fed ∧
      DataType.hash collector [] (.bigInt (-1)) = some fed) ∧
    ∃ i < 3, shard_by length (.int (-1)) 3 = some i ∧
      shard_by length (.bigInt (-1)) 3 = some i := by
  have hequal : (DataType.int (-1) == DataType.bigInt (-1)) = true := by decide
  have hagree := equal_data_agrees collector (fun _ _ => rfl) length (.int (-1)) (.bigInt (-1))
    .none (fun h => by cases h)
  exact ⟨hagree.2.2.2.2.1 hequal [], hagree.2.2.2.2.2 trivial hequal 3 (by decide)⟩

/-! ## Evictions at a sharder -/

namespace Sharder

variable (s : Sharder) (hash_text : List UInt8 → Nat)

/-- The shard of a row; a row without the column is a panic. -/
def to_shard (row : Row) : Option Nat := do
  let dt ← row[s.shard_by]?
  Domain.shard_by hash_text dt s.txs.length

/-- The shard gets rows that have the key in the key columns. -/
def CanHold (key_columns : List Nat) (key : Row) (shard : Nat) : Prop :=
  ∃ row, List.Forall₂ (fun c d => ∃ d', row[c]? = some d' ∧ (d == d') = true) key_columns key ∧
    s.to_shard hash_text row = some shard

variable {s hash_text}

theorem shard_of_canHold {key : Row} {d : DataType} {shard : Nat}
    (h : s.CanHold hash_text [s.shard_by] key shard) (hd : key.head? = some d)
    (hshardable : Shardable d) (htxs : s.txs ≠ []) :
    Domain.shard_by hash_text d s.txs.length = some shard := by
  obtain ⟨row, hrow, hshard⟩ := h
  cases hrow with
  | cons hcol _ =>
    cases hd
    obtain ⟨d', hd', heq⟩ := hcol
    rw [to_shard, hd'] at hshard
    obtain ⟨i, _, hi, hi'⟩ := shard_by_eq hash_text (length_pos_of_ne_nil htxs) hshardable
      ((DataType.beq_iff_val d d').mp heq)
    rw [hi, ← hi']
    exact hshard

end Sharder

/-- **An eviction reaches every shard that can hold one of its keys**, exactly
    if it is for the column that is sharded by and each key has a shard.
    The bound is the one on the length of a `Vec`. -/
theorem sharder_eviction_reaches (s : Sharder) (hash_text : List UInt8 → Nat)
    (key_columns : List Nat) (tag : Tag) (keys : List Row) (src : Nat) (is_sharded : Bool)
    (hlength : key_columns.length < 2 ^ 63) :
    (∃ sent, s.process_eviction hash_text key_columns tag keys src is_sharded = some sent ∧
      ∀ key ∈ keys, ∀ shard, s.CanHold hash_text key_columns key shard →
        ∃ tx, s.txs[shard]? = some tx ∧
          ∃ m ∈ sent, m.addr = tx.2 ∧ m.dst = tx.1 ∧ m.tag = tag ∧ key ∈ m.keys) ↔
    s.Splits key_columns keys is_sharded := by
  constructor
  · rintro ⟨sent, hsent, -⟩
    by_contra hsplit
    rw [Sharder.process_eviction_none hlength hsplit] at hsent
    cases hsent
  · intro hsplit
    obtain ⟨sent, hsent, hall⟩ := Sharder.process_eviction_split hash_text hsplit tag src
    refine ⟨sent, hsent, fun key hkey shard hholds => ?_⟩
    obtain ⟨d, i, tx, hd, hshardable, hi, htx, hm⟩ := hall key hkey
    obtain ⟨-, rfl, hkeys⟩ := hsplit
    rw [Sharder.shard_of_canHold hholds hd hshardable (hkeys key hkey).1] at hi
    cases hi
    exact ⟨tx, htx, hm⟩

/-- Two shards by column 0; the key is for that column. -/
theorem sharder_eviction_reaches_two :
    ∃ sent, (Sharder.mk [(1, 7), (1, 8)] 0).process_eviction length [0] 3 [[.int 5]] 0
      false = some sent ∧ ∀ key ∈ [[DataType.int 5]], ∀ shard,
        (Sharder.mk [(1, 7), (1, 8)] 0).CanHold length [0] key shard →
        ∃ tx, [(1, 7), (1, 8)][shard]? = some tx ∧
          ∃ m ∈ sent, m.addr = tx.2 ∧ m.dst = tx.1 ∧ m.tag = 3 ∧ key ∈ m.keys :=
  (sharder_eviction_reaches ⟨[(1, 7), (1, 8)], 0⟩ length [0] 3 [[.int 5]] 0 false
    (by decide)).mpr ⟨rfl, rfl, by simp [Shardable]⟩

/-- An eviction for another column than the one that is sharded by panics. -/
theorem sharder_eviction_other_column :
    (Sharder.mk [(1, 7), (1, 8)] 0).process_eviction length [1] 3 [[.int 5]] 0 false = none :=
  rfl

end Server.Domain

end Noria

import Mathlib.Data.Multiset.MapFold
import Noria.Sqlite.ViewCache

/-! # Keys in the view cache

  A view finds its rows under the text of their key: the tagged texts of the values, joined with NUL
  characters. The tag names the representation of a value and not what it is equal to, and a text
  with NUL characters runs into its neighbours. What is compared is the sequence of the pieces
  between NUL characters (`Separated`). Keys of plain values, whose integers have one representation
  in each column, are always kept apart, and on keys that are a view behaves like a map from keys to
  bags of rows.

  `evmap` is a parameter with the laws that it documents.
-/

namespace Noria.Sqlite

open List Option

/-! ## Model -/

def serialize_key (C : Chrono) (key : Row) : String :=
  String.ofList ([Char.ofNat 0].intercalate (key.map fun dt => (serialize_datatype C dt).toList))

/-- What is used of `evmap`, as documented: under each key a bag of values,
    which is read in some order. Every change is published at once. -/
structure Evmap (κ ν : Type) [DecidableEq κ] where
  Map : Type
  construct : Map
  insert : Map → κ → ν → Map
  remove_entry : Map → κ → Map
  clear : Map → κ → Map
  get : Map → κ → Option (List ν)
  get_construct : ∀ k, get construct k = none
  get_insert : ∀ m k v k', (get (insert m k v) k').map Multiset.ofList =
    if k = k' then some (v ::ₘ ((get m k').map Multiset.ofList).getD 0)
    else (get m k').map Multiset.ofList
  get_remove_entry : ∀ m k k', (get (remove_entry m k) k').map Multiset.ofList =
    if k = k' then none else (get m k').map Multiset.ofList
  get_clear : ∀ m k k', (get (clear m k) k').map Multiset.ofList =
    if k = k' then some 0 else (get m k').map Multiset.ofList

/-- The calls that change a view. -/
inductive ViewCall where
  | insert (key row : Row)
  | remove (key : Row)
  | mark_filled (key : Row)

def ViewCall.key : ViewCall → Row
  | .insert key _ => key
  | .remove key => key
  | .mark_filled key => key

section View

variable (C : Chrono) (M : Evmap String (List UInt8))

/-- `insert`, `remove` and `mark_filled`; the estimate of the memory is left out. -/
def ViewCall.apply (v : M.Map) : ViewCall → M.Map
  | .insert key row => M.insert v (serialize_key C key) (serialize_row C row)
  | .remove key => M.remove_entry v (serialize_key C key)
  | .mark_filled key => M.clear v (serialize_key C key)

/-- A view after some calls. -/
def ViewCache.after (calls : List ViewCall) : M.Map := calls.foldl (ViewCall.apply C M) M.construct

/-- Look up rows by key. The outer `Option` is a panic while a row is read. -/
def ViewCache.lookup (v : M.Map) (key : Row) : Option (Option (List Row)) :=
  match M.get v (serialize_key C key) with
  | none => some none
  | some values => (values.mapM (deserialize_row C)).map some

end View

/-! ## What a lookup is for -/

/-- What a call does to the rows under keys that are equal to a key. -/
def ViewCall.effect (key : Row) (rows : Option (Multiset Row)) : ViewCall → Option (Multiset Row)
  | .insert k row => if k == key then some (row ::ₘ rows.getD 0) else rows
  | .remove k => if k == key then none else rows
  | .mark_filled k => if k == key then some 0 else rows

/-- The rows inserted under equal keys since the last of them was removed or
    marked; `none` if there is no entry. -/
def insertedUnder (key : Row) (calls : List ViewCall) : Option (Multiset Row) :=
  calls.foldl (ViewCall.effect key) none

/-! ## Keys that are kept apart -/

/-- What stands between the NUL characters, value by value. -/
def pieces (C : Chrono) (key : Row) : List (List Char) :=
  key.flatMap fun dt => (serialize_datatype C dt).toList.splitOn (Char.ofNat 0)

/-- Equal keys are represented alike, and others have different pieces. -/
def Separated (C : Chrono) (k₁ k₂ : Row) : Prop :=
  ((k₁ == k₂) = true → k₁ = k₂) ∧ (pieces C k₁ = pieces C k₂ → (k₁ == k₂) = true)

instance (C : Chrono) (k₁ k₂ : Row) : Decidable (Separated C k₁ k₂) :=
  inferInstanceAs (Decidable (_ ∧ _))

/-! ### Regular keys -/

/-- The representations of integers. -/
inductive IntForm where
  | int
  | unsignedInt
  | bigInt
  | unsignedBigInt
  deriving DecidableEq

def IntForm.tag : IntForm → Char
  | .int => 'I'
  | .unsignedInt => 'U'
  | .bigInt => 'B'
  | .unsignedBigInt => 'G'

/-- The representation of a value that is an integer. -/
def IntForm.of : DataType → Option IntForm
  | .int _ => some .int
  | .unsignedInt _ => some .unsignedInt
  | .bigInt _ => some .bigInt
  | .unsignedBigInt _ => some .unsignedBigInt
  | _ => none

/-- A text without NUL bytes, or a timestamp without a leap second that has
    nanoseconds in an `i64`. -/
def PlainValue (d : DataType) : Prop :=
  (d.kind = .text → ∃ s, DataType.from_text s = some d ∧ (0 : UInt8) ∉ as_bytes s) ∧
    ∀ t, d = .timestamp t → InNanos t

/-- Keys of plain values, with one representation of the integers of each column. -/
def Regular (forms : List IntForm) (key : Row) : Prop :=
  List.Forall₂ (fun form d => PlainValue d ∧ ∀ f ∈ IntForm.of d, f = form) forms key

section Keys

variable {C : Chrono} {s : String} {a b d : DataType} {key k₁ k₂ : Row}

theorem splitOn_serialize_key (hne : key ≠ []) :
    (serialize_key C key).toList.splitOn (Char.ofNat 0) = pieces C key := by
  unfold serialize_key pieces
  rw [String.toList_ofList]
  induction key with
  | nil => exact absurd rfl hne
  | cons a key ih =>
    rw [map_cons, flatMap_cons]
    cases key with
    | nil => rw [map_nil, intercalate_singleton, flatMap_nil, append_nil]
    | cons b key =>
      rw [intercalate_cons_of_ne_nil (by simp), append_assoc, singleton_append,
        splitOn_append_cons_self, ih (cons_ne_nil _ _)]

/-- Two texts are the same exactly if their pieces are. -/
theorem serialize_key_eq_iff_pieces (hlen : k₁.length = k₂.length) :
    serialize_key C k₁ = serialize_key C k₂ ↔ pieces C k₁ = pieces C k₂ := by
  by_cases hne : k₁ = []
  · subst hne
    rw [length_eq_zero_iff.mp hlen.symm]
    exact iff_of_true rfl rfl
  · have hne' : k₂ ≠ [] := by
      rintro rfl
      exact hne (length_eq_zero_iff.mp hlen)
    rw [← splitOn_serialize_key hne, ← splitOn_serialize_key hne']
    refine ⟨fun h => by rw [h], fun h => ?_⟩
    have hjoin := congrArg [Char.ofNat 0].intercalate h
    rw [intercalate_splitOn, intercalate_splitOn] at hjoin
    exact String.toList_inj.mp hjoin

/-! ### Equal values -/

theorem eq_of_form (h : a.val = b.val) (hform : IntForm.of a = IntForm.of b) :
    a = b := by
  by_cases hint : a.kind = .int
  · cases a <;> cases b <;> first | (cases hint; done) | (cases hform; done) | skip
    all_goals
      simp only [DataType.val, Value.int.injEq, Int.natCast_inj, Int32.toInt_inj, Int64.toInt_inj,
        UInt32.toNat_inj, UInt64.toNat_inj] at h
      rw [h]
  · exact DataType.eq_of_val h hint

/-- The text of an integer is the tag of its representation and the number. -/
theorem serialize_int {n : Int} (h : a.val = .int n) :
    ∃ form, IntForm.of a = some form ∧
      (serialize_datatype C a).toList = form.tag :: (toString n).toList := by
  cases a with
  | int v =>
    cases h
    exact ⟨.int, rfl, by rw [serialize_datatype, String.toList_append]; rfl⟩
  | unsignedInt v =>
    cases h
    exact ⟨.unsignedInt, rfl, by rw [serialize_datatype, String.toList_append]; rfl⟩
  | bigInt v =>
    cases h
    exact ⟨.bigInt, rfl, by rw [serialize_datatype, String.toList_append]; rfl⟩
  | unsignedBigInt v =>
    cases h
    exact ⟨.unsignedBigInt, rfl, by rw [serialize_datatype, String.toList_append]; rfl⟩
  | _ => cases h

/-- Equal values have texts of the same length, and are the same if the texts are. -/
theorem serialize_of_val (h : a.val = b.val) :
    (serialize_datatype C a).toList.length = (serialize_datatype C b).toList.length ∧
      (serialize_datatype C a = serialize_datatype C b → a = b) := by
  by_cases hint : ∃ n, a.val = .int n
  · obtain ⟨n, hn⟩ := hint
    obtain ⟨form, hform, htext⟩ := serialize_int (C := C) hn
    obtain ⟨form', hform', htext'⟩ := serialize_int (C := C) (h.symm.trans hn)
    refine ⟨by rw [htext, htext', length_cons, length_cons], fun hsame => ?_⟩
    rw [← String.toList_inj, htext, htext', cons_eq_cons] at hsame
    have htag : form = form' := by
      obtain ⟨hsame, -⟩ := hsame
      revert hsame
      cases form <;> cases form' <;> decide
    exact eq_of_form h (by rw [hform, hform', htag])
  · have hkind : a.kind ≠ .int := by
      intro hkind
      cases a with
      | int v => exact hint ⟨_, rfl⟩
      | unsignedInt v => exact hint ⟨_, rfl⟩
      | bigInt v => exact hint ⟨_, rfl⟩
      | unsignedBigInt v => exact hint ⟨_, rfl⟩
      | _ => cases hkind
    rw [DataType.eq_of_val h hkind]
    exact ⟨rfl, fun _ => rfl⟩

/-- Equal keys with the same text are the same. -/
theorem eq_of_serialize_key (hval : Row.val k₁ = Row.val k₂)
    (h : serialize_key C k₁ = serialize_key C k₂) : k₁ = k₂ := by
  have hjoined := String.ofList_injective h
  clear h
  induction k₁ generalizing k₂ with
  | nil => exact (map_eq_nil_iff.mp hval.symm).symm
  | cons a k₁ ih =>
    cases k₂ with
    | nil => cases hval
    | cons b k₂ =>
      rw [Row.val_cons, Row.val_cons, cons_eq_cons] at hval
      obtain ⟨hlen, hsame⟩ := serialize_of_val (C := C) hval.1
      have hnil : k₁ = [] ↔ k₂ = [] := by
        rw [← length_eq_zero_iff, ← length_eq_zero_iff, ← Row.length_val k₁, hval.2, Row.length_val]
      rw [map_cons, map_cons] at hjoined
      by_cases hlast : k₁ = []
      · obtain rfl := hlast
        obtain rfl := hnil.mp rfl
        rw [map_nil, intercalate_singleton, intercalate_singleton] at hjoined
        rw [hsame (String.toList_inj.mp hjoined)]
      · -- the first texts have the same length, so the separators stand at the same place
        rw [intercalate_cons_of_ne_nil (by simpa using hlast),
          intercalate_cons_of_ne_nil (by simpa using fun h => hlast (hnil.mpr h)),
          append_assoc, append_assoc] at hjoined
        obtain ⟨hfirst, hrest⟩ := append_inj hjoined hlen
        rw [hsame (String.toList_inj.mp hfirst), ih hval.2 (cons_inj_right _ |>.mp hrest)]

/-- **When the texts of two keys stand for the keys.** -/
theorem serialize_key_eq_iff (hlen : k₁.length = k₂.length) :
    (serialize_key C k₁ = serialize_key C k₂ ↔ (k₁ == k₂) = true) ↔ Separated C k₁ k₂ := by
  rw [Separated, ← serialize_key_eq_iff_pieces hlen]
  constructor
  · refine fun h => ⟨fun hbeq => ?_, h.mp⟩
    exact eq_of_serialize_key ((Row.beq_iff_val _ _).mp hbeq) (h.mpr hbeq)
  · rintro ⟨hsame, hpieces⟩
    exact ⟨hpieces, fun hbeq => by rw [hsame hbeq]⟩

/-! ### No separator in a value -/

theorem PlainValue.built (h : PlainValue d) : d.Built := by
  intro htext
  obtain ⟨s, hs, -⟩ := h.1 htext
  exact ⟨s, hs⟩

theorem trim_padNul (h : Char.ofNat 0 ∉ s.toList) (k : Nat) :
    trim_end_nul (padNul s k) = s := by
  have hdrop : ∀ k, (s.toList ++ List.replicate k (Char.ofNat 0)).rdropWhile
      (fun c => c == Char.ofNat 0) = s.toList := by
    intro k
    induction k with
    | zero =>
      rw [replicate_zero, append_nil, rdropWhile_eq_self_iff]
      intro hne hlast
      exact h (beq_iff_eq.mp hlast ▸ getLast_mem hne)
    | succ k ih =>
      rw [replicate_succ', ← append_assoc, rdropWhile_concat_pos _ _ _ (by simp), ih]
  unfold trim_end_nul padNul
  rw [String.toList_append, String.toList_ofList, hdrop, String.ofList_toList]

theorem serialize_plain_text (h : PlainValue d) (htext : d.kind = .text) :
    ∃ tag s : String, serialize_datatype C d = tag ++ s ∧ (tag = "T" ∨ tag = "t") ∧
      Char.ofNat 0 ∉ s.toList := by
  obtain ⟨s, hs, hfree⟩ := h.1 htext
  have hchar : Char.ofNat 0 ∉ s.toList := fun hmem => hfree (zero_mem_as_bytes hmem)
  cases d with
  | text a =>
    refine ⟨"T", s, ?_, Or.inl rfl, hchar⟩
    rw [serialize_datatype, ← as_bytes_of_from_text hs, decode_utf8_as_bytes, getD_some]
  | tinyText arr =>
    refine ⟨"t", s, ?_, Or.inr rfl, hchar⟩
    obtain ⟨k, harr⟩ := bytes_of_from_text hs
    rw [serialize_datatype, harr, ← as_bytes_padNul, decode_utf8_as_bytes, getD_some,
      trim_padNul hchar]
  | _ => cases htext

theorem nul_notMem_toString (n : Int) : Char.ofNat 0 ∉ (toString n).toList := by
  intro hmem
  rcases mem_toString hmem with h | h <;> exact absurd h (by decide)

theorem nul_notMem_append {t : String} (hs : Char.ofNat 0 ∉ s.toList)
    (ht : Char.ofNat 0 ∉ t.toList) : Char.ofNat 0 ∉ (s ++ t).toList := by
  rw [String.toList_append, mem_append]
  exact not_or.mpr ⟨hs, ht⟩

theorem nul_notMem_serialize (h : PlainValue d) :
    Char.ofNat 0 ∉ (serialize_datatype C d).toList := by
  by_cases htext : d.kind = .text
  · obtain ⟨tag, s, heq, htag, hfree⟩ := serialize_plain_text h htext
    rw [heq]
    refine nul_notMem_append ?_ hfree
    rcases htag with rfl | rfl <;> decide
  · cases d with
    | none =>
      rw [serialize_datatype]
      decide
    | int v => exact nul_notMem_append (by decide) (nul_notMem_toString _)
    | unsignedInt v => exact nul_notMem_append (by decide) (nul_notMem_toString v.toNat)
    | bigInt v => exact nul_notMem_append (by decide) (nul_notMem_toString _)
    | unsignedBigInt v => exact nul_notMem_append (by decide) (nul_notMem_toString v.toNat)
    | real i f =>
      exact nul_notMem_append (nul_notMem_append (nul_notMem_append (by decide)
        (nul_notMem_toString _)) (by decide)) (nul_notMem_toString _)
    | text s => exact absurd rfl htext
    | tinyText s => exact absurd rfl htext
    | timestamp t => exact nul_notMem_append (by decide) (nul_notMem_toString _)

/-! ### The text stands for the value -/

theorem timestamp_of_tag {rest : List Char} (h : (serialize_datatype C d).toList = 'S' :: rest) :
    ∃ t, d = .timestamp t := by
  have hhead := congrArg List.head? h
  cases d with
  | timestamp t => exact ⟨t, rfl⟩
  | _ =>
    simp only [serialize_datatype, String.toList_append] at hhead
    exact absurd hhead (by simp)

theorem timestamp_nanos_inj {s t : NaiveDateTime} (hs : InNanos s) (ht : InNanos t)
    (h : ((C.timestamp_nanos_opt s).getD 0).toInt = ((C.timestamp_nanos_opt t).getD 0).toInt) :
    s = t := by
  rw [hs.nanos, ht.nanos] at h
  obtain ⟨hs, -⟩ := hs
  obtain ⟨ht, -⟩ := ht
  rw [NaiveDateTime.eq_iff]
  omega

theorem serialize_inj (ha : PlainValue a) (hb : PlainValue b)
    (h : serialize_datatype C a = serialize_datatype C b) : a = b := by
  have htag : ∀ t, ∃ rest, (serialize_datatype C (.timestamp t)).toList = 'S' :: rest := by
    intro t
    refine ⟨(toString ((C.timestamp_nanos_opt t).getD 0).toInt).toList, ?_⟩
    rw [serialize_datatype, String.toList_append]
    rfl
  by_cases htime : ∃ t, a = .timestamp t
  · obtain ⟨s, rfl⟩ := htime
    obtain ⟨rest, hrest⟩ := htag s
    obtain ⟨t, rfl⟩ := timestamp_of_tag (h ▸ hrest)
    have hnanos := congrArg (fun text => parseSign (text.toList.drop 1)) h
    simp only [serialize_datatype, String.toList_append] at hnanos
    change parseSign (toString ((C.timestamp_nanos_opt s).getD 0).toInt).toList =
      parseSign (toString ((C.timestamp_nanos_opt t).getD 0).toInt).toList at hnanos
    rw [parseSign_toString, parseSign_toString, some.injEq] at hnanos
    rw [timestamp_nanos_inj (ha.2 s rfl) (hb.2 t rfl) hnanos]
  · -- every other value can be read back from its text
    have hread := deserialize_serialize (C := C) ha.built fun t hat => htime ⟨t, hat⟩
    have htime' : ∀ t, b ≠ .timestamp t := by
      rintro t rfl
      obtain ⟨rest, hrest⟩ := htag t
      exact htime (timestamp_of_tag (h ▸ hrest))
    rw [h, deserialize_serialize hb.built htime', some.injEq] at hread
    exact hread.symm

/-- A plain value is one piece. -/
theorem pieces_of_plain (h : ∀ d ∈ key, PlainValue d) :
    pieces C key = key.map fun dt => (serialize_datatype C dt).toList := by
  induction key with
  | nil => rfl
  | cons d key ih =>
    rw [forall_mem_cons] at h
    have hone : (serialize_datatype C d).toList.splitOn (Char.ofNat 0) =
        [(serialize_datatype C d).toList] := splitOn_eq_singleton (nul_notMem_serialize h.1)
    rw [pieces, flatMap_cons, hone, map_cons, ← ih h.2]
    rfl

theorem eq_of_pieces (h₁ : ∀ d ∈ k₁, PlainValue d) (h₂ : ∀ d ∈ k₂, PlainValue d)
    (h : pieces C k₁ = pieces C k₂) : k₁ = k₂ := by
  rw [pieces_of_plain h₁, pieces_of_plain h₂] at h
  induction k₁ generalizing k₂ with
  | nil => exact (map_eq_nil_iff.mp h.symm).symm
  | cons a k₁ ih =>
    cases k₂ with
    | nil => cases h
    | cons b k₂ =>
      rw [map_cons, map_cons, cons_eq_cons] at h
      rw [forall_mem_cons] at h₁ h₂
      rw [serialize_inj h₁.1 h₂.1 (String.toList_inj.mp h.1), ih h₁.2 h₂.2 h.2]

theorem Regular.plain {forms : List IntForm} (h : Regular forms key) :
    ∀ d ∈ key, PlainValue d := by
  induction h with
  | nil => exact fun _ hd => absurd hd not_mem_nil
  | cons hd _ ih => exact forall_mem_cons.mpr ⟨hd.1, ih⟩

theorem Regular.eq_of_val {forms : List IntForm} (h₁ : Regular forms k₁) (h₂ : Regular forms k₂)
    (h : Row.val k₁ = Row.val k₂) : k₁ = k₂ := by
  induction h₁ generalizing k₂ with
  | nil =>
    cases h₂
    rfl
  | @cons form a forms k₁ ha _ ih =>
    cases h₂ with
    | @cons _ b _ k₂ hb h₂ =>
      rw [Row.val_cons, Row.val_cons, cons_eq_cons] at h
      have hform : IntForm.of a = IntForm.of b := by
        have hsome : (IntForm.of a).isSome = (IntForm.of b).isSome := by
          cases a <;> cases b <;> first | rfl | (exact absurd h.1 (by simp [DataType.val]))
        cases hfa : IntForm.of a with
        | none =>
          rw [hfa] at hsome
          exact (not_isSome_iff_eq_none.mp (by simp [← hsome])).symm
        | some f =>
          rw [hfa] at hsome
          obtain ⟨g, hfb⟩ := isSome_iff_exists.mp hsome.symm
          rw [hfb, ha.2 f hfa, hb.2 g hfb]
      rw [eq_of_form h.1 hform, ih h₂ h.2]

theorem Regular.separated {forms : List IntForm} (h₁ : Regular forms k₁) (h₂ : Regular forms k₂) :
    Separated C k₁ k₂ := by
  simp only [Separated, Row.beq_iff_val]
  exact ⟨h₁.eq_of_val h₂, fun h => by rw [eq_of_pieces h₁.plain h₂.plain h]⟩

end Keys

/-! ## Runs -/

/-- A row that is inserted can be read back. -/
def ViewCall.Kept : ViewCall → Prop
  | .insert _ row => (∀ d ∈ row, d.Built) ∧ row.length < 2 ^ 32 ∧ ∀ d ∈ row, KeptValue d
  | _ => True

/-- What a run may do with respect to a key that is looked up. -/
def ViewCall.Allowed (C : Chrono) (key : Row) (call : ViewCall) : Prop :=
  call.Kept ∧ call.key.length = key.length ∧ Separated C call.key key

section Runs

variable {C : Chrono} {M : Evmap String (List UInt8)} {key : Row} {call : ViewCall}
  {rows : Option (Multiset Row)}

/-- One call: the bag under the text of a key is that of the rows under the key. -/
theorem get_apply {v : M.Map} (hcall : call.Allowed C key)
    (h : (M.get v (serialize_key C key)).map Multiset.ofList =
      rows.map (Multiset.map (serialize_row C))) :
    (M.get (call.apply C M v) (serialize_key C key)).map Multiset.ofList =
      (call.effect key rows).map (Multiset.map (serialize_row C)) := by
  obtain ⟨-, hlen, hsep⟩ := hcall
  have hkey := (serialize_key_eq_iff hlen).mpr hsep
  cases call with
  | insert k row =>
    rw [ViewCall.apply, M.get_insert, ViewCall.effect, h]
    simp only [ViewCall.key] at hkey
    simp only [hkey]
    split
    · cases rows <;> simp
    · rfl
  | remove k =>
    rw [ViewCall.apply, M.get_remove_entry, ViewCall.effect, h]
    simp only [ViewCall.key] at hkey
    simp only [hkey]
    split <;> rfl
  | mark_filled k =>
    rw [ViewCall.apply, M.get_clear, ViewCall.effect, h]
    simp only [ViewCall.key] at hkey
    simp only [hkey]
    split <;> rfl

/-- Rows that can be read back. -/
def Readable (C : Chrono) (rows : Option (Multiset Row)) : Prop :=
  ∀ rs ∈ rows, ∀ row ∈ rs, ∃ r, deserialize_row C (serialize_row C row) = some r ∧
    Row.val r = Row.val row

theorem effect_readable (hcall : call.Kept) (h : Readable C rows) :
    Readable C (call.effect key rows) := by
  cases call with
  | insert k row =>
    rw [ViewCall.effect]
    split
    · rintro rs ⟨⟩ row' hrow'
      rcases Multiset.mem_cons.mp hrow' with rfl | hold
      · exact (row_round_trip hcall.1).mpr hcall.2
      · cases rows with
        | none => exact absurd hold (Multiset.notMem_zero _)
        | some rs => exact h rs rfl row' hold
    · exact h
  | remove k =>
    rw [ViewCall.effect]
    split
    · rintro rs ⟨⟩
    · exact h
  | mark_filled k =>
    rw [ViewCall.effect]
    split
    · rintro rs ⟨⟩ row hrow
      exact absurd hrow (Multiset.notMem_zero _)
    · exact h

/-- Over a whole run the map holds the rows inserted under equal keys, and they can be read back. -/
theorem get_after {calls : List ViewCall} (hcalls : ∀ call ∈ calls, call.Allowed C key) :
    (M.get (ViewCache.after C M calls) (serialize_key C key)).map Multiset.ofList =
        (insertedUnder key calls).map (Multiset.map (serialize_row C)) ∧
      Readable C (insertedUnder key calls) := by
  induction calls using List.reverseRecOn with
  | nil =>
    refine ⟨?_, fun _ hrs => by cases hrs⟩
    rw [ViewCache.after, foldl_nil, M.get_construct]
    rfl
  | append_singleton calls call ih =>
    obtain ⟨hget, hread⟩ := ih fun c hc => hcalls c (mem_append_left _ hc)
    have hcall := hcalls call (mem_append_right _ mem_cons_self)
    unfold ViewCache.after insertedUnder at *
    simp only [foldl_append, foldl_cons, foldl_nil]
    exact ⟨get_apply hcall hget, effect_readable hcall.1 hread⟩

/-- The rows under a key are read back in the order of the bag. -/
theorem mapM_deserialize_row {rs : Multiset Row} (h : Readable C (some rs))
    {values : List (List UInt8)} (hvalues : Multiset.ofList values = rs.map (serialize_row C)) :
    ∃ out, values.mapM (deserialize_row C) = some out ∧
      Multiset.ofList (out.map Row.val) = rs.map Row.val := by
  have hall : ∀ value ∈ values, ∃ row ∈ rs, serialize_row C row = value := by
    intro value hvalue
    have hmem : value ∈ rs.map (serialize_row C) := hvalues ▸ Multiset.mem_coe.mpr hvalue
    exact Multiset.mem_map.mp hmem
  refine ⟨values.map fun value => (deserialize_row C value).getD [], ?_, ?_⟩
  · clear hvalues
    induction values with
    | nil => rfl
    | cons value values ih =>
      rw [forall_mem_cons] at hall
      obtain ⟨row, hrow, rfl⟩ := hall.1
      obtain ⟨r, hr, -⟩ := h rs rfl row hrow
      rw [mapM_cons, ih hall.2, hr, map_cons, hr]
      rfl
  · rw [List.map_map, ← Multiset.map_coe, hvalues, Multiset.map_map]
    refine Multiset.map_congr rfl fun row hrow => ?_
    obtain ⟨r, hr, hval⟩ := h rs rfl row hrow
    simp only [Function.comp_apply, hr, getD_some, hval]

end Runs

/-- An `evmap` whose bags are read with the newest value first. -/
def functionMap (κ ν : Type) [DecidableEq κ] : Evmap κ ν where
  Map := κ → Option (List ν)
  construct _ := none
  insert m k v k' := if k = k' then some (v :: (m k').getD []) else m k'
  remove_entry m k k' := if k = k' then none else m k'
  clear m k k' := if k = k' then some [] else m k'
  get m k := m k
  get_construct _ := rfl
  get_insert m k v k' := by
    dsimp only
    split
    · cases m k' <;> rfl
    · rfl
  get_remove_entry m k k' := by
    dsimp only
    split <;> rfl
  get_clear m k k' := by
    dsimp only
    split <;> rfl

/-- Two keys are filled, two equal rows are inserted under the one and one
    under the other, and a key with a NUL character in its text is removed. -/
def someCalls : List ViewCall :=
  [.mark_filled [.bigInt 1, .none], .insert [.bigInt 1, .none] [.bigInt 7],
    .mark_filled [.bigInt 2, .none], .insert [.bigInt 2, .none] [.bigInt 8],
    .insert [.bigInt 1, .none] [.bigInt 7],
    .remove [.bigInt 2, (DataType.from_text "a\x00b").getD .none]]

theorem someCalls_allowed :
    ∀ call ∈ someCalls, call.Allowed plainChrono [.bigInt 1, .none] := by
  have hrow : ∀ key n, (ViewCall.insert key [.bigInt n]).Kept := by
    intro key n
    refine ⟨forall_mem_singleton.mpr (built_of_kind ?_), ?_, forall_mem_singleton.mpr trivial⟩
    · simp [DataType.kind]
    · rw [length_singleton]
      decide
  have hsep : ∀ call ∈ someCalls, call.key.length = 2 ∧
      Separated plainChrono call.key [.bigInt 1, .none] := by
    simp only [someCalls, forall_mem_cons]
    decide +kernel
  intro call hcall
  refine ⟨?_, hsep call hcall⟩
  simp only [someCalls, mem_cons, not_mem_nil, or_false] at hcall
  rcases hcall with rfl | rfl | rfl | rfl | rfl | rfl
  · trivial
  · exact hrow _ 7
  · trivial
  · exact hrow _ 8
  · exact hrow _ 7
  · trivial

end Noria.Sqlite

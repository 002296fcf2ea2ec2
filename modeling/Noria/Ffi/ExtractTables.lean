import Mathlib.Data.List.DropRight
import Noria.Framework.Returns
import Noria.Framework.Slices

/-! # The tables of a query text

  `extract_tables` of `noria-ffi/src/lib.rs` looks for the keywords of a query in an upper-cased
  copy of its text, and cuts the text itself at the offsets it finds. The two have the same
  characters at the same offsets only as long as no letter changes its length with its case: where
  one does, a cut can fall into a character or behind the end, and the function panics. The scan for
  joins always ends.
-/

namespace Noria.Ffi

open List

/-! ## Model -/

/-- What `char` and `str` take from the Unicode tables. -/
structure Unicode where
  /-- The upper-case form of a character, which can be several. -/
  to_uppercase : Char → List Char
  /-- The lower-case form of a text; it depends on where a letter stands. -/
  to_lowercase : List Char → List Char
  is_whitespace : Char → Bool

/-- `str::to_uppercase`, one character after the other. -/
def Unicode.uppercase (u : Unicode) (text : List Char) : List Char :=
  text.flatMap u.to_uppercase

/-- `str::trim_matches`. -/
def trim_matches (p : Char → Bool) (text : List Char) : List Char :=
  (text.dropWhile p).rdropWhile p

/-- `split_whitespace().next()`. -/
def Unicode.first_word (u : Unicode) (text : List Char) : Option (List Char) :=
  let word := (text.dropWhile u.is_whitespace).takeWhile fun c => !u.is_whitespace c
  if word = [] then none else some word

/-- The characters that can quote a name: backtick, double quote and brackets. -/
def is_quote (c : Char) : Bool := c = '\x60' || c = '\x22' || c = '[' || c = ']'

def from_kw : List Char := " FROM ".toList

def end_keywords : List (List Char) :=
  [" WHERE ".toList, " JOIN ".toList, " ORDER ".toList, " GROUP ".toList, " LIMIT ".toList,
    " HAVING ".toList, ";".toList]

def join_keywords : List (List Char) :=
  [" JOIN ".toList, " INNER JOIN ".toList, " LEFT JOIN ".toList, " RIGHT JOIN ".toList,
    " CROSS JOIN ".toList]

section Model

variable (u : Unicode)

/-- One round of the search for the end: an earlier match moves it. -/
def earlier_end (upper : List Char) (end_pos : Nat) (kw : List Char) : Nat :=
  match findText kw upper with
  | some pos => if pos < end_pos then pos else end_pos
  | none => end_pos

/-- Where the list of tables after FROM ends. -/
def end_pos (after_from : List Char) : Nat :=
  end_keywords.foldl (earlier_end (u.uppercase after_from)) (byteLen after_from)

/-- The names in a list of tables. -/
def table_names (table_part : List Char) : List (List Char) :=
  ((trim_matches u.is_whitespace table_part).splitOn ',').filterMap fun table =>
    let table := trim_matches u.is_whitespace table
    let table_name := (u.first_word table).getD table
    let clean := trim_matches is_quote table_name
    if clean = [] then none else some (u.to_lowercase clean)

/-- The FROM clause. -/
def from_tables (sql : List Char) : Outcome Unit (List (List Char)) :=
  match findText from_kw (u.uppercase sql) with
  | none => .ok []
  | some from_pos => do
    let after_from ← .ofOption (sliceFrom sql (from_pos + 6))
    let table_part ← .ofOption (sliceTo after_from (end_pos u after_from))
    .ok (table_names u table_part)

/-- The name after a join keyword, if it is a new one. -/
def push_join (after_join : List Char) (tables : List (List Char)) : List (List Char) :=
  match u.first_word after_join with
  | none => tables
  | some table_name =>
    let clean := trim_matches (fun c => is_quote c || c = ',') table_name
    let lower := u.to_lowercase clean
    if lower ≠ [] ∧ lower ≠ "on".toList ∧ lower ∉ tables then tables ++ [lower] else tables

/-- One round of the scan: what stands after a match that ends at `actual_pos`. -/
def join_table (sql : List Char) (actual_pos : Nat) (tables : List (List Char)) :
    Outcome Unit (List (List Char)) :=
  if actual_pos < byteLen sql then do
    let after_join ← .ofOption (sliceFrom sql actual_pos)
    .ok (push_join u after_join tables)
  else .ok tables

/-- The scan for one join keyword. It is an error if the rounds run out. -/
def join_scan (sql join_kw : List Char) :
    Nat → Nat → List (List Char) → Outcome Unit (List (List Char))
  | 0, _, _ => .error ()
  | rounds + 1, pos, tables => do
    let rest ← .ofOption (sliceFrom (u.uppercase sql) pos)
    match findText join_kw rest with
    | none => .ok tables
    | some join_pos =>
      let actual_pos := pos + join_pos + byteLen join_kw
      let tables ← join_table u sql actual_pos tables
      join_scan sql join_kw rounds actual_pos tables

/-- Extract table names from SQL (simple parser). A scan gets one round more
    than the upper-cased text has bytes. -/
def extract_tables (sql : List Char) : Outcome Unit (List (List Char)) := do
  let tables ← from_tables u sql
  join_keywords.foldlM (fun tables join_kw =>
    join_scan u sql join_kw (byteLen (u.uppercase sql) + 1) 0 tables) tables

/-! ## Where the text is cut -/

/-- An end keyword has its first match at this offset of the upper-cased text. -/
def EndsAt (after_from : List Char) (n : Nat) : Prop :=
  ∃ kw ∈ end_keywords, ∃ before after,
    FirstMatch kw (u.uppercase after_from) before after ∧ byteLen before = n

/-- The list of tables can be cut off the text after FROM: the earliest end
    keyword stands at a boundary, or not before the end. -/
def EndFits (after_from : List Char) : Prop :=
  ∀ n, EndsAt u after_from n → (∀ m, EndsAt u after_from m → n ≤ m) →
    n < byteLen after_from → Boundary after_from n

/-- Offsets of keywords in the upper-cased text are boundaries of the text. -/
structure Fits (sql : List Char) : Prop where
  /-- The text can be cut behind its first FROM, and its list of tables cut off there. -/
  from_clause : ∀ before after, FirstMatch from_kw (u.uppercase sql) before after →
    ∃ head rest, sql = head ++ rest ∧ byteLen head = byteLen before + 6 ∧ EndFits u rest
  /-- It can be cut behind each join keyword that does not end it. -/
  joins : ∀ kw ∈ join_keywords, ∀ n, ScanEnd kw (u.uppercase sql) n → n < byteLen sql →
    Boundary sql n

/-! ## Which names are found -/

/-- The list of tables ends here: at the earliest end keyword, or else with the text. -/
def ListEnd (after_from : List Char) (n : Nat) : Prop :=
  (EndsAt u after_from n ∧ n < byteLen after_from ∨ n = byteLen after_from) ∧
    ∀ m, EndsAt u after_from m → n ≤ m

/-- The list of tables has an item whose first word, without quotes, is this name. -/
def ItemNamed (table_part name : List Char) : Prop :=
  ∃ item word, Item ',' (trim_matches u.is_whitespace table_part) item ∧
    u.first_word item = some word ∧ trim_matches is_quote word ≠ [] ∧
    name = u.to_lowercase (trim_matches is_quote word)

/-- The list of tables after the first FROM has this name in it. -/
def ListedFrom (sql name : List Char) : Prop :=
  ∃ before after head part more, FirstMatch from_kw (u.uppercase sql) before after ∧
    sql = head ++ (part ++ more) ∧ byteLen head = byteLen before + 6 ∧
    ListEnd u (part ++ more) (byteLen part) ∧ ItemNamed u part name

/-- The first word after an offset gives this name. -/
def NamedAt (sql : List Char) (n : Nat) (name : List Char) : Prop :=
  ∃ head after word, sql = head ++ after ∧ byteLen head = n ∧ u.first_word after = some word ∧
    name = u.to_lowercase (trim_matches (fun c => is_quote c || c = ',') word) ∧
    name ≠ [] ∧ name ≠ "on".toList

/-- The name stands after a join keyword. -/
def ListedJoin (sql join_kw name : List Char) : Prop :=
  ∃ n, ScanEnd join_kw (u.uppercase sql) n ∧ n < byteLen sql ∧ NamedAt u sql n name

/-- The text lists the name, after FROM or after a join keyword. -/
def Listed (sql name : List Char) : Prop :=
  ListedFrom u sql name ∨ ∃ kw ∈ join_keywords, ListedJoin u sql kw name

end Model

/-! ## The FROM clause -/

section FromClause

variable {u : Unicode} {sql head rest part more before name upper kw : List Char}
  {kws : List (List Char)} {pos n stop : Nat}

theorem sliceFrom_returns (text : List Char) (n : Nat) :
    (Outcome.ofOption (sliceFrom text n) : Outcome Unit (List Char)).Returns (Boundary text n)
      fun after => ∃ before, text = before ++ after ∧ byteLen before = n := by
  refine .ofOption (fun hb => ?_) fun hb => ?_
  · obtain ⟨before, after, rfl, rfl⟩ := hb
    exact ⟨after, sliceFrom_append before after, before, rfl, rfl⟩
  · exact Option.eq_none_iff_forall_ne_some.mpr fun after h =>
      hb (exists_sliceFrom_iff.mp ⟨after, h⟩)

theorem sliceTo_returns (text : List Char) (n : Nat) :
    (Outcome.ofOption (sliceTo text n) : Outcome Unit (List Char)).Returns (Boundary text n)
      fun before => ∃ after, text = before ++ after ∧ byteLen before = n := by
  refine .ofOption (fun hb => ?_) fun hb => ?_
  · obtain ⟨before, h⟩ := exists_sliceTo_iff.mpr hb
    exact ⟨before, h, sliceTo_eq_some.mp h⟩
  · exact Option.eq_none_iff_forall_ne_some.mpr fun before h =>
      hb (exists_sliceTo_iff.mp ⟨before, h⟩)

theorem earlier_end_le (upper kw : List Char) (stop : Nat) : earlier_end upper stop kw ≤ stop := by
  unfold earlier_end
  split
  · split <;> omega
  · exact le_rfl

theorem earlier_end_le_of_find (h : findText kw upper = some pos) :
    earlier_end upper stop kw ≤ pos := by
  unfold earlier_end
  rw [h]
  show (if pos < stop then pos else stop) ≤ pos
  split <;> omega

theorem find_of_earlier_end_lt (h : earlier_end upper stop kw < stop) :
    findText kw upper = some (earlier_end upper stop kw) := by
  unfold earlier_end at h ⊢
  split
  · next pos hfind =>
    rw [hfind] at h
    simp only at h
    split at h
    · next hlt => rw [if_pos hlt, hfind]
    · omega
  · next hfind =>
    rw [hfind] at h
    exact absurd h (lt_irrefl _)

theorem foldl_earlier_end_le (upper : List Char) (kws : List (List Char)) (stop : Nat) :
    kws.foldl (earlier_end upper) stop ≤ stop := by
  induction kws generalizing stop with
  | nil => exact le_rfl
  | cons kw kws ih => exact (ih _).trans (earlier_end_le upper kw stop)

theorem foldl_earlier_end_le_of_find (hkw : kw ∈ kws) (h : findText kw upper = some pos) :
    kws.foldl (earlier_end upper) stop ≤ pos := by
  induction kws generalizing stop with
  | nil => cases hkw
  | cons kw' kws ih =>
    rcases mem_cons.mp hkw with rfl | hkw
    · exact (foldl_earlier_end_le upper kws _).trans (earlier_end_le_of_find h)
    · exact ih hkw

theorem find_of_foldl_earlier_end_lt (h : kws.foldl (earlier_end upper) stop < stop) :
    ∃ kw ∈ kws, findText kw upper = some (kws.foldl (earlier_end upper) stop) := by
  induction kws generalizing stop with
  | nil => exact absurd h (lt_irrefl _)
  | cons kw kws ih =>
    rw [foldl_cons] at h ⊢
    by_cases hrest : kws.foldl (earlier_end upper) (earlier_end upper stop kw) <
        earlier_end upper stop kw
    · obtain ⟨kw', hkw', hfind⟩ := ih hrest
      exact ⟨kw', mem_cons_of_mem _ hkw', hfind⟩
    · -- no later keyword has an earlier match: it is the one of this round
      have heq : kws.foldl (earlier_end upper) (earlier_end upper stop kw) =
          earlier_end upper stop kw :=
        le_antisymm (foldl_earlier_end_le upper kws _) (not_lt.mp hrest)
      rw [heq] at h ⊢
      exact ⟨kw, mem_cons_self, find_of_earlier_end_lt h⟩

theorem endsAt_iff {after_from : List Char} :
    EndsAt u after_from n ↔ ∃ kw ∈ end_keywords, findText kw (u.uppercase after_from) = some n := by
  unfold EndsAt
  simp only [findText_eq_some_iff]

/-- The list ends at `end_pos`, and nowhere else. -/
theorem listEnd_iff {after_from : List Char} :
    ListEnd u after_from n ↔ n = end_pos u after_from := by
  have hle : end_pos u after_from ≤ byteLen after_from := foldl_earlier_end_le _ _ _
  have hleast : ∀ m, EndsAt u after_from m → end_pos u after_from ≤ m := by
    intro m hm
    obtain ⟨kw, hkw, hfind⟩ := endsAt_iff.mp hm
    exact foldl_earlier_end_le_of_find hkw hfind
  have hends : end_pos u after_from < byteLen after_from →
      EndsAt u after_from (end_pos u after_from) :=
    fun hlt => endsAt_iff.mpr (find_of_foldl_earlier_end_lt hlt)
  constructor
  · rintro ⟨hn, hmin⟩
    have hge : end_pos u after_from ≤ n := by
      rcases hn with ⟨hn, -⟩ | rfl
      · exact hleast n hn
      · exact hle
    refine le_antisymm ?_ hge
    -- an earlier end would be at a keyword
    by_contra hlt
    exact hlt (hmin _ (hends (by rcases hn with ⟨-, hn⟩ | rfl <;> omega)))
  · rintro rfl
    refine ⟨?_, hleast⟩
    rcases hle.lt_or_eq with hlt | heq
    · exact .inl ⟨hends hlt, hlt⟩
    · exact .inr heq

/-- The cut at `end_pos` is the one that the end keywords give. -/
theorem boundary_end_pos_iff (after_from : List Char) :
    Boundary after_from (end_pos u after_from) ↔ EndFits u after_from := by
  obtain ⟨hend, hleast⟩ := listEnd_iff.mpr (rfl : end_pos u after_from = _)
  constructor
  · intro hb n hn hmin hlt
    have hpos : end_pos u after_from ≤ n := hleast n hn
    rcases hend with ⟨hend, -⟩ | hend
    · rwa [le_antisymm (hmin _ hend) hpos]
    · omega
  · intro hfits
    rcases hend with ⟨hend, hlt⟩ | hend
    · exact hfits _ hend hleast hlt
    · rw [hend]
      exact boundary_end after_from

/-- White space around a text does not change its first word. -/
theorem first_word_trim (text : List Char) :
    u.first_word (trim_matches u.is_whitespace text) = u.first_word text := by
  have hword : ∀ d : List Char, (∀ c ∈ d.head?, u.is_whitespace c = false) →
      ((d.rdropWhile u.is_whitespace).dropWhile u.is_whitespace).takeWhile
        (fun c => !u.is_whitespace c) = d.takeWhile fun c => !u.is_whitespace c := by
    intro d hd
    induction d using reverseRecOn with
    | nil => rfl
    | append_singleton d c ih =>
      have hhead : ∀ c ∈ d.head?, u.is_whitespace c = false := by
        intro c' hc'
        refine hd c' ?_
        rw [head?_append, Option.mem_def.mp hc']
        rfl
      by_cases hc : u.is_whitespace c = true
      · rw [rdropWhile_concat_pos _ _ _ hc, ih hhead, takeWhile_append]
        split
        · next hall =>
          rw [(takeWhile_sublist _).eq_of_length hall]
          simp [hc]
        · rfl
      · rw [rdropWhile_concat_neg _ _ _ hc]
        have hkeep : (d ++ [c]).dropWhile u.is_whitespace = d ++ [c] := by
          cases d with
          | nil => simp [hc]
          | cons c' d => simp [hhead c' rfl]
        rw [hkeep]
  have hstart : ∀ c ∈ (text.dropWhile u.is_whitespace).head?, u.is_whitespace c = false := by
    intro c hc
    have hnot := head?_dropWhile_not u.is_whitespace text
    rw [Option.mem_def.mp hc] at hnot
    exact hnot
  unfold Unicode.first_word trim_matches
  simp only [hword _ hstart]

/-- **The names in a list of tables** are those of its items. -/
theorem mem_table_names {table_part : List Char} :
    name ∈ table_names u table_part ↔ ItemNamed u table_part name := by
  have hempty : ∀ item, u.first_word item = none → trim_matches u.is_whitespace item = [] := by
    intro item hnone
    unfold Unicode.first_word at hnone
    dsimp only at hnone
    split at hnone
    · next hword =>
      have hdrop : item.dropWhile u.is_whitespace = [] := by
        cases hcase : item.dropWhile u.is_whitespace with
        | nil => rfl
        | cons c rest =>
          have hnot := head?_dropWhile_not u.is_whitespace item
          rw [hcase] at hword hnot
          simp [show u.is_whitespace c = false from hnot] at hword
      rw [trim_matches, hdrop]
      rfl
    · cases hnone
  unfold table_names ItemNamed
  rw [mem_filterMap]
  simp only [mem_splitOn_iff, first_word_trim]
  constructor
  · rintro ⟨item, hitem, hname⟩
    cases hword : u.first_word item with
    | none =>
      -- an item without a word is empty
      rw [hword, hempty item hword] at hname
      exact absurd hname (by simp [trim_matches])
    | some word =>
      rw [hword, Option.getD_some] at hname
      split at hname
      · cases hname
      · next hclean => exact ⟨item, word, hitem, hword, hclean, (Option.some.inj hname).symm⟩
  · rintro ⟨item, word, hitem, hword, hclean, rfl⟩
    refine ⟨item, hitem, ?_⟩
    rw [hword, Option.getD_some, if_neg hclean]

theorem rest_unique {head' rest' : List Char} (h : head ++ rest = head' ++ rest')
    (hlen : byteLen head = byteLen head') : rest = rest' := by
  have hsome : some rest = some rest' := by
    rw [← sliceFrom_append head rest, ← sliceFrom_append head' rest', h, hlen]
  exact Option.some.inj hsome

theorem part_unique {part' more' : List Char} (h : part ++ more = part' ++ more')
    (hlen : byteLen part = byteLen part') : part = part' := by
  have hsome : some part = some part' := by
    rw [← sliceTo_append part more, ← sliceTo_append part' more', h, hlen]
  exact Option.some.inj hsome

theorem listedFrom_iff {after : List Char}
    (hfirst : FirstMatch from_kw (u.uppercase sql) before after) (hsplit : sql = head ++ rest)
    (hlen : byteLen head = byteLen before + 6) (hrest : rest = part ++ more)
    (hpart : byteLen part = end_pos u rest) :
    ListedFrom u sql name ↔ name ∈ table_names u part := by
  rw [mem_table_names]
  subst hrest
  constructor
  · rintro ⟨before', after', head', part', more', hfirst', hsplit', hlen', hend, hname⟩
    have hbefore : before' = before := (hfirst'.unique hfirst).1
    have hsame : part' ++ more' = part ++ more := by
      refine rest_unique (hsplit'.symm.trans hsplit) ?_
      rw [hlen', hlen, hbefore]
    have hparts : part' = part := by
      refine part_unique hsame ?_
      rw [listEnd_iff.mp hend, hpart, hsame]
    rwa [← hparts]
  · intro hname
    exact ⟨before, after, head, part, more, hfirst, hsplit, hlen, listEnd_iff.mpr hpart, hname⟩

theorem from_tables_returns (u : Unicode) (sql : List Char) :
    (from_tables u sql).Returns
      (∀ before after, FirstMatch from_kw (u.uppercase sql) before after →
        ∃ head rest, sql = head ++ rest ∧ byteLen head = byteLen before + 6 ∧ EndFits u rest)
      fun tables => ∀ name, name ∈ tables ↔ ListedFrom u sql name := by
  unfold from_tables
  cases hfind : findText from_kw (u.uppercase sql) with
  | none =>
    refine .of_ok (fun name => ?_) fun before after h => absurd h.1 (findText_eq_none hfind)
    refine ⟨fun h => absurd h not_mem_nil, ?_⟩
    rintro ⟨before, after, -, -, -, hfirst, -⟩
    exact absurd hfirst.1 (findText_eq_none hfind)
  | some from_pos =>
    obtain ⟨before, after, hfirst, rfl⟩ := findText_eq_some hfind
    have hiff : (∀ before after, FirstMatch from_kw (u.uppercase sql) before after →
        ∃ head rest, sql = head ++ rest ∧ byteLen head = byteLen before + 6 ∧ EndFits u rest) ↔
        ∃ head rest, sql = head ++ rest ∧ byteLen head = byteLen before + 6 ∧ EndFits u rest := by
      refine ⟨fun h => h before after hfirst, fun h before' after' h' => ?_⟩
      rwa [(h'.unique hfirst).1]
    have htables : ∀ rest, (∃ head, sql = head ++ rest ∧ byteLen head = byteLen before + 6) →
        (Outcome.ofOption (sliceTo rest (end_pos u rest)) >>= fun table_part =>
          (.ok (table_names u table_part) : Outcome Unit (List (List Char)))).Returns
        (∃ head rest, sql = head ++ rest ∧ byteLen head = byteLen before + 6 ∧ EndFits u rest)
        fun tables => ∀ name, name ∈ tables ↔ ListedFrom u sql name := by
      rintro rest ⟨head, hsplit, hlen⟩
      refine ((sliceTo_returns rest _).bind fun part hpart => .of_ok ?_ trivial).congr ?_
      · obtain ⟨more, hrest, hend⟩ := hpart
        exact fun name => (listedFrom_iff hfirst hsplit hlen hrest hend).symm
      · rw [and_true, boundary_end_pos_iff]
        refine ⟨fun h => ⟨head, rest, hsplit, hlen, h⟩, ?_⟩
        rintro ⟨head', rest', hsplit', hlen', h⟩
        rwa [rest_unique (hsplit.symm.trans hsplit') (hlen.trans hlen'.symm)]
    refine ((sliceFrom_returns sql _).bind htables).congr (Iff.trans ?_ hiff.symm)
    refine ⟨And.right, fun h => ⟨?_, h⟩⟩
    obtain ⟨head, rest, hsplit, hlen, -⟩ := h
    exact ⟨head, rest, hsplit, hlen⟩

end FromClause

/-! ## The joins -/

section Joins

variable {u : Unicode} {sql join_kw before rest name : List Char}

theorem mem_push_join {after_join : List Char} {tables : List (List Char)} :
    name ∈ push_join u after_join tables ↔ name ∈ tables ∨ ∃ word,
      u.first_word after_join = some word ∧
      name = u.to_lowercase (trim_matches (fun c => is_quote c || c = ',') word) ∧
      name ≠ [] ∧ name ≠ "on".toList := by
  unfold push_join
  cases hword : u.first_word after_join with
  | none => simp
  | some word =>
    generalize hlower : u.to_lowercase (trim_matches (fun c => is_quote c || c = ',') word) = lower
    have hfound : (∃ word', some word = some word' ∧
        name = u.to_lowercase (trim_matches (fun c => is_quote c || c = ',') word') ∧
        name ≠ [] ∧ name ≠ "on".toList) ↔ name = lower ∧ name ≠ [] ∧ name ≠ "on".toList := by
      constructor
      · rintro ⟨word', hword', rfl, hne⟩
        cases hword'
        exact ⟨hlower, hne⟩
      · rintro ⟨rfl, hne⟩
        exact ⟨word, rfl, hlower.symm, hne⟩
    rw [hfound]
    simp only [hlower]
    split
    · next hnew =>
      rw [mem_append, mem_singleton]
      refine or_congr_right ⟨fun h => ⟨h, ?_⟩, And.left⟩
      rw [h]
      exact ⟨hnew.1, hnew.2.1⟩
    · next hold =>
      refine ⟨.inl, ?_⟩
      rintro (h | ⟨rfl, hne, hon⟩)
      · exact h
      · by_contra hmem
        exact hold ⟨hne, hon, hmem⟩

theorem join_table_returns (u : Unicode) (sql : List Char) (actual_pos : Nat)
    (tables : List (List Char)) :
    (join_table u sql actual_pos tables).Returns
      (actual_pos < byteLen sql → Boundary sql actual_pos)
      fun tables' => ∀ name, name ∈ tables' ↔ name ∈ tables ∨
        actual_pos < byteLen sql ∧ NamedAt u sql actual_pos name := by
  unfold join_table
  split
  · next hlt =>
    refine ((sliceFrom_returns sql actual_pos).bind fun after hafter => .of_ok ?_ trivial).congr ?_
    · obtain ⟨head, hsplit, hlen⟩ := hafter
      intro name
      rw [mem_push_join, and_iff_right hlt]
      refine or_congr_right ⟨?_, ?_⟩
      · rintro ⟨word, hword, hname⟩
        exact ⟨head, after, word, hsplit, hlen, hword, hname⟩
      · rintro ⟨head', after', word, hsplit', hlen', hword, hname⟩
        rw [rest_unique (hsplit'.symm.trans hsplit) (hlen'.trans hlen.symm)] at hword
        exact ⟨word, hword, hname⟩
    · exact ⟨fun h _ => h.1, fun h => ⟨h hlt, trivial⟩⟩
  · next hlt =>
    refine .of_ok (fun name => ?_) fun h => absurd h hlt
    exact ⟨.inl, fun h => h.resolve_right fun h => hlt h.1⟩

/-- The scan of what is left of the upper-cased text. It starts at the offset of the rest, so the
    copy is never cut badly, and each round leaves less: it ends before its rounds do. -/
theorem join_scan_returns (hkw : 0 < byteLen join_kw) (rounds : Nat)
    (hupper : u.uppercase sql = before ++ rest) (hrounds : byteLen rest < rounds)
    (tables : List (List Char)) :
    (join_scan u sql join_kw rounds (byteLen before) tables).Returns
      (∀ n, ScanEnd join_kw rest n → byteLen before + n < byteLen sql →
        Boundary sql (byteLen before + n))
      fun tables' => ∀ name, name ∈ tables' ↔ name ∈ tables ∨
        ∃ n, ScanEnd join_kw rest n ∧ byteLen before + n < byteLen sql ∧
          NamedAt u sql (byteLen before + n) name := by
  induction rounds generalizing before rest tables with
  | zero => omega
  | succ rounds ih =>
    rw [join_scan, hupper, sliceFrom_append]
    simp only [Outcome.ofOption, Outcome.ok_bind]
    cases hfind : findText join_kw rest with
    | none =>
      have hno : ∀ n, ¬ScanEnd join_kw rest n := by
        intro n hn
        obtain ⟨skipped, after, hmatch⟩ := hn.exists_match
        exact findText_eq_none hfind hmatch.1
      refine .of_ok (fun name => ?_) fun n hn => absurd hn (hno n)
      refine ⟨.inl, fun h => h.resolve_right ?_⟩
      rintro ⟨n, hn, -⟩
      exact hno n hn
    | some join_pos =>
      obtain ⟨skipped, after, hmatch, rfl⟩ := findText_eq_some hfind
      have hrest : u.uppercase sql = (before ++ skipped ++ join_kw) ++ after := by
        rw [hupper, hmatch.1]
        simp only [append_assoc]
      have hpos : byteLen (before ++ skipped ++ join_kw) =
          byteLen before + byteLen skipped + byteLen join_kw := by
        simp only [byteLen_append]
      have hless : byteLen after < rounds := by
        have hlen := congrArg byteLen hmatch.1
        simp only [byteLen_append] at hlen
        omega
      have hround := join_table_returns u sql
        (byteLen before + byteLen skipped + byteLen join_kw) tables
      have hlater := fun tables' => ih hrest hless tables'
      rw [hpos] at hlater
      -- the names of this round, and those of the later ones
      refine (hround.bind fun tables' htables' => (hlater tables').mono
        fun tables'' htables'' name => ?_).congr ?_
      · rw [htables'', htables', exists_scanEnd_iff hmatch, or_assoc]
        simp only [Nat.add_assoc]
      · rw [forall_scanEnd_iff hmatch]
        simp only [Nat.add_assoc]

end Joins

/-! ## The whole text -/

/-- The loop over the join keywords. A list of tables goes forward by names
    that stand after one of them. -/
theorem join_loop_returns (u : Unicode) (sql : List Char) (tables : List (List Char)) :
    (join_keywords.foldlM (fun tables join_kw =>
      join_scan u sql join_kw (byteLen (u.uppercase sql) + 1) 0 tables) tables).Returns
    (∀ kw ∈ join_keywords, ∀ n, ScanEnd kw (u.uppercase sql) n → n < byteLen sql → Boundary sql n)
    fun tables' => ∀ name, name ∈ tables' ↔ name ∈ tables ∨
      ∃ kw ∈ join_keywords, ListedJoin u sql kw name := by
  have hkw : ∀ kw ∈ join_keywords, 0 < byteLen kw := by decide
  have hscan : ∀ tables : List (List Char), ∀ kw ∈ join_keywords,
      (join_scan u sql kw (byteLen (u.uppercase sql) + 1) 0 tables).Returns
        (∀ n, ScanEnd kw (u.uppercase sql) n → n < byteLen sql → Boundary sql n)
        fun tables' => ∀ name, name ∈ tables' ↔ name ∈ tables ∨ ListedJoin u sql kw name := by
    intro tables kw hmem
    have hscan := join_scan_returns (hkw kw hmem) (byteLen (u.uppercase sql) + 1)
      (show u.uppercase sql = [] ++ u.uppercase sql from rfl) (Nat.lt_succ_self _) tables
    simp only [byteLen_nil, Nat.zero_add] at hscan
    exact hscan
  have hrounds := Outcome.Returns.foldlM
    (f := fun tables join_kw => join_scan u sql join_kw (byteLen (u.uppercase sql) + 1) 0 tables)
    (R := fun tables tables' => (∀ name ∈ tables, name ∈ tables') ∧ ∀ name ∈ tables',
      name ∈ tables ∨ ∃ kw ∈ join_keywords, ListedJoin u sql kw name)
    (D := fun tables' kw => ∀ name, ListedJoin u sql kw name → name ∈ tables')
    (G := fun _ kw => ∀ n, ScanEnd kw (u.uppercase sql) n → n < byteLen sql → Boundary sql n)
    (l := join_keywords) (s := tables) (fun _ => ⟨fun _ h => h, fun _ h => .inl h⟩)
    (fun _ _ _ h h' => ⟨fun name hname => h'.1 name (h.1 name hname), fun name hname =>
      (h'.2 name hname).elim (h.2 name) .inr⟩)
    (fun _ _ _ _ => Iff.rfl) (fun _ _ _ h hd name hname => h.1 name (hd name hname))
    fun tables' _ kw hmem => (hscan tables' kw hmem).mono fun tables'' h =>
      ⟨⟨fun name hname => (h name).mpr (.inl hname), fun name hname =>
        ((h name).mp hname).imp_right fun hlisted => ⟨kw, hmem, hlisted⟩⟩,
        fun name hname => (h name).mpr (.inr hname)⟩
  refine hrounds.mono fun tables' h name => ⟨h.1.2 name, ?_⟩
  rintro (hname | ⟨kw, hmem, hname⟩)
  · exact h.1.1 name hname
  · exact h.2 kw hmem name hname

/-- A query text is read exactly if it can be cut where the keywords of its upper-cased copy say,
    and the tables are then the names it lists; otherwise the function panics. -/
theorem extract_tables_returns (u : Unicode) (sql : List Char) :
    (extract_tables u sql).Returns (Fits u sql)
      fun tables => ∀ name, name ∈ tables ↔ Listed u sql name := by
  have hloop : ∀ tables : List (List Char), (∀ name, name ∈ tables ↔ ListedFrom u sql name) →
      (join_keywords.foldlM (fun tables join_kw =>
        join_scan u sql join_kw (byteLen (u.uppercase sql) + 1) 0 tables) tables).Returns
      (∀ kw ∈ join_keywords, ∀ n, ScanEnd kw (u.uppercase sql) n → n < byteLen sql →
        Boundary sql n) fun tables' => ∀ name, name ∈ tables' ↔ Listed u sql name := by
    intro tables htables
    refine (join_loop_returns u sql tables).mono fun tables' h name => ?_
    rw [h, htables]
    rfl
  refine ((from_tables_returns u sql).bind hloop).congr ?_
  exact ⟨fun h => ⟨h.1, h.2⟩, fun h => ⟨h.from_clause, h.joins⟩⟩

theorem boundary_of_uppercase {u : Unicode} {text : List Char}
    (hkeeps : ∀ c ∈ text, (u.to_uppercase c).map Char.utf8Size = [c.utf8Size])
    (h : Boundary (u.uppercase text) n) : Boundary text n := by
  induction text generalizing n with
  | nil => exact h
  | cons c text ih =>
    obtain ⟨c', hc', hsize⟩ := map_eq_singleton_iff.mp (hkeeps c mem_cons_self)
    obtain ⟨before, after, hsplit, rfl⟩ := h
    have hupper : u.uppercase (c :: text) = c' :: u.uppercase text := by
      unfold Unicode.uppercase
      rw [flatMap_cons, hc']
      rfl
    rw [hupper] at hsplit
    cases before with
    | nil => exact ⟨[], c :: text, rfl, rfl⟩
    | cons c'' before =>
      obtain ⟨rfl, htail⟩ := List.cons.inj hsplit
      obtain ⟨before', after', rfl, hlen⟩ :=
        ih (forall_mem_cons.mp hkeeps).2 ⟨before, after, htail, rfl⟩
      refine ⟨c :: before', after', rfl, ?_⟩
      rw [byteLen_cons, byteLen_cons, hlen, hsize]

theorem fits_of_keeps_lengths {u : Unicode} {sql : List Char}
    (hkeeps : ∀ c ∈ sql, (u.to_uppercase c).map Char.utf8Size = [c.utf8Size]) : Fits u sql := by
  refine ⟨fun before after hmatch => ?_, fun kw _ n hn _ => ?_⟩
  · have hcut : Boundary (u.uppercase sql) (byteLen before + 6) :=
      ⟨before ++ from_kw, after, hmatch.1, byteLen_append before from_kw⟩
    obtain ⟨head, rest, rfl, hlen⟩ := boundary_of_uppercase hkeeps hcut
    refine ⟨head, rest, rfl, hlen, fun n hn _ _ => ?_⟩
    obtain ⟨kw, -, before', after', hend, rfl⟩ := hn
    refine boundary_of_uppercase (fun c hc => hkeeps c (mem_append_right _ hc)) ?_
    exact ⟨before', kw ++ after', by rw [hend.1, append_assoc], rfl⟩
  · exact boundary_of_uppercase hkeeps hn.boundary

/-- The tables of a query text are extracted, with no cut out of bounds or off
    a character boundary, exactly if the offsets fit. -/
theorem tables_extracted_iff (u : Unicode) (sql : List Char) :
    (∃ tables, extract_tables u sql = .ok tables) ↔ Fits u sql := by
  constructor
  · rintro ⟨tables, hok⟩
    by_contra hfits
    rw [(extract_tables_returns u sql).panic hfits] at hok
    cases hok
  · intro hfits
    obtain ⟨tables, hok, -⟩ := (extract_tables_returns u sql).ok hfits
    exact ⟨tables, hok⟩

/-- The case mapping of ASCII, and of one letter that gets longer. -/
def sample_unicode : Unicode where
  to_uppercase c := if c = 'ŉ' then ['ʼ', 'N'] else [c.toUpper]
  to_lowercase text := text.map Char.toLower
  is_whitespace := Char.isWhitespace

theorem ascii_query_is_read : Fits sample_unicode "select a from t join s on a = b".toList ∧
    ∃ tables, extract_tables sample_unicode "select a from t join s on a = b".toList =
      .ok tables := by
  -- all letters are tried, and not all characters
  have hkeeps : "select a from t join s on a = b".toList.all (fun c =>
      (sample_unicode.to_uppercase c).map Char.utf8Size = [c.utf8Size]) = true := by
    decide +kernel
  have hfits : Fits sample_unicode "select a from t join s on a = b".toList :=
    fits_of_keeps_lengths fun c hc => of_decide_eq_true (all_eq_true.mp hkeeps c hc)
  exact ⟨hfits, (tables_extracted_iff _ _).mpr hfits⟩

/-- Two such letters before FROM push the cut behind it over the end of the text. -/
theorem longer_letters_panic :
    ¬∃ tables, extract_tables sample_unicode "select ŉŉ from t".toList = .ok tables := by
  have hpanic : extract_tables sample_unicode "select ŉŉ from t".toList = .panic := by
    decide +kernel
  rintro ⟨tables, hok⟩
  cases hok

end Noria.Ffi

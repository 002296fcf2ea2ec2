import Noria.Sqlite.Columns
import Noria.Sqlite.Occurrence

/-! # The chain of a FROM clause

  `build_from_clause` in a fresh executor builds a chain of joins (`BuiltJoins.chain`), provided
  that every table is looked up by one column only.
-/

namespace Noria.Sqlite

open Bag List Option SqlConverter

variable {left : List String} {wl wr k : Nat} {links : List Link} {c b old i wc rk n : Nat}
  {t : String} {l : Link} {steps : List JoinStep}

/-! ## Join columns -/

/-- The join columns exist. Without a constraint they are the first
    columns, so that the tables need one. -/
theorem extract_join_keys_lt {constraint : Option JoinConstraint} {right : List String} {l r : Nat}
    (h : extract_join_keys constraint left right = .ok (l, r)) (hl : left ≠ []) (hr : right ≠ []) :
    l < left.length ∧ r < right.length := by
  rcases constraint with _ | expr | cols
  · cases h
    exact ⟨length_pos_iff.mpr hl, length_pos_iff.mpr hr⟩
  · simp only [extract_join_keys] at h
    split at h
    case h_2 => cases h
    rename_i k hkeys
    cases h
    split at hkeys
    · split at hkeys
      · rename_i h₁ h₂
        cases hkeys
        exact ⟨get_column_index_lt h₁, get_column_index_lt h₂⟩
      · split at hkeys
        · rename_i h₁ h₂
          cases hkeys
          exact ⟨get_column_index_lt h₂, get_column_index_lt h₁⟩
        · cases hkeys
    · cases hkeys
  · simp only [extract_join_keys] at h
    split at h
    case h_2 => cases h
    rename_i k hkeys
    cases h
    simp only [bind_eq_bind, bind_eq_some_iff, some.injEq,
      Prod.mk.injEq] at hkeys
    obtain ⟨name, -, i, hi, j, hj, rfl, rfl⟩ := hkeys
    exact ⟨(findIdx?_eq_some_iff_getElem.mp hi).1, (findIdx?_eq_some_iff_getElem.mp hj).1⟩

theorem length_joinEmit (h : rk < wr) :
    (joinEmit wl wr rk).length = wl + (wr - 1) := by
  have hfilter : ((List.range wr).filter (· ≠ rk)).length = wr - 1 := by
    have herase := (nodup_range (n := wr)).erase_eq_filter rk
    rw [show (fun x => decide (x ≠ rk)) = fun x => x != rk from by
      funext x
      rw [Bool.eq_iff_iff]
      simp]
    rw [← herase, length_erase_of_mem (mem_range.mpr h), length_range]
  rw [joinEmit, length_append, length_map, length_map,
    length_range, hfilter]

theorem length_joinedColumns {right : List String} (h : rk < right.length) :
    (joinedColumns left right rk).length = left.length + (right.length - 1) := by
  rw [joinedColumns, length_append, length_eraseIdx_of_lt h]

theorem reads_joinOpFor {operator : JoinOperator} {lk : Nat} (hl : lk < wl) (hr : rk < wr) :
    (joinOpFor operator lk rk wl wr).Reads wl wr where
  left := hl
  right := hr
  emit e he := by
    rcases mem_append.mp he with he | he
    · obtain ⟨i, hi, rfl⟩ := mem_map.mp he
      simpa using hi
    · obtain ⟨i, hi, rfl⟩ := mem_map.mp he
      simpa using (mem_filter.mp hi).1

/-! ## The tables of a FROM clause -/

/-- A FROM clause of named tables: the first one, and the joins. -/
structure JoinQuery where
  first : String
  steps : List JoinStep

namespace JoinQuery

def tables (q : JoinQuery) : List (String × JoinOp) := q.steps.map fun s => (s.table, s.op)

/-- The join of the current tables. -/
def content (q : JoinQuery) (T : String → Multiset VRow) : Multiset VRow :=
  q.steps.foldl (fun L s => s.op.inner L (T s.table)) (T q.first)

end JoinQuery

/-- The query of a FROM clause. -/
def SqlConverter.joinQuery (conv : SqlConverter) (from_clause : FromClause) : Option JoinQuery :=
  match from_clause.select with
  | some (.table name _) => do
    let schema ← conv.get_schema name
    let (steps, _) ← joinSteps conv (from_clause.joins.getD []) schema.columns
    some ⟨name, steps⟩
  | _ => none

def SqlConverter.width (conv : SqlConverter) (table : String) : Nat :=
  match conv.get_schema table with
  | some schema => schema.columns.length
  | none => 0

/-- The joins read columns that exist, the first of them on the left in rows of width `wc`. -/
def StepsRead (width : String → Nat) : Nat → List JoinStep → Prop
  | _, [] => True
  | wc, s :: rest => s.op.Reads wc (width s.table) ∧ StepsRead width s.op.emit.length rest

def lastWidth : Nat → List JoinStep → Nat
  | wc, [] => wc
  | _, s :: rest => lastWidth s.op.emit.length rest

/-- A table has a column. -/
def SqlConverter.HasColumns (conv : SqlConverter) : Prop := ∀ s ∈ conv.schemas, s.columns ≠ []

theorem SqlConverter.HasColumns.get_schema {conv : SqlConverter} (h : conv.HasColumns)
    {schema : TableSchema} (hs : conv.get_schema t = some schema) :
    schema.columns ≠ [] := h schema (mem_of_find?_eq_some hs)

theorem joinSteps_read {conv : SqlConverter} (hcols : conv.HasColumns)
    {joins : List JoinedSelectTable} {columns columns' : List String}
    (h : joinSteps conv joins columns = some (steps, columns')) (hne : columns ≠ []) :
    StepsRead conv.width columns.length steps ∧
      columns'.length = lastWidth columns.length steps := by
  induction joins generalizing columns steps with
  | nil =>
    cases h
    exact ⟨trivial, rfl⟩
  | cons join joins ih =>
    unfold joinSteps at h
    split at h
    · split at h
      · rename_i schema hschema
        split at h
        · rename_i lk rk hkeys
          simp only [bind_eq_bind, bind_eq_some_iff] at h
          obtain ⟨⟨steps', final⟩, hrest, h⟩ := h
          cases h
          obtain ⟨hl, hr⟩ := extract_join_keys_lt hkeys hne (hcols.get_schema hschema)
          have hlen : (joinedColumns columns schema.columns rk).length
              = (joinEmit columns.length schema.columns.length rk).length := by
            rw [length_joinedColumns hr, length_joinEmit hr]
          have hne' : joinedColumns columns schema.columns rk ≠ [] := by
            rw [joinedColumns]
            simp [hne]
          obtain ⟨hread, hwidth⟩ := ih hrest hne'
          rw [hlen] at hread hwidth
          refine ⟨⟨?_, hread⟩, hwidth⟩
          rw [width, hschema]
          exact reads_joinOpFor hl hr
        · cases h
      · cases h
    · cases h

/-! ## From links to a chain -/

theorem newChildren_of_apart (hc : c ≠ i) (h : ∀ l ∈ links, l.right ≠ i ∧ l.node ≠ i) :
    newChildren i c links = [] := by
  induction links generalizing c with
  | nil => rfl
  | cons l rest ih =>
    obtain ⟨hr, hn⟩ := h l mem_cons_self
    rw [newChildren, if_neg hc, if_neg hr, ih hn (forall_mem_cons.mp h).2]
    rfl

theorem lastIndex_of_apart (hc : c ≠ i) (h : ∀ l ∈ links, l.right ≠ i ∧ l.node ≠ i) :
    lastIndex i c links = none := by
  induction links generalizing c with
  | nil => rfl
  | cons l rest ih =>
    obtain ⟨hr, hn⟩ := h l mem_cons_self
    rw [lastIndex, ih hn (forall_mem_cons.mp h).2]
    rw [if_neg hr, if_neg hc]

theorem newChildren_base (hc : c ≠ b) (h : ∀ l ∈ links, l.node ≠ b) :
    newChildren b c links = LocalExecutor.edgesTo b links := by
  induction links generalizing c with
  | nil => rfl
  | cons l rest ih =>
    rw [newChildren, if_neg hc, ih (h l mem_cons_self) fun l' hl' =>
      h l' (mem_cons_of_mem _ hl'), LocalExecutor.edgesTo, LocalExecutor.edgesTo,
      filter_cons]
    by_cases hr : l.right = b <;> simp [hr]

theorem lastKey_mem {t : Nat} {tables : List (Nat × JoinOp)} (h : lastKey t tables = some k) :
    ∃ p ∈ tables, p.1 = t ∧ p.2.right_key = k := by
  induction tables with
  | nil => cases h
  | cons p rest ih =>
    obtain ⟨s, op⟩ := p
    rw [lastKey] at h
    split at h
    · rename_i k' hk'
      cases h
      obtain ⟨p, hp, hpt⟩ := ih hk'
      exact ⟨p, mem_cons_of_mem _ hp, hpt⟩
    · split at h
      · rename_i hs
        cases h
        exact ⟨(s, op), mem_cons_self, hs, rfl⟩
      · cases h

theorem lastIndex_base (hc : c ≠ b) (h : ∀ l ∈ links, l.node ≠ b) :
    lastIndex b c links = lastKey b (links.map fun l => (l.right, l.op)) := by
  induction links generalizing c with
  | nil => rfl
  | cons l rest ih =>
    have hrest := ih (h l mem_cons_self) (forall_mem_cons.mp h).2
    cases hlast : lastKey b (rest.map fun l => (l.right, l.op)) <;>
      simp only [lastIndex, map_cons, lastKey, hrest, hlast, if_neg hc]

theorem lastIndex_first {first : Nat} {l₁ : Link} {rest : List Link}
    (h : ∀ l ∈ l₁ :: rest, l.node ≠ b) :
    lastIndex b first (l₁ :: rest)
      = match lastKey b ((l₁ :: rest).map fun l => (l.right, l.op)) with
        | some k => some k
        | none => if first = b then some l₁.op.left_key else none := by
  rw [lastIndex, lastIndex_base (h l₁ mem_cons_self) fun l hl =>
    h l (mem_cons_of_mem _ hl), map_cons, lastKey]
  cases lastKey b (rest.map fun l => (l.right, l.op)) with
  | some k => rfl
  | none => by_cases hr : l₁.right = b <;> simp [hr]

namespace LocalExecutor

/-- The joins of a chain read columns that exist. -/
def LinksRead (w : Nat → Nat) : Nat → List Link → Prop
  | _, [] => True
  | wc, l :: rest => l.op.Reads wc (w l.right) ∧ LinksRead w l.op.emit.length rest

def linksWidth : Nat → List Link → Nat
  | wc, [] => wc
  | _, l :: rest => linksWidth l.op.emit.length rest

variable {ex : LocalExecutor} {w : Nat → Nat}

theorem JoinNodes.lt (h : ex.JoinNodes old c links) : ∀ l ∈ links, c < l.node := by
  induction links generalizing c with
  | nil => exact fun l hl => absurd hl not_mem_nil
  | cons l rest ih =>
    obtain ⟨-, hc, -, -, hrest⟩ := h
    intro l' hl'
    rcases mem_cons.mp hl' with rfl | hl'
    · exact hc
    · exact Nat.lt_trans hc (ih hrest l' hl')

theorem le_lastNode (h : ex.JoinNodes old c links) : c ≤ lastNode c links := by
  induction links generalizing c with
  | nil => exact Nat.le_refl c
  | cons l rest ih => exact Nat.le_trans (Nat.le_of_lt h.2.1) (ih h.2.2.2.2)

theorem lastNode_mem (c : Nat) (l : Link) (rest : List Link) :
    ∃ l' ∈ l :: rest, lastNode c (l :: rest) = l'.node := by
  induction rest generalizing c l with
  | nil => exact ⟨l, mem_cons_self, rfl⟩
  | cons l₂ rest ih =>
    obtain ⟨l', hl', hlast⟩ := ih l.node l₂
    exact ⟨l', mem_cons_of_mem _ hl', hlast⟩

theorem LinksRead.right (h : LinksRead w wc links) : ∀ l ∈ links, l.op.right_key < w l.right := by
  induction links generalizing wc with
  | nil => exact fun l hl => absurd hl not_mem_nil
  | cons l rest ih =>
    intro l' hl'
    rcases mem_cons.mp hl' with rfl | hl'
    · exact h.1.right
    · exact ih h.2 l' hl'

theorem JoinNodes.core (h : ex.JoinNodes old c links) :
    ∀ l ∈ links, ∃ k, ex.core l.node = some k ∧ k.operator ≠ none := by
  induction links generalizing c with
  | nil => exact fun l hl => absurd hl not_mem_nil
  | cons l rest ih =>
    obtain ⟨⟨columns, hk⟩, -, -, -, hrest⟩ := h
    intro l' hl'
    rcases mem_cons.mp hl' with rfl | hl'
    · exact ⟨_, hk, by simp⟩
    · exact ih hrest l' hl'

theorem HasIndex.of_stateOf (h : ex.stateOf i = some (.new [k])) : ex.HasIndex i k := by
  obtain ⟨nd, hn, hst⟩ := bind_eq_some_iff.mp h
  exact ⟨nd, _, hn, hst, rfl⟩

theorem KeysBelow.of_stateOf {width : Nat}
    (h : ∀ st, ex.stateOf i = some st → ∀ c ∈ st.key_columns, c < width) :
    ex.KeysBelow i width := by
  intro nd st hn hst
  exact h st (by rw [stateOf, hn]; exact hst)

theorem JoinNodes.joinAt {rest : List Link} (h : ex.JoinNodes old c (l :: rest))
    (hreads : l.op.Reads wc (w l.right)) (hindex : ex.HasIndex l.right l.op.right_key)
    (hkeys : ex.KeysBelow l.node l.op.emit.length) : ex.JoinAt w c wc l where
  node := by
    obtain ⟨⟨columns, hk⟩, -⟩ := h
    exact ⟨_, core_eq_some hk, rfl, rfl⟩
  reads := hreads
  gt := h.2.1
  right_lt := h.2.2.1
  index := hindex
  keys := hkeys

/-- By induction along the chain: each node has the state that the next join looks into. -/
theorem linked_of_joins {keys : List Nat} (hnodes : ex.JoinNodes old c links)
    (hinner : ∀ l ∈ links, l.op.join_type = .inner) (hreads : LinksRead w wc links)
    (hlast : ∀ k ∈ keys, k < linksWidth wc links)
    (hindex : ∀ l ∈ links, ex.HasIndex l.right l.op.right_key)
    (hapart : ∀ l ∈ links, l.right ≠ c ∧ ∀ l' ∈ links, l.right ≠ l'.node)
    (hchildren : ∀ i, (i = c ∨ ∃ l ∈ links, i = l.node) → ex.children i = newChildren i c links)
    (hstate : ∀ i, (i = c ∨ ∃ l ∈ links, i = l.node) → ex.stateOf i
      = if lastNode c links = i then some (.new keys)
        else (lastIndex i c links).map fun k => .new [k]) :
    ex.Linked w c wc links ∧ ex.KeysBelow c wc := by
  induction links generalizing c wc with
  | nil =>
    -- the last node has the keys of the view
    refine ⟨hchildren c (.inl rfl), .of_stateOf fun st hst => ?_⟩
    rw [hstate c (.inl rfl), lastNode, if_pos rfl] at hst
    cases hst
    exact hlast
  | cons l rest ih =>
    obtain ⟨hread, hreads'⟩ := hreads
    have hlt := hnodes.2.1
    have hrest := hnodes.2.2.2.2
    have hlater := hrest.lt
    obtain ⟨hrc, hrn⟩ := hapart l mem_cons_self
    -- a join node below `c` gets nothing from the link at `c`
    have hbelow : ∀ i, (i = l.node ∨ ∃ l' ∈ rest, i = l'.node) → c ≠ i ∧ l.right ≠ i := by
      rintro i (rfl | ⟨l', hl', rfl⟩)
      · exact ⟨Nat.ne_of_lt hlt, hrn l mem_cons_self⟩
      · exact ⟨Nat.ne_of_lt (Nat.lt_trans hlt (hlater l' hl')), hrn l' (mem_cons_of_mem _ hl')⟩
    have hmem : ∀ i, (i = l.node ∨ ∃ l' ∈ rest, i = l'.node) →
        i = c ∨ ∃ l' ∈ l :: rest, i = l'.node := by
      rintro i (rfl | ⟨l', hl', rfl⟩)
      · exact .inr ⟨l, mem_cons_self, rfl⟩
      · exact .inr ⟨l', mem_cons_of_mem _ hl', rfl⟩
    obtain ⟨hlinked, hkeys⟩ := ih hrest (forall_mem_cons.mp hinner).2
      hreads' hlast (forall_mem_cons.mp hindex).2 (fun l' hl' =>
        ⟨(hapart l' (mem_cons_of_mem _ hl')).2 l mem_cons_self, fun l'' hl'' =>
          (hapart l' (mem_cons_of_mem _ hl')).2 l'' (mem_cons_of_mem _ hl'')⟩)
      (fun i hi => by
        obtain ⟨hci, hri⟩ := hbelow i hi
        rw [hchildren i (hmem i hi), newChildren, if_neg hci, if_neg hri]
        rfl)
      (fun i hi => by
        obtain ⟨hci, hri⟩ := hbelow i hi
        rw [hstate i (hmem i hi), lastNode, lastIndex, if_neg hci, if_neg hri]
        cases lastIndex i l.node rest <;> rfl)
    -- and `c` gets nothing from the links below it
    have hothers : ∀ l' ∈ rest, l'.right ≠ c ∧ l'.node ≠ c := fun l' hl' =>
      ⟨(hapart l' (mem_cons_of_mem _ hl')).1, Nat.ne_of_gt (Nat.lt_trans hlt (hlater l' hl'))⟩
    -- so its state is the one that the join below looks into
    have hstate_c : ex.stateOf c = some (.new [l.op.left_key]) := by
      have hne : lastNode l.node rest ≠ c := by
        have := le_lastNode hrest
        omega
      rw [hstate c (.inl rfl), lastNode, if_neg hne, lastIndex,
        lastIndex_of_apart (Nat.ne_of_gt hlt) hothers, if_neg hrc, if_pos rfl]
      rfl
    refine ⟨⟨?_, ?_, .of_stateOf hstate_c, hrc, hlinked⟩, .of_stateOf fun st hst => ?_⟩
    · rw [hchildren c (.inl rfl), newChildren, if_pos rfl, if_neg hrc,
        newChildren_of_apart (Nat.ne_of_gt hlt) hothers]
      rfl
    · exact ⟨hnodes.joinAt hread (hindex l mem_cons_self) hkeys, hinner l mem_cons_self⟩
    · rw [hstate_c] at hst
      cases hst
      intro k hk
      rw [mem_singleton.mp hk]
      exact hread.left

/-! ## The chain built in a fresh executor -/

/-- What links and steps have in common. -/
def SameJoins (ex : LocalExecutor) : List Link → List JoinStep → Prop :=
  List.Forall₂ fun l s => l.op = s.op ∧ ex.base_tables.get? s.table = some l.right

def tableOf (ex : LocalExecutor) (n : Nat) : Option String :=
  (ex.core n).bind fun k => if ex.base_tables.get? k.name = some n then some k.name else none

theorem tableOf_eq_some {conv : SqlConverter} (htab : ex.TablesNamed conv) :
    ex.tableOf n = some t ↔ ex.base_tables.get? t = some n := by
  constructor
  · intro h
    obtain ⟨k, -, hk⟩ := bind_eq_some_iff.mp h
    split at hk
    · rename_i hget
      cases hk
      exact hget
    · cases hk
  · intro h
    obtain ⟨schema, -, hk⟩ := htab t n h
    rw [tableOf, hk, bind_some]
    exact if_pos h

def baseWidth (ex : LocalExecutor) (conv : SqlConverter) (n : Nat) : Nat :=
  match ex.tableOf n with
  | some t => conv.width t
  | none => 0

/-- The contents of the base nodes when the tables have the contents `T`. -/
def baseContent (ex : LocalExecutor) (T : String → Multiset VRow) (n : Nat) : Multiset VRow :=
  match ex.tableOf n with
  | some t => T t
  | none => 0

theorem baseWidth_of_table {conv : SqlConverter} (htab : ex.TablesNamed conv)
    (h : ex.base_tables.get? t = some n) : ex.baseWidth conv n = conv.width t := by
  rw [baseWidth, (tableOf_eq_some htab).mpr h]

theorem baseContent_of_table {conv : SqlConverter} (htab : ex.TablesNamed conv)
    (T : String → Multiset VRow) (h : ex.base_tables.get? t = some n) :
    ex.baseContent T n = T t := by
  rw [baseContent, (tableOf_eq_some htab).mpr h]

theorem SameJoins.reads {conv : SqlConverter} (htab : ex.TablesNamed conv)
    (h : ex.SameJoins links steps) (hr : StepsRead conv.width wc steps) :
    LinksRead (ex.baseWidth conv) wc links ∧ linksWidth wc links = lastWidth wc steps := by
  induction h generalizing wc with
  | nil => exact ⟨trivial, rfl⟩
  | @cons l s _ _ hls _ ih =>
    obtain ⟨hop, hget⟩ := hls
    obtain ⟨hrest, hwidth⟩ := ih hr.2
    rw [← hop] at hrest hwidth
    refine ⟨⟨?_, hrest⟩, ?_⟩
    · rw [baseWidth_of_table htab hget, hop]
      exact hr.1
    · rw [linksWidth, hwidth, lastWidth, hop]

theorem SameJoins.lastKey {conv : SqlConverter} (htab : ex.TablesNamed conv)
    (h : ex.SameJoins links steps) (hb : ex.base_tables.get? t = some b) :
    Sqlite.lastKey b (links.map fun l => (l.right, l.op))
      = Sqlite.lastKey t (steps.map fun s => (s.table, s.op)) := by
  induction h with
  | nil => rfl
  | @cons l s _ _ hls _ ih =>
    obtain ⟨hop, hget⟩ := hls
    -- a base node has one name, and a name one base node
    have hiff : l.right = b ↔ s.table = t := by
      constructor
      · rintro rfl
        have h₁ := (tableOf_eq_some htab).mpr hget
        rw [(tableOf_eq_some htab).mpr hb] at h₁
        exact (some.inj h₁).symm
      · rintro rfl
        rw [hget] at hb
        exact some.inj hb
    simp only [map_cons, Sqlite.lastKey, ih, hop, hiff]

/-- In a fresh executor the FROM clause has been built, with `node` as its
    last node, and `node` has been materialized on `keys`. -/
def JoinView (conv : SqlConverter) (from_clause : FromClause) (keys : List Nat) (node : Nat)
    (ex : LocalExecutor) : Prop :=
  ∃ columns ex₀ view, conv.build_from_clause from_clause .new = (.ok (node, columns), ex₀) ∧
    (∀ k ∈ keys, k < columns.length) ∧ ex₀.materialize node keys = some (view, ex)

/-- The graph that a FROM clause becomes, before it is read as a chain:
    the first table's node, and the joins. -/
structure BuiltJoins (conv : SqlConverter) (q : JoinQuery) (keys : List Nat) (node : Nat)
    (ex : LocalExecutor) (first : Nat) (links : List Link) : Prop where
  first_table : ex.base_tables.get? q.first = some first
  joins : ex.SameJoins links q.steps
  reads : StepsRead conv.width (conv.width q.first) q.steps
  keys_lt : ∀ k ∈ keys, k < lastWidth (conv.width q.first) q.steps
  named : ex.TablesNamed conv
  last : node = lastNode first links
  nodes : ex.JoinNodes 0 first links
  children : ∀ i, ex.children i = newChildren i first links
  state : ∀ i, ex.stateOf i = if lastNode first links = i then some (.new keys)
    else (lastIndex i first links).map fun k => .new [k]
  known : ∀ t b, ex.base_tables.get? t = some b → t = q.first ∨ ∃ s ∈ q.steps, s.table = t

section View

variable {conv : SqlConverter} {from_clause : FromClause} {keys : List Nat} {node : Nat}
  {q : JoinQuery}

theorem joins_of_view (hcols : conv.HasColumns) (hview : JoinView conv from_clause keys node ex)
    (hq : conv.joinQuery from_clause = some q) :
    ∃ first links, BuiltJoins conv q keys node ex first links := by
  obtain ⟨columns, ex₀, view, hbuild, hkeys, hmat⟩ := hview
  unfold build_from_clause at hbuild
  unfold joinQuery at hq
  cases hsel : from_clause.select with
  | none =>
    rw [hsel] at hq
    cases hq
  | some table =>
    rw [hsel] at hbuild hq
    obtain ⟨⟨first, columns₁⟩, ex₁, h₁, h₂⟩ := Keeping.bind_ok_iff.mp hbuild
    -- the first table, then the joins, then the state of the view
    have hnew : LocalExecutor.new.TablesNamed conv := fun t b ht => by cases ht
    obtain ⟨name, as_name, schema, rfl, hschema, rfl, hname, hg₁, htab₁, hchi₁, hst₁, hknown₁⟩ :=
      build_select_table_ok h₁ hnew
    obtain ⟨links, steps, hsteps, hfor, hadd, hnode, htab₀, hknown⟩ := build_joins_ok h₂ htab₁
    have hquery : q = ⟨name, steps⟩ := by
      simp only [hschema, hsteps, bind_eq_bind, bind_some, some.injEq] at hq
      exact hq.symm
    subst hquery
    obtain ⟨-, -, -, htabs, hcore, hchi, hst⟩ := materialize_parts hmat
    have hwidth : conv.width name = schema.columns.length := by
      rw [width, hschema]
    obtain ⟨hread, hlast⟩ := joinSteps_read hcols hsteps (hcols.get_schema hschema)
    refine ⟨first, links, ?_, ?_, ?_, ?_, ?_, hnode, ?_, ?_, ?_, ?_⟩
    · rw [htabs]
      exact hadd.grows.tables _ _ hname
    · rw [SameJoins, htabs]
      exact hfor
    · rw [hwidth]
      exact hread
    · rw [hwidth, ← hlast]
      exact hkeys
    · exact htab₀.of_grows (.materialize hmat) htabs
    · exact hadd.joins.grows (Nat.zero_le _) fun i k hk => by rw [hcore]; exact hk
    · intro i
      rw [hchi, hadd.children, hchi₁]
      rfl
    · -- only the joins have made states before
      intro i
      rw [hst, ← hnode]
      split
      · rfl
      · rw [hadd.state]
        cases lastIndex i first links with
        | some k => rfl
        | none =>
          rw [hst₁]
          rfl
    · intro t b ht
      rw [htabs] at ht
      rcases hknown t b ht with hold | hstep
      · rcases hknown₁ t b hold with hnone | ht
        · cases hnone
        · exact .inl ht
      · exact .inr hstep

end View

theorem right_mem_bases {first : Nat} (hl : l ∈ links) :
    l.right ∈ bases first links := mem_cons_of_mem _ (mem_map_of_mem hl)

namespace BuiltJoins

variable {conv : SqlConverter} {q : JoinQuery} {keys : List Nat} {node first : Nat}

section

variable (h : BuiltJoins conv q keys node ex first links)
include h

theorem exists_cons (hne : q.steps ≠ []) : ∃ l₁ rest, links = l₁ :: rest := by
  cases links with
  | nil =>
    have hjoins := h.joins
    cases hsteps : q.steps with
    | nil => exact absurd hsteps hne
    | cons s steps =>
      rw [hsteps] at hjoins
      cases hjoins
  | cons l₁ rest => exact ⟨l₁, rest, rfl⟩

theorem step (hl : l ∈ links) :
    ∃ s ∈ q.steps, l.op = s.op ∧ ex.base_tables.get? s.table = some l.right := by
  obtain ⟨i, hi, rfl⟩ := getElem_of_mem hl
  have hlen := h.joins.length_eq
  exact ⟨q.steps[i], getElem_mem _, List.Forall₂.get h.joins hi (by omega)⟩

theorem base (hb : b ∈ bases first links) : ∃ t, ex.base_tables.get? t = some b := by
  rcases mem_cons.mp hb with rfl | hb
  · exact ⟨_, h.first_table⟩
  · obtain ⟨l, hl, rfl⟩ := mem_map.mp hb
    obtain ⟨s, -, -, hs⟩ := h.step hl
    exact ⟨_, hs⟩

theorem base_of_table (ht : ex.base_tables.get? t = some b) : b ∈ bases first links := by
  rcases h.known t b ht with rfl | ⟨s, hs, rfl⟩
  · rw [h.first_table] at ht
    cases ht
    exact mem_cons_self
  · obtain ⟨i, hi, rfl⟩ := getElem_of_mem hs
    have hlen := h.joins.length_eq
    have hi' : i < links.length := by omega
    have hget := (List.Forall₂.get h.joins hi' hi).2
    rw [get_eq_getElem, get_eq_getElem] at hget
    rw [hget] at ht
    cases ht
    exact right_mem_bases (getElem_mem _)

/-- Base tables have no operator, joins have one. -/
theorem apart : ∀ b ∈ bases first links, ∀ l ∈ links, b ≠ l.node := by
  rintro b hb l hl rfl
  obtain ⟨t, ht⟩ := h.base hb
  obtain ⟨schema, -, hk⟩ := h.named t _ ht
  obtain ⟨k, hk', hop⟩ := h.nodes.core l hl
  rw [hk] at hk'
  cases hk'
  exact hop rfl

theorem linksRead : LinksRead (ex.baseWidth conv) (ex.baseWidth conv first) links ∧
      ∀ k ∈ keys, k < linksWidth (ex.baseWidth conv first) links := by
  obtain ⟨hlinks, hwidth⟩ := h.joins.reads h.named h.reads
  rw [baseWidth_of_table h.named h.first_table, hwidth]
  exact ⟨hlinks, h.keys_lt⟩

end

variable {l₁ : Link} {rest : List Link}
  (h : BuiltJoins conv q keys node ex first (l₁ :: rest))

include h

/-- A base node keeps the index of the last join that asked for one. -/
theorem state_base (hb : b ∈ bases first (l₁ :: rest)) :
    ex.stateOf b = (match Sqlite.lastKey b ((l₁ :: rest).map fun l : Link => (l.right, l.op)) with
        | some k => some k
        | none => if first = b then some l₁.op.left_key else none).map fun k => .new [k] := by
  have hne : lastNode first (l₁ :: rest) ≠ b := by
    intro heq
    obtain ⟨l, hl, hlast⟩ := lastNode_mem first l₁ rest
    exact h.apart b hb l hl (heq.symm.trans hlast)
  rw [h.state, if_neg hne, lastIndex_first fun l hl => Ne.symm (h.apart b hb l hl)]

theorem hasIndex (hidx : Indexed q.first q.tables) (hl : l ∈ l₁ :: rest) :
    ex.HasIndex l.right l.op.right_key := by
  obtain ⟨s, hs, hop, hget⟩ := h.step hl
  have hkey : Sqlite.lastKey l.right ((l₁ :: rest).map fun l => (l.right, l.op))
      = some l.op.right_key := by
    rw [h.joins.lastKey h.named hget, hop]
    exact hidx.right (s.table, s.op) (mem_map.mpr ⟨s, hs, rfl⟩)
  refine .of_stateOf ?_
  rw [h.state_base (right_mem_bases hl), hkey]
  rfl

/-- The first table is, unless it is joined with itself. -/
theorem hasIndex_first (hidx : Indexed q.first q.tables) (hne : l₁.right ≠ first) :
    ex.HasIndex first l₁.op.left_key := by
  refine .of_stateOf ?_
  rw [h.state_base mem_cons_self, if_pos rfl]
  cases hk : Sqlite.lastKey first ((l₁ :: rest).map fun l => (l.right, l.op)) with
  | none => rfl
  | some k =>
    -- the table is joined again later, on the column of the first join
    have hjoins := h.joins
    rw [hjoins.lastKey h.named h.first_table] at hk
    cases hsteps : q.steps with
    | nil =>
      rw [hsteps] at hjoins
      cases hjoins
    | cons s₁ steps =>
      rw [hsteps] at hjoins
      obtain ⟨⟨hop, hget⟩, -⟩ := forall₂_cons.mp hjoins
      have htables : q.tables = (s₁.table, s₁.op) :: steps.map fun s => (s.table, s.op) := by
        rw [JoinQuery.tables, hsteps]
        rfl
      have hother : s₁.table ≠ q.first := by
        intro heq
        rw [heq, h.first_table] at hget
        exact hne (some.inj hget).symm
      rw [hidx.left (s₁.table, s₁.op) _ htables hother k hk, hop]
      rfl

theorem keysBelow (hb : b ∈ bases first (l₁ :: rest)) : ex.KeysBelow b (ex.baseWidth conv b) := by
  refine .of_stateOf fun st hst => ?_
  rw [h.state_base hb] at hst
  cases hk : Sqlite.lastKey b ((l₁ :: rest).map fun l => (l.right, l.op)) with
  | some k =>
    -- the key is the right key of some join, which its table has
    rw [hk] at hst
    cases hst
    obtain ⟨p, hp, rfl, rfl⟩ := lastKey_mem hk
    obtain ⟨l, hl, rfl⟩ := mem_map.mp hp
    intro c hc
    rw [mem_singleton.mp hc]
    exact h.linksRead.1.right l hl
  | none =>
    rw [hk] at hst
    by_cases hb' : first = b
    · subst hb'
      rw [if_pos rfl] at hst
      cases hst
      intro c hc
      rw [mem_singleton.mp hc]
      exact h.linksRead.1.1.left
    · rw [if_neg hb'] at hst
      cases hst

theorem children_base (hb : b ∈ bases first (l₁ :: rest)) :
    ex.children b = (if first = b then [l₁.node] else []) ++ edgesTo b (l₁ :: rest) := by
  have hne : ∀ l ∈ l₁ :: rest, l.node ≠ b := fun l hl => Ne.symm (h.apart b hb l hl)
  rw [h.children, newChildren, newChildren_base (hne l₁ mem_cons_self) fun l hl =>
    hne l (mem_cons_of_mem _ hl), edgesTo, edgesTo, filter_cons]
  by_cases hr : l₁.right = b <;> simp [hr]

theorem inner (hinner : ∀ s ∈ q.steps, s.op.join_type = .inner) (hl : l ∈ l₁ :: rest) :
    l.op.join_type = .inner := by
  obtain ⟨s, hs, hop, -⟩ := h.step hl
  rw [hop]
  exact hinner s hs

theorem linked_rest (hinner : ∀ l ∈ rest, l.op.join_type = .inner)
    (hidx : Indexed q.first q.tables) :
    ex.Linked (ex.baseWidth conv) l₁.node l₁.op.emit.length rest ∧
      ex.KeysBelow l₁.node l₁.op.emit.length := by
  -- below the first join, the first link is out of sight
  have hskip : ∀ i, (i = l₁.node ∨ ∃ l ∈ rest, i = l.node) → first ≠ i ∧ l₁.right ≠ i := by
    have hmem : ∀ i, (i = l₁.node ∨ ∃ l ∈ rest, i = l.node) → ∃ l ∈ l₁ :: rest, i = l.node := by
      rintro i (rfl | ⟨l, hl, rfl⟩)
      · exact ⟨l₁, mem_cons_self, rfl⟩
      · exact ⟨l, mem_cons_of_mem _ hl, rfl⟩
    intro i hi
    obtain ⟨l, hl, rfl⟩ := hmem i hi
    exact ⟨h.apart _ mem_cons_self l hl, h.apart _ (right_mem_bases mem_cons_self) l hl⟩
  obtain ⟨hreads, hkeys⟩ := h.linksRead
  refine linked_of_joins h.nodes.2.2.2.2 hinner hreads.2 hkeys
    (fun l hl => h.hasIndex hidx (mem_cons_of_mem _ hl)) ?_ ?_ ?_
  · intro l hl
    have hright : l.right ∈ bases first (l₁ :: rest) := right_mem_bases (mem_cons_of_mem _ hl)
    exact ⟨h.apart _ hright l₁ mem_cons_self, fun l' hl' =>
      h.apart _ hright l' (mem_cons_of_mem _ hl')⟩
  · intro i hi
    rw [h.children, newChildren, if_neg (hskip i hi).1, if_neg (hskip i hi).2]
    rfl
  · intro i hi
    rw [h.state, lastNode, lastIndex, if_neg (hskip i hi).1, if_neg (hskip i hi).2]
    cases lastIndex i l₁.node rest <;> rfl

theorem joinAt (hinner : ∀ l ∈ rest, l.op.join_type = .inner)
    (hidx : Indexed q.first q.tables) :
    ex.JoinAt (ex.baseWidth conv) first (ex.baseWidth conv first) l₁ :=
  h.nodes.joinAt h.linksRead.1.1 (h.hasIndex hidx mem_cons_self) (h.linked_rest hinner hidx).2

theorem chain (hinner : ∀ s ∈ q.steps, s.op.join_type = .inner)
    (hidx : Indexed q.first q.tables) : ex.Chain (ex.baseWidth conv) first l₁ rest where
  joined := ⟨h.joinAt (fun l hl => h.inner hinner (mem_cons_of_mem _ hl)) hidx,
    h.inner hinner mem_cons_self⟩
  linked := (h.linked_rest (fun l hl => h.inner hinner (mem_cons_of_mem _ hl)) hidx).1
  index := h.hasIndex_first hidx
  lt b hb := by
    obtain ⟨t, ht⟩ := h.base hb
    obtain ⟨schema, -, hk⟩ := h.named t b ht
    exact core_lt hk
  keys _ hb := h.keysBelow hb
  children _ hb := h.children_base hb
  apart := h.apart

omit h in
theorem empty (h : BuiltJoins conv q keys node ex first links) (i : Nat) : ex.StateAt i 0 := by
  intro nd st hn hs
  have hst : ex.stateOf i = some st := by
    rw [stateOf, hn]
    exact hs
  rw [h.state] at hst
  split at hst
  · cases hst
    exact ⟨MemoryState.ok_new _, rfl⟩
  · obtain ⟨k, -, rfl⟩ := map_eq_some_iff.mp hst
    exact ⟨MemoryState.ok_new _, rfl⟩

end BuiltJoins

end LocalExecutor

end Noria.Sqlite

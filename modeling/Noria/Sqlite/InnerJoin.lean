import Noria.Sqlite.FromClause

/-! # Chains of inner joins over whole runs

  After every batch, the last join of a FROM clause has the join of the current tables. For pairwise
  different tables this needs nothing more (`inner_joins_maintained`). Where a table occurs more
  than once, it needs one join column for each table and batches that do not meet themselves
  (`shared_joins_maintained`); a self join shows that it fails otherwise.
-/

namespace Noria.Sqlite

open Bag Option List

variable {steps : List JoinStep} {records : Records} {M : Multiset VRow} {t : String}
  {T : String → Multiset VRow} {links : List Link} {b : Nat}

/-! ## Runs -/

/-- `TableWrites conv Allowed T ws T'`: the batches `ws`, in order, take the contents of the tables
    from `T` to `T'`. Every row of a batch has the table's columns, every negative row is present
    when it is reached, and every batch is allowed when it is written. -/
inductive TableWrites (conv : SqlConverter)
    (Allowed : (String → Multiset VRow) → String → Records → Prop) :
    (String → Multiset VRow) → List (String × Records) → (String → Multiset VRow) → Prop where
  | nil (T : String → Multiset VRow) : TableWrites conv Allowed T [] T
  | batch {T T' : String → Multiset VRow} {t : String} {records : Records}
      {ws : List (String × Records)} {M : Multiset VRow}
      (hwidth : ∀ r ∈ records, r.row.length = conv.width t)
      (happ : Applies (T t) records.changes M) (hallowed : Allowed T t records)
      (h : TableWrites conv Allowed (Function.update T t M) ws T') :
      TableWrites conv Allowed T ((t, records) :: ws) T'

def Records.rows (records : Records) : Set VRow := { v | ∃ r ∈ records, Row.val r.row = v }

namespace LocalExecutor

section Content

variable {ex : LocalExecutor} {conv : SqlConverter}

theorem baseContent_update (htab : ex.TablesNamed conv) (T : String → Multiset VRow)
    (ht : ex.base_tables.get? t = some b) (M : Multiset VRow) :
    ex.baseContent (Function.update T t M) b = M ∧
      ∀ n, n ≠ b → ex.baseContent (Function.update T t M) n = ex.baseContent T n := by
  constructor
  · rw [baseContent_of_table htab _ ht, Function.update_self]
  · intro n hn
    unfold baseContent
    cases hto : ex.tableOf n with
    | none => rfl
    | some s =>
      have hne : s ≠ t := by
        rintro rfl
        rw [tableOf_eq_some htab, ht] at hto
        exact hn (some.inj hto).symm
      exact Function.update_of_ne hne _ _

theorem baseContent_update_unknown (htab : ex.TablesNamed conv) (T : String → Multiset VRow)
    (ht : ex.base_tables.get? t = none) (M : Multiset VRow) :
    ex.baseContent (Function.update T t M) = ex.baseContent T := by
  funext n
  unfold baseContent
  cases hto : ex.tableOf n with
  | none => rfl
  | some s =>
    have hne : s ≠ t := by
      rintro rfl
      rw [tableOf_eq_some htab, ht] at hto
      cases hto
    exact Function.update_of_ne hne _ _

/-- The rows of the base nodes have their table's columns. -/
theorem length_of_mem_baseContent (hT : ∀ t, ∀ v ∈ T t, v.length = conv.width t) (n : Nat) :
    ∀ v ∈ ex.baseContent T n, v.length = ex.baseWidth conv n := by
  intro v hv
  unfold baseContent at hv
  unfold baseWidth
  cases hto : ex.tableOf n with
  | none =>
    rw [hto] at hv
    exact absurd hv (Multiset.notMem_zero v)
  | some t =>
    rw [hto] at hv
    exact hT t v hv

theorem table_iff_node (htab : ex.TablesNamed conv) {s : String} {n : Nat}
    (hs : ex.base_tables.get? s = some n) (ht : ex.base_tables.get? t = some b) :
    s = t ↔ n = b := by
  constructor
  · rintro rfl
    rw [hs] at ht
    exact some.inj ht
  · rintro rfl
    have h₁ := (tableOf_eq_some htab).mpr hs
    rw [(tableOf_eq_some htab).mpr ht] at h₁
    exact (some.inj h₁).symm

theorem SameJoins.sameTables (htab : ex.TablesNamed conv) (h : ex.SameJoins links steps)
    (T : String → Multiset VRow) (ht : ex.base_tables.get? t = some b) :
    SameTables T (ex.baseContent T) t b (steps.map fun s => (s.table, s.op))
      (links.map fun l => (l.right, l.op)) := by
  induction h with
  | nil => exact .nil
  | cons hls _ ih =>
    obtain ⟨hop, hget⟩ := hls
    exact .cons ⟨hop.symm, (baseContent_of_table htab T hget).symm, table_iff_node htab hget ht⟩ ih

theorem Holds.last {B : Nat → Multiset VRow} {c : Nat} {L : Multiset VRow}
    (h : ex.Holds c L (versions B links)) :
    ex.StateAt (lastNode c links) (links.foldl (fun L l => l.op.inner L (B l.right)) L) := by
  induction links generalizing c L with
  | nil => exact h
  | cons l rest ih => exact ih h.2

theorem SameJoins.foldl_eq (htab : ex.TablesNamed conv) (h : ex.SameJoins links steps)
    (T : String → Multiset VRow) (L : Multiset VRow) :
    links.foldl (fun L l => l.op.inner L (ex.baseContent T l.right)) L
      = steps.foldl (fun L s => s.op.inner L (T s.table)) L := by
  induction h generalizing L with
  | nil => rfl
  | cons hls _ ih =>
    obtain ⟨hop, hget⟩ := hls
    rw [foldl_cons, foldl_cons, ih, hop, baseContent_of_table htab T hget]

end Content

/-! ## One batch, and any number of them -/

section Run

variable {ex₀ : LocalExecutor} {conv : SqlConverter} {q : JoinQuery} {keys : List Nat}
  {node first : Nat} {l₁ : Link} {rest : List Link}

/-- The chain in the middle of a run, when the tables have the contents `T`. -/
structure Joining (ex₀ : LocalExecutor) (first : Nat) (l₁ : Link) (rest : List Link)
    (ex : LocalExecutor) (T : String → Multiset VRow) : Prop where
  shape : SameShape ex₀ ex
  at_content : ex.ChainAt first l₁ rest (ex₀.baseContent T)

theorem apply_write_joining (hb : BuiltJoins conv q keys node ex₀ first (l₁ :: rest))
    (hc : ex₀.Chain (ex₀.baseWidth conv) first l₁ rest) {ex : LocalExecutor}
    (hJ : Joining ex₀ first l₁ rest ex T)
    (hT : ∀ s, ∀ v ∈ Function.update T t M s, v.length = conv.width s)
    (hwidth : ∀ r ∈ records, r.row.length = conv.width t) (happ : Applies (T t) records.changes M)
    (hno : NoRepeat T t records.rows q.first q.tables) :
    ∃ ex', ex.apply_write t records = some ex' ∧
      Joining ex₀ first l₁ rest ex' (Function.update T t M) := by
  have htab := hb.named
  unfold apply_write
  rw [hJ.shape.tables]
  cases ht : ex₀.base_tables.get? t with
  | none =>
    refine ⟨ex, rfl, hJ.shape, ?_⟩
    rw [baseContent_update_unknown htab T ht]
    exact hJ.at_content
  | some b =>
    obtain ⟨hself, hother⟩ := baseContent_update htab T ht M
    have happ' : Applies (ex₀.baseContent T b) records.changes
        (ex₀.baseContent (Function.update T t M) b) := by
      rw [hself, baseContent_of_table htab T ht]
      exact happ
    have hrows : ∀ r ∈ records, r.row.length = ex₀.baseWidth conv b ∧
        Row.val r.row ∈ records.rows := by
      intro r hr
      rw [baseWidth_of_table htab ht]
      exact ⟨hwidth r hr, r, hr, rfl⟩
    have hno' : NoRepeat (ex₀.baseContent T) b records.rows first
        ((l₁ :: rest).map fun l => (l.right, l.op)) :=
      hno.transport ⟨(baseContent_of_table htab T hb.first_table).symm,
          table_iff_node htab hb.first_table ht⟩
        (hb.joins.sameTables htab T ht) (baseContent_of_table htab T ht).symm
    have hq := quietBatch_of_noRepeat hother happ' (fun r hr => (hrows r hr).2) hno'
    obtain ⟨ex', hprop, hat⟩ := propagate_base (hc.sameShape hJ.shape) hJ.at_content
      (hb.base_of_table ht) (length_of_mem_baseContent hT) hother happ' hrows hq
    exact ⟨ex', hprop, hJ.shape.trans (propagate_frame hprop).1, hat⟩

/-- What a write makes of tables whose rows have the right width. -/
theorem width_update (hT : ∀ s, ∀ v ∈ T s, v.length = conv.width s)
    (hwidth : ∀ r ∈ records, r.row.length = conv.width t) (happ : Applies (T t) records.changes M) :
    ∀ s, ∀ v ∈ Function.update T t M s, v.length = conv.width s := by
  intro s v hv
  by_cases hs : s = t
  · subst hs
    rw [Function.update_self] at hv
    rcases mem_of_applies happ hv with hv | ⟨c, hc, rfl⟩
    · exact hT s v hv
    · obtain ⟨r, hr, rfl⟩ := mem_map.mp hc
      rw [Record.elem_change, Row.length_val]
      exact hwidth r hr
  · rw [Function.update_of_ne hs] at hv
    exact hT s v hv

theorem apply_writes_joining (hb : BuiltJoins conv q keys node ex₀ first (l₁ :: rest))
    (hc : ex₀.Chain (ex₀.baseWidth conv) first l₁ rest)
    {Allowed : (String → Multiset VRow) → String → Records → Prop}
    (hallowed : ∀ T t records, Allowed T t records → NoRepeat T t records.rows q.first q.tables)
    {T' : String → Multiset VRow} {ws : List (String × Records)}
    (hw : TableWrites conv Allowed T ws T') {ex : LocalExecutor}
    (hJ : Joining ex₀ first l₁ rest ex T) (hT : ∀ s, ∀ v ∈ T s, v.length = conv.width s) :
    ∃ ex', ex.apply_writes ws = some ex' ∧ Joining ex₀ first l₁ rest ex' T' := by
  induction hw generalizing ex with
  | nil T => exact ⟨ex, rfl, hJ⟩
  | batch hwidth happ hal _ ih =>
    have hT' := width_update hT hwidth happ
    obtain ⟨ex₁, hex₁, hJ₁⟩ := apply_write_joining hb hc hJ hT' hwidth happ (hallowed _ _ _ hal)
    obtain ⟨ex', hex', hJ'⟩ := ih hJ₁ hT'
    refine ⟨ex', ?_, hJ'⟩
    simp only [apply_writes, foldlM_cons, hex₁, bind_eq_bind, bind_some]
    exact hex'

theorem BuiltJoins.view_state (hb : BuiltJoins conv q keys node ex₀ first links)
    {ex : LocalExecutor} (hs : SameShape ex₀ ex) :
    ∃ nd st, ex.nodes[node]? = some nd ∧ nd.state = some st ∧ st.key_columns = keys := by
  have hst := hb.state node
  rw [if_pos hb.last.symm] at hst
  obtain ⟨nd₀, hn₀, hst₀⟩ := bind_eq_some_iff.mp hst
  obtain ⟨nd, hn, hsh⟩ := hs.node hn₀
  obtain ⟨st, hst, hkeys⟩ := Node.state_of_shape hsh.symm hst₀
  exact ⟨nd, st, hn, hst, hkeys⟩

theorem state_of_joining (hb : BuiltJoins conv q keys node ex₀ first (l₁ :: rest))
    {ex : LocalExecutor} (hJ : Joining ex₀ first l₁ rest ex T) :
    ∃ nd st, ex.nodes[node]? = some nd ∧ nd.state = some st ∧ st.key_columns = keys ∧ st.Ok ∧
      st.bag = q.content T := by
  obtain ⟨nd, st, hn, hst, hkeys⟩ := hb.view_state hJ.shape
  have hat : ex.StateAt node (q.content T) := by
    have hlast := hJ.at_content.joins.last
    have hcontent := hb.joins.foldl_eq hb.named T (ex₀.baseContent T first)
    rw [baseContent_of_table hb.named T hb.first_table, foldl_cons,
      ← baseContent_of_table hb.named T hb.first_table] at hcontent
    rw [hcontent, baseContent_of_table hb.named T hb.first_table] at hlast
    rw [hb.last]
    exact hlast
  obtain ⟨hok, hbag⟩ := hat nd st hn hst
  exact ⟨nd, st, hn, hst, hkeys, hok, hbag⟩

theorem joining_empty (hb : BuiltJoins conv q keys node ex₀ first (l₁ :: rest)) :
    Joining ex₀ first l₁ rest ex₀ fun _ => 0 := by
  have hzero : ex₀.baseContent (fun _ => 0) = fun _ => 0 := by
    funext n
    unfold baseContent
    cases ex₀.tableOf n <;> rfl
  refine ⟨.refl _, ?_⟩
  rw [hzero]
  refine ⟨fun b _ => hb.empty b, ?_⟩
  have hholds : ∀ (links : List Link) (c : Nat), ex₀.Holds c 0 (versions (fun _ => 0) links) := by
    intro links
    induction links with
    | nil => exact fun c => hb.empty c
    | cons l rest ih => exact fun c => ⟨hb.empty c, ih l.node⟩
  exact hholds rest l₁.node

end Run

/-! ## Pairwise different tables -/

/-- After every sequence of exact batches, the last of any number of inner
    joins over pairwise different tables has the join of the tables: the
    combined rows with equal join columns, with their multiplicities. -/
theorem inner_joins_maintained {conv : SqlConverter} {from_clause : FromClause} {keys : List Nat}
    {node : Nat} {ex : LocalExecutor} {q : JoinQuery} (hcols : conv.HasColumns)
    (hview : JoinView conv from_clause keys node ex) (hq : conv.joinQuery from_clause = some q)
    (hne : q.steps ≠ []) (hinner : ∀ s ∈ q.steps, s.op.join_type = .inner)
    (hdistinct : (q.first :: q.tables.map Prod.fst).Nodup) {ws : List (String × Records)}
    {T : String → Multiset VRow} (hw : TableWrites conv (fun _ _ _ => True) (fun _ => 0) ws T) :
    ∃ ex' nd st, ex.apply_writes ws = some ex' ∧ ex'.nodes[node]? = some nd ∧
      nd.state = some st ∧ st.key_columns = keys ∧ st.Ok ∧ st.bag = q.content T := by
  obtain ⟨first, links, hb⟩ := joins_of_view hcols hview hq
  obtain ⟨l₁, rest, rfl⟩ := hb.exists_cons hne
  have hc := hb.chain hinner (indexed_of_nodup hdistinct)
  obtain ⟨ex', hex', hJ⟩ := apply_writes_joining hb hc
    (fun T t records _ => noRepeat_of_nodup hdistinct T t records.rows) hw (joining_empty hb)
    (fun _ _ hv => absurd hv (Multiset.notMem_zero _))
  obtain ⟨nd, st, hstate⟩ := state_of_joining hb hJ
  exact ⟨ex', nd, st, hex', hstate⟩

/-! ### Three tables -/

/-- Tables `a(k)`, `b(k, j)` and `c(j)`. -/
def threeTables : SqlConverter := ⟨[⟨"a", ["k"]⟩, ⟨"b", ["k", "j"]⟩, ⟨"c", ["j"]⟩]⟩

/-- `FROM a JOIN b ON a.k = b.k JOIN c ON b.j = c.j`. -/
def threeJoined : FromClause :=
  ⟨some (.table "a" none),
    some [⟨.typedJoin none, .table "b" none,
        some (.onExpr (.binary (.qualified "a" "k") .equals (.qualified "b" "k")))⟩,
      ⟨.typedJoin none, .table "c" none,
        some (.onExpr (.binary (.qualified "b" "j") .equals (.qualified "c" "j")))⟩]⟩

/-- The executor after building a FROM clause and materializing its node. -/
def joinExecutor (conv : SqlConverter) (from_clause : FromClause) (keys : List Nat) :
    LocalExecutor :=
  ((conv.build_from_clause from_clause >>= fun p => Build.materialize p.1 keys) .new).2

def threeQuery : JoinQuery :=
  ⟨"a", [⟨"b", SqlConverter.joinOpFor (.typedJoin none) 0 0 1 2⟩,
    ⟨"c", SqlConverter.joinOpFor (.typedJoin none) 1 0 2 1⟩]⟩

/-- Inserts into all three tables, a duplicate among them, and a delete. -/
def threeWrites : List (String × Records) :=
  [("c", [.positive [.int 2], .positive [.bigInt 2]]), ("a", [.positive [.int 1]]),
    ("b", [.positive [.int 1, .int 2]]), ("c", [.negative [.int 2]])]

theorem threeJoined_maintained :
    ∃ T ex' nd st, TableWrites threeTables (fun _ _ _ => True) (fun _ => 0) threeWrites T ∧
      (joinExecutor threeTables threeJoined [0]).apply_writes threeWrites = some ex' ∧
      ex'.nodes[4]? = some nd ∧ nd.state = some st ∧ st.bag = threeQuery.content T ∧
      threeQuery.content T = {[.int 1, .int 2]} := by
  have hdel : Applies {[Value.int 2], [.int 2]} [.del [.int 2]] {[Value.int 2]} := .del (.nil _)
  have hw : TableWrites threeTables (fun _ _ _ => True) (fun _ => 0) threeWrites _ :=
    .batch (by decide) (.ins (.ins (.nil _))) trivial
      (.batch (by decide) (.ins (.nil _)) trivial
        (.batch (by decide) (.ins (.nil _)) trivial (.batch (by decide) hdel trivial (.nil _))))
  have hview : JoinView threeTables threeJoined [0] 4
      (joinExecutor threeTables threeJoined [0]) := ⟨["k", "j"], _, ⟨4, [0]⟩, rfl, by decide, rfl⟩
  obtain ⟨ex', nd, st, hex', hn, hst, -, -, hbag⟩ := inner_joins_maintained (q := threeQuery)
    (by unfold SqlConverter.HasColumns; decide) hview rfl (by decide) (by decide) (by decide) hw
  exact ⟨_, ex', nd, st, hw, hex', hn, hst, hbag, rfl⟩

/-! ## Tables that occur more than once -/

/-- With tables that occur more than once, the last join has the join of the tables in every run in
    which each table has one join column and no batch meets itself. -/
theorem shared_joins_maintained {conv : SqlConverter} {from_clause : FromClause}
    {keys : List Nat} {node : Nat} {ex : LocalExecutor} {q : JoinQuery}
    (hcols : conv.HasColumns) (hview : JoinView conv from_clause keys node ex)
    (hq : conv.joinQuery from_clause = some q) (hne : q.steps ≠ [])
    (hinner : ∀ s ∈ q.steps, s.op.join_type = .inner) (hidx : Indexed q.first q.tables)
    {ws : List (String × Records)} {T : String → Multiset VRow}
    (hw : TableWrites conv
      (fun T t records => NoRepeat T t records.rows q.first q.tables) (fun _ => 0) ws T) :
    ∃ ex' nd st, ex.apply_writes ws = some ex' ∧ ex'.nodes[node]? = some nd ∧
      nd.state = some st ∧ st.key_columns = keys ∧ st.Ok ∧ st.bag = q.content T := by
  obtain ⟨first, links, hb⟩ := joins_of_view hcols hview hq
  obtain ⟨l₁, rest, rfl⟩ := hb.exists_cons hne
  obtain ⟨ex', hex', hJ⟩ := apply_writes_joining hb (hb.chain hinner hidx)
    (fun _ _ _ h => h) hw (joining_empty hb) (fun _ _ hv => absurd hv (Multiset.notMem_zero _))
  obtain ⟨nd, st, hstate⟩ := state_of_joining hb hJ
  exact ⟨ex', nd, st, hex', hstate⟩

/-! ### A table joined with itself -/

/-- Tables `a(k)` and `b(k)`. -/
def twoTables : SqlConverter := ⟨[⟨"a", ["k"]⟩, ⟨"b", ["k"]⟩]⟩

/-- `FROM a JOIN a AS x ON a.k = x.k`. -/
def selfJoined : FromClause :=
  ⟨some (.table "a" none),
    some [⟨.typedJoin none, .table "a" (some "x"),
      some (.onExpr (.binary (.qualified "a" "k") .equals (.qualified "x" "k")))⟩]⟩

/-- Both edges from the table deliver its batch as left rows, and the right
    side already has them: one inserted row is joined with itself twice. -/
theorem selfJoined_counts_twice :
    ∃ q T ex' nd st,
      JoinView twoTables selfJoined [0] 1 (joinExecutor twoTables selfJoined [0]) ∧
      twoTables.joinQuery selfJoined = some q ∧
      TableWrites twoTables (fun _ _ _ => True) (fun _ => 0) [("a", [.positive [.int 1]])] T ∧
      (joinExecutor twoTables selfJoined [0]).apply_writes [("a", [.positive [.int 1]])]
        = some ex' ∧
      ex'.nodes[1]? = some nd ∧ nd.state = some st ∧
      st.bag = {[.int 1], [.int 1]} ∧ q.content T = {[.int 1]} := by
  refine ⟨⟨"a", [⟨"a", SqlConverter.joinOpFor (.typedJoin none) 0 0 1 1⟩]⟩, _, _, _, _,
    ⟨["k"], _, ⟨1, [0]⟩, rfl, by decide, rfl⟩, rfl,
    .batch (by decide) (.ins (.nil _)) trivial (.nil _), rfl, rfl, rfl, rfl, rfl⟩

/-- `FROM a JOIN b ON a.k = b.k JOIN a AS x ON b.k = x.k`. -/
def sharedJoined : FromClause :=
  ⟨some (.table "a" none),
    some [⟨.typedJoin none, .table "b" none,
        some (.onExpr (.binary (.qualified "a" "k") .equals (.qualified "b" "k")))⟩,
      ⟨.typedJoin none, .table "a" (some "x"),
        some (.onExpr (.binary (.qualified "b" "k") .equals (.qualified "x" "k")))⟩]⟩

def sharedQuery : JoinQuery :=
  ⟨"a", [⟨"b", SqlConverter.joinOpFor (.typedJoin none) 0 0 1 1⟩,
    ⟨"a", SqlConverter.joinOpFor (.typedJoin none) 0 0 1 1⟩]⟩

/-- The shared table first, then the one between its two occurrences. -/
def sharedWrites : List (String × Records) :=
  [("a", [.positive [.int 1]]), ("b", [.positive [.int 1], .positive [.int 1]])]

theorem sharedJoined_maintained : ∃ T ex' nd st,
      (joinExecutor twoTables sharedJoined [0]).apply_writes sharedWrites = some ex' ∧
      ex'.nodes[3]? = some nd ∧ nd.state = some st ∧ st.bag = sharedQuery.content T ∧
      sharedQuery.content T = {[.int 1], [.int 1]} := by
  have hw : TableWrites twoTables
      (fun T t records => NoRepeat T t records.rows sharedQuery.first sharedQuery.tables)
      (fun _ => 0) sharedWrites _ := .batch (by decide) (.ins (.nil _)) (by
      simp [NoRepeat, NoSelf, NoDouble, sharedQuery, JoinQuery.tables, joinSet])
      (.batch (by decide) (.ins (.ins (.nil _))) (by
        simp [NoRepeat, NoSelf, NoDouble, sharedQuery, JoinQuery.tables, joinSet]) (.nil _))
  have hview : JoinView twoTables sharedJoined [0] 3
      (joinExecutor twoTables sharedJoined [0]) := ⟨["k"], _, ⟨3, [0]⟩, rfl, by decide, rfl⟩
  have hidx : Indexed sharedQuery.first sharedQuery.tables :=
    ⟨by decide, by rintro p rest h - k hk; cases h; cases hk; rfl⟩
  obtain ⟨ex', nd, st, hex', hn, hst, -, -, hbag⟩ := shared_joins_maintained (q := sharedQuery)
    (by unfold SqlConverter.HasColumns; decide) hview rfl (by decide) (by decide) hidx hw
  exact ⟨_, ex', nd, st, hex', hn, hst, hbag, rfl⟩

end LocalExecutor

end Noria.Sqlite

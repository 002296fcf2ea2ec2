import Noria.Sqlite.Coherence

/-! # What an upquery puts into the state

  Rows get into the state of a view on two ways: down the line of operators, and from the answer of
  SQLite to an upquery. For a lookup by one column that selects columns, both ways lead to the same
  row (`Site.cacheRow_eq_image`): a key that an upquery has filled holds exactly the images of the
  rows of the table that pass the filter from then on (`Site.Complete`), whatever was in the state
  before, and whatever changes are made.
-/

namespace Noria.Sqlite

open Bag Multiset

namespace Site

variable {F : Type} {site : Site F} {env : SqlEnv} {body : SelectBody} {w : Deployment F}
  {st : MemoryState}

/-! ## A key that has been filled -/

/-- Lookups ask for keys on which SQLite and the engine agree. -/
def Agreeing (site : Site F) (w : Deployment F) : Call F → Prop
  | .lookup _ key => site.Agree w.rows key
  | _ => True

/-- The state holds for the key the images of the rows that have it and pass. -/
structure Complete (site : Site F) (key : DataType) (w : Deployment F) (st : MemoryState) :
    Prop extends site.Served w st where
  rows_eq : rowsAt (keyAt site.pos) st.bag key.val
    = rowsAt (keyAt site.pos) (site.images w.rows) key.val

variable {key : DataType}

section Moves

variable {s : SqliteRow F} {st' : MemoryState} {rows : Multiset (SqliteRow F)}

theorem Enters.complete (h : site.Enters s st st') (hok : st.Ok)
    (hrows : rowsAt (keyAt site.pos) st.bag key.val
      = rowsAt (keyAt site.pos) (site.images rows) key.val) :
    rowsAt (keyAt site.pos) st'.bag key.val
      = rowsAt (keyAt site.pos) (site.images (s ::ₘ rows)) key.val := by
  rcases h with ⟨hpass, o, ho, hst'⟩ | ⟨hpass, rfl⟩
  · rw [images_cons_of_passes hpass, ← ho]
    exact st.complete_ins hok hst' hrows
  · rw [images_cons_of_not hpass, hrows]

/-- A row that leaves takes its image with it, and nothing else. -/
theorem Leaves.complete (h : site.Leaves s st st') (hok : st.Ok)
    (hkeys : st.key_columns = [site.pos])
    (hrows : rowsAt (keyAt site.pos) st.bag key.val
      = rowsAt (keyAt site.pos) (site.images (s ::ₘ rows)) key.val) :
    rowsAt (keyAt site.pos) st'.bag key.val = rowsAt (keyAt site.pos) (site.images rows) key.val ∧
      (keyAt site.pos (site.image s) = key.val → st.bag = site.images {s} + st'.bag) := by
  have hone : site.images {s} = site.images (s ::ₘ 0) := rfl
  have hnone : site.images 0 = 0 := rfl
  rcases h with ⟨hpass, o, ho, hst'⟩ | ⟨hpass, rfl⟩
  · rw [images_cons_of_passes hpass, ← ho] at hrows
    obtain ⟨hrest, hbag⟩ := st.complete_del hok hkeys hst' hrows
    refine ⟨hrest, fun hkey => ?_⟩
    rw [hone, images_cons_of_passes hpass, hnone, hbag (ho.symm ▸ hkey), ← ho, cons_add, zero_add]
  · rw [images_cons_of_not hpass] at hrows
    refine ⟨hrows, fun _ => ?_⟩
    rw [hone, images_cons_of_not hpass, hnone, zero_add]

end Moves

/-- **A filled key stays complete**, whatever rows come and go. -/
theorem Complete.step [DecidableEq F] (hfit : site.Fits env body) (h : site.Complete key w st)
    {call : Call F} (hvalid : site.Valid w call) (hagree : site.Agreeing w call) :
    ∃ w' out st', site.perform w call = .ok (w', out) ∧ site.Complete key w' st' := by
  obtain ⟨w', out, st', hperf, hserved, heffect⟩ := h.toServed.step hfit hvalid
  refine ⟨w', out, st', hperf, hserved, ?_⟩
  cases heffect with
  | insert _ henters => exact henters.complete h.ok h.rows_eq
  | delete hmem hleaves =>
    have hrows := h.rows_eq
    rw [← cons_erase hmem] at hrows
    exact (hleaves.complete h.ok h.keys hrows).1
  | update hmem _ hleaves hok₁ henters =>
    have hrows := h.rows_eq
    rw [← cons_erase hmem] at hrows
    exact henters.complete hok₁ (hleaves.complete h.ok h.keys hrows).1
  | hit hne hp hrows => exact h.rows_eq
  | miss hzero hp hrows hbag =>
    -- Another key is filled, or the same one, for which there is no row.
    rw [hbag, cacheRow_matching hagree hp, rowsAt_add, rowsAt_rowsAt, h.rows_eq]
    split
    · rename_i heq
      rw [← heq, h.rows_eq] at hzero
      rw [← heq, hzero]
      rfl
    · rw [add_zero]

theorem Complete.run [DecidableEq F] (hfit : site.Fits env body) (h : site.Complete key w st)
    {w' : Deployment F}
    (hrun : site.Run (fun w call => site.Valid w call ∧ site.Agreeing w call) w w') :
    ∃ st', site.Complete key w' st' := by
  refine hrun.invariant (I := fun w => ∃ st, site.Complete key w st) ⟨st, h⟩ ?_
  rintro w call ⟨st, h⟩ ⟨hvalid, hagree⟩
  obtain ⟨w', out, st', hperf, h'⟩ := h.step hfit hvalid hagree
  exact ⟨w', out, hperf, st', h'⟩

theorem Complete.delete (hfit : site.Fits env body) (h : site.Complete key w st)
    {s : SqliteRow F} {row : Row} (hmem : s ∈ w.rows) (hexact : site.Exact s row)
    (hkey : (s.getD site.c .null).value site.venv = key.val) :
    ∃ eng' st', w.engine.apply_delete site.table row = some eng' ∧
      eng'.adapter.executor.stateOf site.view.handle.node = some st' ∧
      st.bag = site.images {s} + st'.bag := by
  classical
  obtain ⟨eng', st', hleaves, heng, h'⟩ := h.toServed.delete hfit hexact
  refine ⟨eng', st', heng, h'.serves.stateOf, ?_⟩
  have hrows := h.rows_eq
  rw [← cons_erase hmem] at hrows
  exact (hleaves.complete h.ok h.keys hrows).2 (by rw [keyAt_image, hkey])

/-- `SELECT t.* FROM t WHERE (g = ?) AND id > 0`. -/
def byPositive : SelectBody :=
  ⟨[.tableStar "t"], some ⟨some (.table "t" none), none⟩,
    some (.binary (.parenthesized [.binary (.id "g") .equals (.variable "?")]) .and
      (.binary (.id "id") .greater (.literal (.numeric "0")))), none⟩

def positiveSite : Site Unit :=
  { groupSite with
    rest := fun s _ => match s.getD 0 .null with
      | .integer id => 0 < id
      | _ => false
    cond := .and [.alwaysTrue, .gt 0 (.bigInt 0)]
    view := ⟨⟨1, [1]⟩, "SELECT t.* FROM t WHERE (g = ?) AND id > 0"⟩ }

def positiveEngine : NoriaEngine :=
  (NoriaEngine.create_view (LocalExecutor.queryEnv byPositive)
    "SELECT t.* FROM t WHERE (g = ?) AND id > 0"
    (NoriaEngine.new.register_table_schema "t" ["id", "g"])).2

/-- Of the two rows of group 5 from before the view, one passes. -/
def positiveStart : Deployment Unit := ⟨{storedPair 1 5, storedPair 0 5}, positiveEngine⟩

theorem positiveSite_keyed : KeyedSelect (LocalExecutor.queryEnv byPositive) byPositive "t"
    ["id", "g"] [0, 1] 1 positiveSite.cond :=
  ⟨⟨none, none, rfl, rfl⟩, ⟨_, rfl, .left _ (.parenthesized (.equality "?" rfl)), rfl⟩,
    .inl ⟨.inr ⟨"t", rfl⟩, rfl⟩⟩

def byBoth : SelectBody :=
  ⟨[.star], some ⟨some (.table "t" none), none⟩,
    some (.binary (.binary (.id "id") .equals (.variable "?")) .and
      (.binary (.id "g") .equals (.variable "?"))), none⟩

def bothEngine : NoriaEngine :=
  (NoriaEngine.create_view (LocalExecutor.queryEnv byBoth) "SELECT * FROM t WHERE id = ? AND g = ?"
    (NoriaEngine.new.register_table_schema "t" ["id", "g"])).2

def bothView : NoriaView := ⟨⟨1, [0]⟩, "SELECT * FROM t WHERE id = ? AND g = ?"⟩

def answeringBoth : Connection Unit := ⟨fun _ => .ok ⟨2, 2, fun _ => .ok [storedPair 1 5]⟩⟩

/-- The engine after the lookup of `(1, 5)`. -/
def bothEngine₁ : NoriaEngine :=
  match bothEngine.lookup_or_upquery integerEnv answeringBoth bothView [.bigInt 1, .bigInt 5] with
  | .ok p => p.2
  | _ => .new

end Site

end Noria.Sqlite

import JiaTuanServer.Request.DbManager

/-!
# Result sets of libmysqlclient

`executeSQL` also calls `mysql_use_result`, `mysql_fetch_row`, `mysql_num_fields` and
`mysql_free_result`. As with the other calls the library is a parameter; `Documented` is what its
manual says of one connection, over what can be known of it, a `Session`: a statement that returns
rows leaves a result set behind, whose rows are fetched one by one, and until it is freed the
connection refuses further statements.

`sessionLibrary` is a library that does just this (`sessionLibrary_documented`).
-/

namespace JiaTuanServer.Request

/-- `MYSQL_ROW`: the values of a row, `none` for NULL. -/
abbrev Row := List (Option Bytes)

/-- libmysqlclient as far as `CDBManager` uses it. A `MYSQL_RES *` is a number, `none` is NULL. -/
structure Libmysqlclient (σ : Type) extends Mysql σ where
  /-- `mysql_use_result` of a connection. -/
  useResult : ℕ → σ → Option ℕ × σ
  /-- `mysql_fetch_row` -/
  fetchRow : Option ℕ → σ → Option Row × σ
  /-- `mysql_num_fields` -/
  numFields : Option ℕ → σ → ℕ
  /-- `mysql_free_result` -/
  freeResult : Option ℕ → σ → σ

/-- What the server replies to a statement. -/
inductive Reply where
  | failed
  /-- Success without a result set. -/
  | done
  /-- A result set of that many columns. -/
  | rows (columns : ℕ) (rows : List Row)

/-- What can be known of a connection to a database with the contents `db`. -/
structure Session (δ : Type) where
  db : δ
  /-- The number of columns of the latest statement. -/
  fields : ℕ
  /-- The rows of the outstanding result set that are still to be fetched. -/
  outstanding : Option (List Row)
  /-- The `MYSQL_RES` through which they are fetched. -/
  result : Option ℕ

variable {δ σ : Type}

/-- The manual's rules for a connection: `view` is what can be known of it, and `execute` is what
the server does with a statement. -/
structure Documented (lib : Libmysqlclient σ) (connection : ℕ) (view : σ → Session δ)
    (execute : Bytes → δ → Reply × δ) : Prop where
  query_failed : ∀ sql s db, (view s).outstanding = none →
    execute sql (view s).db = (.failed, db) →
    (lib.answer (.query connection sql) s).1 ≠ 0 ∧
      (view (lib.answer (.query connection sql) s).2).db = db ∧
      (view (lib.answer (.query connection sql) s).2).outstanding = none
  query_done : ∀ sql s db, (view s).outstanding = none →
    execute sql (view s).db = (.done, db) →
    (lib.answer (.query connection sql) s).1 = 0 ∧
      view (lib.answer (.query connection sql) s).2 = ⟨db, 0, none, none⟩
  query_rows : ∀ sql s db columns rows, (view s).outstanding = none →
    execute sql (view s).db = (.rows columns rows, db) →
    (lib.answer (.query connection sql) s).1 = 0 ∧
      view (lib.answer (.query connection sql) s).2 = ⟨db, columns, some rows, none⟩
  query_busy : ∀ sql s, (view s).outstanding ≠ none →
    (lib.answer (.query connection sql) s).1 ≠ 0 ∧
      view (lib.answer (.query connection sql) s).2 = view s
  fieldCount : ∀ s, (lib.answer (.fieldCount connection) s).1 = (view s).fields ∧
    view (lib.answer (.fieldCount connection) s).2 = view s
  useResult_rows : ∀ s, (view s).outstanding ≠ none →
    ∃ result, (lib.useResult connection s).1 = some result ∧
      view (lib.useResult connection s).2 = { view s with result := some result }
  useResult_none : ∀ s, (view s).outstanding = none →
    (lib.useResult connection s).1 = none ∧ view (lib.useResult connection s).2 = view s
  fetchRow_row : ∀ result s row rows, (view s).result = some result →
    (view s).outstanding = some (row :: rows) →
    (lib.fetchRow (some result) s).1 = some row ∧
      view (lib.fetchRow (some result) s).2 = { view s with outstanding := some rows }
  fetchRow_end : ∀ result s, (view s).result = some result → (view s).outstanding = some [] →
    (lib.fetchRow (some result) s).1 = none ∧ view (lib.fetchRow (some result) s).2 = view s
  numFields : ∀ result s, (view s).result = some result →
    lib.numFields (some result) s = (view s).fields
  /-- Rows not fetched yet are discarded. -/
  freeResult_some : ∀ result s, (view s).result = some result →
    view (lib.freeResult (some result) s) = { view s with outstanding := none, result := none }
  freeResult_null : ∀ s, view (lib.freeResult none s) = view s

/-! ## A library that follows the manual -/

/-- What `mysql_query` returns and leaves, from the server's reply. -/
def Session.receive (s : Session δ) : Reply × δ → ℤ × Session δ
  | (.failed, db) => (1, { s with db := db })
  | (.done, db) => (0, ⟨db, 0, none, none⟩)
  | (.rows columns rows, db) => (0, ⟨db, columns, some rows, none⟩)

def Session.query (execute : Bytes → δ → Reply × δ) (sql : Bytes) (s : Session δ) : ℤ × Session δ :=
  if s.outstanding.isSome then (1, s) else s.receive (execute sql s.db)

def Session.answer (execute : Bytes → δ → Reply × δ) :
    (c : Call) → Session δ → c.Answer × Session δ
  | .init, s => (some 0, s)
  | .realConnect connection _ _ _ _, s => (some connection, s)
  | .query _ sql, s => s.query execute sql
  | .fieldCount _, s => (s.fields, s)
  | .close _, s => ((), s)

def Session.useResult (s : Session δ) : Option ℕ × Session δ :=
  if s.outstanding.isSome then (some 0, { s with result := some 0 }) else (none, s)

def Session.fetchRow (s : Session δ) : Option Row × Session δ :=
  match s.outstanding with
  | some (row :: rows) => (some row, { s with outstanding := some rows })
  | _ => (none, s)

def Session.freeResult (s : Session δ) : Option ℕ → Session δ
  | some _ => { s with outstanding := none, result := none }
  | none => s

/-- The library that remembers nothing but the session. -/
def sessionLibrary (execute : Bytes → δ → Reply × δ) : Libmysqlclient (Session δ) where
  answer := Session.answer execute
  useResult _ := Session.useResult
  fetchRow _ := Session.fetchRow
  numFields _ s := s.fields
  freeResult result s := s.freeResult result

theorem sessionLibrary_documented (execute : Bytes → δ → Reply × δ) (connection : ℕ) :
    Documented (sessionLibrary execute) connection id execute where
  query_failed sql s db idle reply := by
    simp_all [sessionLibrary, Session.answer, Session.query, Session.receive]
  query_done sql s db idle reply := by
    simp_all [sessionLibrary, Session.answer, Session.query, Session.receive]
  query_rows sql s db columns rows idle reply := by
    simp_all [sessionLibrary, Session.answer, Session.query, Session.receive]
  query_busy sql s busy := by
    have some : s.outstanding.isSome := Option.isSome_iff_ne_none.mpr busy
    simp [sessionLibrary, Session.answer, Session.query, some]
  fieldCount s := ⟨rfl, rfl⟩
  useResult_rows s busy := by
    have some : s.outstanding.isSome := Option.isSome_iff_ne_none.mpr busy
    exact ⟨0, by simp [sessionLibrary, Session.useResult, some]⟩
  useResult_none s idle := by
    have none : s.outstanding = none := idle
    simp [sessionLibrary, Session.useResult, none]
  fetchRow_row result s row rows _ next := by
    have first : s.outstanding = some (row :: rows) := next
    simp [sessionLibrary, Session.fetchRow, first]
  fetchRow_end result s _ last := by
    have empty : s.outstanding = some [] := last
    simp [sessionLibrary, Session.fetchRow, empty]
  numFields _ _ _ := rfl
  freeResult_some _ _ _ := rfl
  freeResult_null _ := rfl

end JiaTuanServer.Request

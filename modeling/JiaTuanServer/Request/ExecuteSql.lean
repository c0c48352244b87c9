import JiaTuanServer.Library.Outcome
import JiaTuanServer.Request.ResultSets

/-!
# executeSQL of dbmanager.cpp

The outer loop is meant to go through the rows, but its bound is `mysql_field_count`, the number of
columns. It is run with fuel, `none` being a loop that has not ended. What the two loops print of a
result set does not depend on the library: `showRows` says what they do with the rows alone, and
`executeSQL_rows` that on a connection without an outstanding result set the code does the same.

So no more rows are printed than there are columns, and each value only up to its first zero byte
(`printsTable_iff`).
-/

namespace JiaTuanServer.Request

open Outcome

/-- `std::cout`: what was written, and `badbit`. -/
structure Cout where
  written : Bytes
  bad : Bool
  deriving DecidableEq

namespace Cout

def write (cout : Cout) (bytes : Bytes) : Cout :=
  if cout.bad then cout else { cout with written := cout.written ++ bytes }

/-- `cout << s` for a `char *`. A null pointer sets `badbit`. -/
def string (cout : Cout) : Option Bytes → Cout
  | none => { cout with bad := true }
  | some s => cout.write (cString s)

end Cout

/-- What `executeSQL` acts on. -/
structure Console (σ : Type) where
  lib : σ
  cout : Cout

/-- `cout << row[j] << " "` -/
def printValue (row : Row) (cout : Cout) (j : ℕ) : Except Fault Cout :=
  match row[j]? with
  | none => throw .overread
  | some value => pure ((cout.string value).write (text " "))

/-- The loop through the values of a row. -/
def printValues (row : Row) (columns : ℕ) (cout : Cout) : Except Fault Cout :=
  (List.range columns).foldlM (printValue row) cout

variable {σ δ : Type} (lib : Libmysqlclient σ)

/-- The loop through the rows, from before its test. -/
def rowsLoop (connection : ℕ) (result : Option ℕ) :
    ℕ → ℕ → Console σ → Except Fault (Option (Console σ))
  | 0, _, _ => pure none
  | fuel + 1, i, s =>
    let count := lib.answer (.fieldCount connection) s.lib
    if i < count.1 then
      let next := lib.fetchRow result count.2
      match next.1 with
      | none => pure (some { s with lib := next.2 })
      | some row => do
        let cout ← printValues row (lib.numFields result next.2) s.cout
        rowsLoop connection result fuel (i + 1) { lib := next.2, cout := cout.write (text "\n") }
    else pure (some { s with lib := count.2 })

/-- `executeSQL(sql)` -/
def CDBManager.executeSQL (fuel : ℕ) (sql : Bytes) (db : CDBManager) (s : Console σ) :
    Except Fault (Option (Bool × Console σ)) :=
  let query := lib.answer (.query db.connection (cString sql)) s.lib
  if query.1 ≠ 0 then throw (.exit 1)
  else do
    let use := lib.useResult db.connection query.2
    match ← rowsLoop lib db.connection use.1 fuel 0 { s with lib := use.2 } with
    | none => pure none
    | some s => pure (some (true, { s with lib := lib.freeResult use.1 s.lib }))

/-! ## What is done with the rows -/

/-- The loop through the rows without the library: the rows not fetched, and the output. -/
def showRows (columns : ℕ) : ℕ → ℕ → List Row → Cout → Except Fault (Option (List Row × Cout))
  | 0, _, _, _ => pure none
  | fuel + 1, i, rows, cout =>
    if i < columns then
      match rows with
      | [] => pure (some ([], cout))
      | row :: rows => do
        let cout ← printValues row columns cout
        showRows columns fuel (i + 1) rows (cout.write (text "\n"))
    else pure (some (rows, cout))

variable {lib} {connection : ℕ} {view : σ → Session δ} {execute : Bytes → δ → Reply × δ}

/-- What can be known of a console. -/
def Console.seen (view : σ → Session δ) (s : Console σ) : Session δ × Cout := (view s.lib, s.cout)

theorem rowsLoop_shows (documented : Documented lib connection view execute) {db : δ}
    {columns result fuel i : ℕ} {rows : List Row} {s : Console σ}
    (fetching : view s.lib = ⟨db, columns, some rows, some result⟩) :
    (rowsLoop lib connection (some result) fuel i s).map (Option.map (Console.seen view)) =
      (showRows columns fuel i rows s.cout).map
        (Option.map fun x => (⟨db, columns, some x.1, some result⟩, x.2)) := by
  induction fuel generalizing i rows s with
  | zero => rfl
  | succ fuel ih =>
    obtain ⟨count, counted⟩ := documented.fieldCount s.lib
    rw [fetching] at count counted
    simp only [rowsLoop, showRows, count]
    split
    · cases rows with
      | nil =>
        obtain ⟨last, fetched⟩ := documented.fetchRow_end result
          (lib.answer (.fieldCount connection) s.lib).2 (by rw [counted]) (by rw [counted])
        rw [last]
        rw [counted] at fetched
        simp only [Except.map, pure, Except.pure, Option.map, Console.seen, fetched]
      | cons row rows =>
        obtain ⟨next, fetched⟩ := documented.fetchRow_row result
          (lib.answer (.fieldCount connection) s.lib).2 row rows (by rw [counted]) (by rw [counted])
        rw [counted] at fetched
        have fields := documented.numFields result
          (lib.fetchRow (some result) (lib.answer (.fieldCount connection) s.lib).2).2
          (by rw [fetched])
        rw [fetched] at fields
        rw [next]
        simp only [fields]
        cases printValues row columns s.cout with
        | error fault => rfl
        | ok cout => exact ih fetched
    · simp only [Except.map, pure, Except.pure, Option.map, Console.seen, counted]

/-- What can be known after an operation of a `CDBManager`: its answer, and the console. -/
def observe (view : σ → Session δ) (x : Bool × Console σ) : Bool × Session δ × Cout :=
  (x.1, x.2.seen view)

/-- What `executeSQL` comes to, from the server's reply and the database afterwards. -/
def executeAnswer (fuel : ℕ) (cout : Cout) :
    Reply × δ → Except Fault (Option (Bool × Session δ × Cout))
  | (.failed, _) => .error (.exit 1)
  | (.done, db) =>
    (showRows 0 fuel 0 [] cout).map (Option.map fun x => (true, ⟨db, 0, none, none⟩, x.2))
  | (.rows columns rows, db) =>
    (showRows columns fuel 0 rows cout).map
      (Option.map fun x => (true, ⟨db, columns, none, none⟩, x.2))

section Execute

variable {db : CDBManager} {fuel : ℕ} {sql : Bytes} {s : Console σ}

/-- The part of `executeSQL` behind a successful query. -/
theorem executeSQL_success (success : (lib.answer (.query db.connection (cString sql)) s.lib).1 = 0)
    {use : Option ℕ × σ}
    (used : lib.useResult db.connection (lib.answer (.query db.connection (cString sql)) s.lib).2 =
      use) :
    db.executeSQL lib fuel sql s =
      (rowsLoop lib db.connection use.1 fuel 0 { s with lib := use.2 }).map
        (Option.map fun s => (true, { s with lib := lib.freeResult use.1 s.lib })) := by
  rw [CDBManager.executeSQL]
  simp only [success, ne_eq, not_true_eq_false, if_false, used]
  cases rowsLoop lib db.connection use.1 fuel 0 { s with lib := use.2 } with
  | error fault => rfl
  | ok ended => cases ended <;> rfl

theorem executeSQL_rows (documented : Documented lib db.connection view execute)
    (idle : (view s.lib).outstanding = none) {columns : ℕ} {rows : List Row} {contents : δ}
    (reply : execute (cString sql) (view s.lib).db = (.rows columns rows, contents)) :
    (db.executeSQL lib fuel sql s).map (Option.map (observe view)) =
      (showRows columns fuel 0 rows s.cout).map
        (Option.map fun x => (true, ⟨contents, columns, none, none⟩, x.2)) := by
  obtain ⟨success, queried⟩ := documented.query_rows _ _ _ _ _ idle reply
  obtain ⟨result, handle, used⟩ := documented.useResult_rows _ (by rw [queried]; simp)
  rw [queried] at used
  rw [executeSQL_success success rfl, handle, map_map]
  apply map_congr (rowsLoop_shows documented used)
  intro last x same
  obtain ⟨session, cout⟩ := Prod.mk.inj same
  have freed := documented.freeResult_some result last.lib (by rw [session])
  simp only [observe, Console.seen, freed, session, cout]

theorem executeSQL_done (documented : Documented lib db.connection view execute)
    (idle : (view s.lib).outstanding = none) {contents : δ}
    (reply : execute (cString sql) (view s.lib).db = (.done, contents)) :
    (db.executeSQL lib fuel sql s).map (Option.map (observe view)) =
      (showRows 0 fuel 0 [] s.cout).map
        (Option.map fun x => (true, ⟨contents, 0, none, none⟩, x.2)) := by
  obtain ⟨success, queried⟩ := documented.query_done _ _ _ idle reply
  obtain ⟨handle, used⟩ := documented.useResult_none _ (by rw [queried])
  rw [queried] at used
  rw [executeSQL_success success rfl, handle, map_map]
  cases fuel with
  | zero => rfl
  | succ fuel =>
    obtain ⟨count, counted⟩ := documented.fieldCount
      (lib.useResult db.connection (lib.answer (.query db.connection (cString sql)) s.lib).2).2
    rw [used] at count counted
    have freed := documented.freeResult_null (lib.answer (.fieldCount db.connection)
      (lib.useResult db.connection (lib.answer (.query db.connection (cString sql)) s.lib).2).2).2
    rw [counted] at freed
    simp only [rowsLoop, count, showRows, Nat.not_lt_zero, if_false, Except.map, pure, Except.pure,
      Option.map, observe, Console.seen, freed]

/-- On a connection without an outstanding result set everything that can be known after
`executeSQL` follows from the server's reply. -/
theorem executeSQL_idle (documented : Documented lib db.connection view execute)
    (idle : (view s.lib).outstanding = none) :
    (db.executeSQL lib fuel sql s).map (Option.map (observe view)) =
      executeAnswer fuel s.cout (execute (cString sql) (view s.lib).db) := by
  cases reply : execute (cString sql) (view s.lib).db with
  | mk answer contents =>
    cases answer with
    | failed =>
      have failed := (documented.query_failed _ _ _ idle reply).1
      rw [CDBManager.executeSQL]
      simp only [ne_eq, failed, not_false_eq_true, if_true]
      rfl
    | done => exact executeSQL_done documented idle reply
    | rows columns rows => exact executeSQL_rows documented idle reply

end Execute

/-! ## What a table looks like -/

/-- A row on a line, each value followed by a space. -/
def Row.line (shown : Bytes → Bytes) (row : Row) : Bytes :=
  (row.flatMap fun value => shown (value.getD []) ++ text " ") ++ text "\n"

/-- Every row on a line of its own, the values as they are. -/
def table (rows : List Row) : Bytes := rows.flatMap (Row.line id)

/-- A row of `columns` values, none of them NULL. -/
structure Plain (columns : ℕ) (row : Row) : Prop where
  length : row.length = columns
  nonNull : none ∉ row

theorem printValues_succ (row : Row) (n : ℕ) (cout : Cout) :
    printValues row (n + 1) cout =
      printValues row n cout >>= fun cout => printValue row cout n := by
  simp [printValues, List.range_succ, List.foldlM_append]

theorem printValues_take {row : Row} (nonNull : none ∉ row) (out : Bytes) {n : ℕ}
    (hn : n ≤ row.length) :
    printValues row n ⟨out, false⟩ = .ok
      ⟨out ++ (row.take n).flatMap fun value => cString (value.getD []) ++ text " ", false⟩ := by
  induction n with
  | zero => simp [printValues, pure, Except.pure]
  | succ n ih =>
    obtain ⟨value, next⟩ : ∃ value, row[n]? = some value :=
      ⟨_, List.getElem?_eq_getElem (show n < row.length by omega)⟩
    have mem := List.mem_of_getElem? next
    cases value with
    | none => exact absurd mem nonNull
    | some value =>
      rw [printValues_succ, ih (by omega), List.take_add_one, next]
      change printValue row _ n = _
      simp [printValue, next, Cout.string, Cout.write, pure, Except.pure]

/-- A row printed on a line. -/
theorem printValues_plain {columns : ℕ} {row : Row} (plain : Plain columns row) (out : Bytes) :
    ∃ cout, printValues row columns ⟨out, false⟩ = .ok cout ∧
      cout.write (text "\n") = ⟨out ++ row.line cString, false⟩ := by
  have all := printValues_take plain.nonNull out plain.length.ge
  rw [← plain.length, List.take_length] at all
  rw [← plain.length]
  exact ⟨_, all, by simp [Cout.write, Row.line]⟩

/-- As many rows are printed as there are columns, if there are that many. -/
theorem showRows_plain {columns fuel i : ℕ} {rows : List Row}
    (plain : ∀ row ∈ rows, Plain columns row) (out : Bytes) (enough : columns - i < fuel) :
    showRows columns fuel i rows ⟨out, false⟩ = .ok (some (rows.drop (columns - i),
      ⟨out ++ (rows.take (columns - i)).flatMap (Row.line cString), false⟩)) := by
  induction fuel generalizing i rows out with
  | zero => omega
  | succ fuel ih =>
    simp only [showRows]
    split
    · rename_i more
      cases rows with
      | nil => simp [pure, Except.pure]
      | cons row rows =>
        obtain ⟨cout, printed, line⟩ := printValues_plain (plain row List.mem_cons_self) out
        have left : columns - i = columns - (i + 1) + 1 := by omega
        simp only [printed]
        rw [left, List.take_succ_cons, List.drop_succ_cons, List.flatMap_cons, ← List.append_assoc]
        change showRows columns fuel (i + 1) rows (cout.write (text "\n")) = _
        rw [line]
        exact ih (fun r hr => plain r (List.mem_cons_of_mem _ hr)) _ (by omega)
    · rename_i ended
      rw [Nat.sub_eq_zero_of_le (by omega)]
      simp [pure, Except.pure]

/-! ## Whether it is the whole table -/

section FlatMap

variable {α β : Type} {f g : α → List β} {l : List α}

theorem length_flatMap_le (le : ∀ x ∈ l, (f x).length ≤ (g x).length) :
    (l.flatMap f).length ≤ (l.flatMap g).length := by
  induction l with
  | nil => rfl
  | cons x xs ih =>
    have first := le x List.mem_cons_self
    have rest := ih fun y hy => le y (List.mem_cons_of_mem _ hy)
    rw [List.flatMap_cons, List.flatMap_cons, List.length_append, List.length_append]
    omega

/-- Replacing every part of a text by one that is no longer leaves the text alone only if it leaves
every part alone. -/
theorem flatMap_eq_flatMap_iff (le : ∀ x ∈ l, (f x).length ≤ (g x).length) :
    l.flatMap f = l.flatMap g ↔ ∀ x ∈ l, f x = g x := by
  induction l with
  | nil => simp
  | cons x xs ih =>
    have rest (y : α) (hy : y ∈ xs) : (f y).length ≤ (g y).length :=
      le y (List.mem_cons_of_mem _ hy)
    have first := le x List.mem_cons_self
    have behind := length_flatMap_le rest
    rw [List.flatMap_cons, List.flatMap_cons, List.forall_mem_cons, ← ih rest]
    constructor
    · intro same
      have lengths := congrArg List.length same
      rw [List.length_append, List.length_append] at lengths
      exact List.append_inj same (by omega)
    · rintro ⟨head, tail⟩
      rw [head, tail]

end FlatMap

theorem cString_length_le (s : Bytes) : (cString s).length ≤ s.length :=
  List.Sublist.length_le (List.takeWhile_sublist _)

theorem value_length_le (value : Option Bytes) :
    (cString (value.getD []) ++ text " ").length ≤ (id (value.getD []) ++ text " ").length := by
  have le := cString_length_le (value.getD [])
  simp only [List.length_append, id]
  omega

theorem line_length_le (row : Row) : (row.line cString).length ≤ (row.line id).length := by
  have le := length_flatMap_le (l := row) fun value _ => value_length_le value
  simp only [Row.line, List.length_append] at le ⊢
  omega

/-- A line shows its row exactly when no value contains a zero byte. -/
theorem line_eq_iff (row : Row) :
    row.line cString = row.line id ↔ ∀ value ∈ row, 0 ∉ value.getD [] := by
  rw [Row.line, Row.line, List.append_left_inj,
    flatMap_eq_flatMap_iff fun value _ => value_length_le value]
  simp only [List.append_left_inj, id, cString_eq_self_iff]

/-- What is printed is the whole table exactly when it has at most `columns` rows and no value
contains a zero byte. -/
theorem printed_eq_table_iff {columns : ℕ} {rows : List Row} :
    (rows.take columns).flatMap (Row.line cString) = table rows ↔
      rows.length ≤ columns ∧ ∀ row ∈ rows, ∀ value ∈ row, 0 ∉ value.getD [] := by
  have lines (l : List Row) : (l.flatMap (Row.line cString)).length ≤ (table l).length :=
    length_flatMap_le fun row _ => line_length_le row
  by_cases short : rows.length ≤ columns
  · rw [List.take_of_length_le short, table, flatMap_eq_flatMap_iff fun row _ => line_length_le row]
    simp only [line_eq_iff, short, true_and]
  · refine iff_of_false ?_ fun both => short both.1
    intro same
    -- the rows left out would be empty lines
    have lengths := congrArg List.length same
    have shown := lines (rows.take columns)
    have whole : table rows = table (rows.take columns) ++ table (rows.drop columns) := by
      rw [table, table, table, ← List.flatMap_append, List.take_append_drop]
    obtain ⟨row, rest, left⟩ : ∃ row rest, rows.drop columns = row :: rest := by
      apply List.exists_cons_of_ne_nil
      rw [ne_eq, List.drop_eq_nil_iff]
      exact short
    have missing : 1 ≤ (table (rows.drop columns)).length := by
      rw [left, table, List.flatMap_cons, Row.line, List.length_append, List.length_append]
      have newline : (text "\n").length = 1 := rfl
      omega
    rw [whole, List.length_append] at lengths
    omega

/-- `executeSQL` returns true and has printed the whole result set. -/
def PrintsTable (lib : Libmysqlclient σ) (db : CDBManager) (fuel : ℕ) (sql : Bytes) (s : Console σ)
    (rows : List Row) : Prop :=
  ∃ s', db.executeSQL lib fuel sql s = .ok (some (true, s')) ∧
    s'.cout = ⟨s.cout.written ++ table rows, false⟩

/-- On a connection without an outstanding result set, and with a result set of complete rows
without NULL: it is printed as a whole exactly when it has no more rows than columns and no value
contains a zero byte. -/
theorem printsTable_iff {db : CDBManager} {fuel columns : ℕ} {sql : Bytes} {s : Console σ}
    {rows : List Row} {contents : δ} (documented : Documented lib db.connection view execute)
    (idle : (view s.lib).outstanding = none)
    (reply : execute (cString sql) (view s.lib).db = (.rows columns rows, contents))
    (plain : ∀ row ∈ rows, Plain columns row) (good : s.cout.bad = false)
    (enough : columns < fuel) :
    PrintsTable lib db fuel sql s rows ↔
      rows.length ≤ columns ∧ ∀ row ∈ rows, ∀ value ∈ row, 0 ∉ value.getD [] := by
  have start : s.cout = ⟨s.cout.written, false⟩ := by rw [← good]
  have shows : (db.executeSQL lib fuel sql s).map (Option.map (observe view)) = _ :=
    executeSQL_rows documented idle reply
  rw [start, showRows_plain plain s.cout.written (i := 0) enough] at shows
  obtain ⟨x, ran, seen⟩ := exists_of_map_eq shows
  obtain ⟨answer, last⟩ := x
  simp only [observe, Console.seen, Prod.mk.injEq, Nat.sub_zero] at seen
  obtain ⟨rfl, -, output⟩ := seen
  rw [← printed_eq_table_iff, PrintsTable, ran]
  constructor
  · rintro ⟨s', same, printed⟩
    cases same
    rw [output] at printed
    simpa using printed
  · intro printed
    exact ⟨last, rfl, by rw [output, printed]⟩

/-- Two rows of two columns. -/
theorem printsTable_iff_twoColumns :
    let rows : List Row := [[some (text "1"), some (text "a")], [some (text "2"), some (text "b")]]
    PrintsTable (sessionLibrary fun _ (db : Unit) => (.rows 2 rows, db)) ⟨0⟩ 3
      (text "select * from t") ⟨⟨(), 0, none, none⟩, ⟨[], false⟩⟩ rows := by
  intro rows
  refine (printsTable_iff (sessionLibrary_documented _ _) rfl rfl ?_ rfl (by omega)).mpr ?_
  · intro row mem
    simp only [rows, List.mem_cons, List.not_mem_nil, or_false] at mem
    rcases mem with rfl | rfl
    · exact ⟨rfl, by decide⟩
    · exact ⟨rfl, by decide⟩
  · decide +kernel

/-- Two rows of one column: only the first is printed. -/
theorem executeSQL_omits_row :
    let rows : List Row := [[some (text "a")], [some (text "b")]]
    ∃ s', CDBManager.executeSQL (sessionLibrary fun _ (db : Unit) => (.rows 1 rows, db)) 2
        (text "select * from t") ⟨0⟩ ⟨⟨(), 0, none, none⟩, ⟨[], false⟩⟩ = .ok (some (true, s')) ∧
      s'.cout = ⟨text "a \n", false⟩ ∧ table rows = text "a \nb \n" := by
  intro rows
  refine ⟨_, rfl, ?_, ?_⟩ <;> decide +kernel

end JiaTuanServer.Request

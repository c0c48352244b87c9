import JiaTuanServer.Request.DbManager

/-!
# Logins and registered credentials

What MySQL is assumed to do with the two statements of `CDBManager`, and what its operations
therefore say about the table. A SELECT that is well formed returns 0 and has columns whatever
rows match, and `userLoginFunc` looks at nothing else.
-/

namespace JiaTuanServer.Request

open LocalTriple

/-- What a statement means to the server. -/
inductive Statement where
  /-- A new row with these two values. -/
  | insert (userLogin userPass : Bytes)
  /-- The rows with these two values. -/
  | select (userLogin userPass : Bytes)
  deriving DecidableEq, Repr

section Table

variable {σ : Type}

/-- The documented behaviour of MySQL on `jt_users`: `means` is what a statement means, `idle` that
a connection is open without an outstanding result, `rows` the table, `columns` its width. -/
structure Mysql.Holds (mysql : Mysql σ) (means : Bytes → Option Statement) (idle : σ → ℕ → Prop)
    (rows : σ → List (Bytes × Bytes)) (columns : ℕ) : Prop where
  columns_pos : 0 < columns
  select : ∀ {s c sql l p}, idle s c → means sql = some (.select l p) →
    (mysql.answer (.query c sql) s).1 = 0
  fieldCount : ∀ {s c sql l p}, idle s c → means sql = some (.select l p) →
    (mysql.answer (.fieldCount c) (mysql.answer (.query c sql) s).2).1 = columns
  insert : ∀ {s c sql l p}, idle s c → means sql = some (.insert l p) →
    (mysql.answer (.query c sql) s).1 = 0 →
    rows (mysql.answer (.query c sql) s).2 = rows s ++ [(l, p)] ∧
      ∀ c', idle s c' → idle (mysql.answer (.query c sql) s).2 c'

/-- The login is answered, and with `true` exactly if `registered`. -/
def LoginCorrect (mysql : Mysql σ) (db : CDBManager) (login pass : Bytes) (w : World σ)
    (registered : Prop) : Prop :=
  ∃ answer w', (db.userLoginFunc mysql login pass).run w = .ok (answer, w') ∧
    (answer = true ↔ registered)

/-- A registration: the object it is made on, and its two arguments. -/
structure Registration where
  db : CDBManager
  userLogin : Bytes
  userPass : Bytes

/-- Registrations one after the other, as long as they succeed. -/
def registerAll (mysql : Mysql σ) : List Registration → Handler σ Bool
  | [] => pure true
  | r :: rest => do
    if ← r.db.userRegisterFunc mysql r.userLogin r.userPass then registerAll mysql rest
    else pure false

variable {mysql : Mysql σ} {means : Bytes → Option Statement} {idle : σ → ℕ → Prop}
  {rows : σ → List (Bytes × Bytes)} {columns : ℕ} {db : CDBManager} {login pass : Bytes}

/-- A login whose statement is well formed returns true on every table. -/
theorem login_true (holds : mysql.Holds means idle rows columns) {w : World σ}
    (ready : idle w.lib db.connection)
    (meant : means (cString (CDBManager.loginSql login pass)) = some (.select login pass)) :
    ∃ w', (db.userLoginFunc mysql login pass).run w = .ok (true, w') := by
  have run := CDBManager.userLoginFunc_run mysql login pass db w
  have count := holds.fieldCount ready meant
  simp only [holds.select ready meant, ne_eq, not_true_eq_false, if_false, World.after, count,
    Nat.pos_iff_ne_zero.mp holds.columns_pos, not_false_eq_true, decide_true] at run
  exact ⟨_, run⟩

/-- So it is correct exactly where the answer ought to be true. -/
theorem loginCorrect_iff (holds : mysql.Holds means idle rows columns) {w : World σ}
    (ready : idle w.lib db.connection)
    (meant : means (cString (CDBManager.loginSql login pass)) = some (.select login pass))
    (registered : Prop) : LoginCorrect mysql db login pass w registered ↔ registered := by
  obtain ⟨w', run⟩ := login_true holds ready meant
  constructor
  · rintro ⟨answer, w'', run', correct⟩
    cases run.symm.trans run'
    exact correct.mp rfl
  · intro h
    exact ⟨true, w', run, iff_of_true rfl h⟩

/-- Successful registrations append their rows. -/
theorem registerAll_rows (holds : mysql.Holds means idle rows columns)
    {registrations : List Registration} {w w' : World σ}
    (ready : ∀ r ∈ registrations, idle w.lib r.db.connection ∧
      means (cString (CDBManager.registerSql r.userLogin r.userPass)) =
        some (.insert r.userLogin r.userPass))
    (run : (registerAll mysql registrations).run w = .ok (true, w')) :
    rows w'.lib = rows w.lib ++ registrations.map (fun r => (r.userLogin, r.userPass)) ∧
      ∀ c, idle w.lib c → idle w'.lib c := by
  induction registrations generalizing w with
  | nil =>
    cases run
    simp
  | cons r rest ih =>
    obtain ⟨idle_r, meant⟩ := ready r List.mem_cons_self
    rw [registerAll, run_bind_of_ok (CDBManager.userRegisterFunc_run mysql _ _ r.db w)] at run
    split at run
    next done =>
      obtain ⟨appended, kept⟩ := holds.insert idle_r meant (of_decide_eq_true done)
      obtain ⟨rest_rows, rest_kept⟩ := ih (fun r' mem =>
        (ready r' (List.mem_cons_of_mem _ mem)).imp_left (kept _)) run
      refine ⟨?_, fun c h => rest_kept c (kept c h)⟩
      rw [rest_rows, World.after, appended, List.map_cons, List.append_assoc]
      rfl
    next => cases run

/-- On a connection in order, with statements that mean what they should: a login on any table is
correct if and only if the table holds its row. After any successful registrations in an empty table
the table holds the registered rows, and a login is correct if and only if one of the registrations
was made with its user and password. -/
theorem login_correct_iff (holds : mysql.Holds means idle rows columns) :
    (∀ (w : World σ) (db : CDBManager) (login pass : Bytes), idle w.lib db.connection →
      means (cString (CDBManager.loginSql login pass)) = some (.select login pass) →
      (LoginCorrect mysql db login pass w ((login, pass) ∈ rows w.lib) ↔
        (login, pass) ∈ rows w.lib)) ∧
    ∀ (registrations : List Registration) (w₀ w : World σ) (db : CDBManager) (login pass : Bytes),
      rows w₀.lib = [] → idle w₀.lib db.connection →
      (∀ r ∈ registrations, idle w₀.lib r.db.connection ∧
        means (cString (CDBManager.registerSql r.userLogin r.userPass)) =
          some (.insert r.userLogin r.userPass)) →
      (registerAll mysql registrations).run w₀ = .ok (true, w) →
      means (cString (CDBManager.loginSql login pass)) = some (.select login pass) →
      rows w.lib = registrations.map (fun r => (r.userLogin, r.userPass)) ∧
        (LoginCorrect mysql db login pass w
            (∃ r ∈ registrations, r.userLogin = login ∧ r.userPass = pass) ↔
          ∃ r ∈ registrations, r.userLogin = login ∧ r.userPass = pass) := by
  refine ⟨fun w db login pass ready meant => loginCorrect_iff holds ready meant _, ?_⟩
  intro registrations w₀ w db login pass empty ready each run meant
  obtain ⟨appended, kept⟩ := registerAll_rows holds each run
  rw [empty, List.nil_append] at appended
  exact ⟨appended, loginCorrect_iff holds (kept _ ready) meant _⟩

end Table

/-! ## A server of one table -/

/-- The table, whether a result is outstanding, and the columns of the last statement's result. -/
structure Table where
  rows : List (Bytes × Bytes)
  outstanding : Bool
  fields : ℕ

def isDigit (c : UInt8) : Bool := 0x30 ≤ c && c ≤ 0x39

/-- A decimal number without leading zeros. -/
def isNumeral (s : Bytes) : Bool := s ≠ [] && s.all isDigit && (s.head? ≠ some 0x30 || s.length = 1)

/-- The text behind `start`. -/
def behind (start s : Bytes) : Option Bytes :=
  if start.isPrefixOf s then some (s.drop start.length) else none

/-- Reads the two statements when their arguments are numerals. -/
def readStatement (sql : Bytes) : Option Statement :=
  match behind (text "select * from jt_users where user_login = ") sql with
  | some rest =>
    match behind (text " and user_pass = ") (rest.dropWhile isDigit) with
    | some pass =>
      let login := rest.takeWhile isDigit
      if isNumeral login && isNumeral pass then some (.select login pass) else none
    | none => none
  | none =>
    match behind (text "insert into jt_users (user_login,user_pass,user_registered) values (") sql
      with
    | some rest =>
      match behind (text ",") (rest.dropWhile isDigit) with
      | some rest' =>
        let login := rest.takeWhile isDigit
        let pass := rest'.takeWhile isDigit
        if isNumeral login && isNumeral pass && rest'.dropWhile isDigit = text ",now())" then
          some (.insert login pass)
        else none
      | none => none
    | none => none

/-- A server of these two statements, whose SELECT leaves a result of four columns outstanding. -/
def tableServer : Mysql Table where
  answer
    | .init, t => (some 0, t)
    | .realConnect _ _ _ _ _, t => (some 0, t)
    | .query _ sql, t =>
      if t.outstanding then (1, t)
      else match readStatement sql with
        | some (.insert l p) => (0, { t with rows := t.rows ++ [(l, p)], fields := 0 })
        | some (.select _ _) => (0, { t with outstanding := true, fields := 4 })
        | none => (1, t)
    | .fieldCount _, t => (t.fields, t)
    | .close _, t => ((), { t with outstanding := false })

theorem tableServer_holds :
    tableServer.Holds readStatement (fun t _ => t.outstanding = false) Table.rows 4 where
  columns_pos := by omega
  select idle means := by simp [tableServer, idle, means]
  fieldCount idle means := by simp [tableServer, idle, means]
  insert idle means _ := by simp [tableServer, idle, means]

theorem login_correct_registered :
    LoginCorrect tableServer ⟨0⟩ (text "13814381438") (text "123456")
      ⟨⟨[(text "13814381438", text "123456")], false, 0⟩, [], []⟩
      ((text "13814381438", text "123456") ∈ [(text "13814381438", text "123456")]) :=
  ((login_correct_iff tableServer_holds).1 _ ⟨0⟩ _ _ rfl (by decide +kernel)).mpr
    (List.mem_singleton.mpr rfl)

/-- A login in the empty table succeeds. -/
theorem login_empty_table :
    readStatement (cString (CDBManager.loginSql (text "13814381438") (text "123456"))) =
        some (.select (text "13814381438") (text "123456")) ∧
      (∃ w', (CDBManager.userLoginFunc tableServer (text "13814381438") (text "123456") ⟨0⟩).run
        ⟨⟨[], false, 0⟩, [], []⟩ = .ok (true, w')) ∧
      ¬ LoginCorrect tableServer ⟨0⟩ (text "13814381438") (text "123456")
        ⟨⟨[], false, 0⟩, [], []⟩
        ((text "13814381438", text "123456") ∈ Table.rows ⟨[], false, 0⟩) := by
  have meant : readStatement (cString (CDBManager.loginSql (text "13814381438") (text "123456"))) =
      some (.select (text "13814381438") (text "123456")) := by decide +kernel
  refine ⟨meant, login_true tableServer_holds rfl meant, ?_⟩
  rw [loginCorrect_iff tableServer_holds rfl meant]
  exact List.not_mem_nil

end JiaTuanServer.Request

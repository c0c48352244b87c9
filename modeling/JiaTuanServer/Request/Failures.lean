import JiaTuanServer.Request.Verdict

/-!
# Calls that fail

libmysqlclient while some of its calls fail, and what it then makes of one operation: whether there
is a connection, and whether the statement is accepted on it (`transact`). An operation that gets no
connection ends the process, and any other is answered with the library's verdict (`serve_none`,
`serve_some`).
-/

namespace JiaTuanServer.Request

open LocalTriple

/-- The statement of an operation. -/
def Operation.sql : Operation → Bytes
  | register userLogin userPass => CDBManager.registerSql userLogin userPass
  | login userLogin userPass => CDBManager.loginSql userLogin userPass
  | unknown | unreadable _ => []

/-- The operations that `CDBManager` carries out. -/
def Operation.IsCall : Operation → Prop
  | register _ _ | login _ _ => True
  | unknown | unreadable _ => False

/-- The reply to an operation of `CDBManager` that returns `accepted`. -/
def Operation.verdict (accepted : Bool) : Operation → Value
  | register _ _ =>
    if accepted then successItem
    else failureItem (-111) "register failed,maybe user_login duplicate."
  | login _ _ =>
    if accepted then successItem
    else failureItem (-121) "login failed,maybe the account or password mistake."
  | unknown | unreadable _ => .null

/-! ## Failures -/

/-- The calls that fail while a request is handled. -/
structure Failures where
  init : Bool
  realConnect : Bool
  query : Bool
  deriving DecidableEq, Repr

namespace Failures

def hits (f : Failures) : Call → Bool
  | .init => f.init
  | .realConnect _ _ _ _ _ => f.realConnect
  | .query _ _ => f.query
  | .fieldCount _ | .close _ => false

/-- Every failure of `f` is one of `g`. -/
def Within (f g : Failures) : Prop :=
  (f.init → g.init) ∧ (f.realConnect → g.realConnect) ∧ (f.query → g.query)

/-- None on the way to a connection. -/
def Connected (f : Failures) : Prop := f.init = false ∧ f.realConnect = false

theorem Connected.of_within {f g : Failures} (connected : g.Connected) (within : f.Within g) :
    f.Connected := by
  obtain ⟨init, realConnect⟩ := connected
  obtain ⟨init', realConnect', -⟩ := within
  rw [init] at init'
  rw [realConnect] at realConnect'
  exact ⟨by simpa using init', by simpa using realConnect'⟩

end Failures

namespace Mysql

variable {σ : Type}

/-- Every connection comes about. -/
structure Connects (mysql : Mysql σ) : Prop where
  init : ∀ s, ∃ connection, (mysql.answer .init s).1 = some connection
  realConnect : ∀ connection host user passwd db s,
    ∃ connected, (mysql.answer (.realConnect connection host user passwd db) s).1 = some connected

/-- Every call that can fail does. -/
structure Down (mysql : Mysql σ) : Prop where
  init : ∀ s, (mysql.answer .init s).1 = none
  realConnect : ∀ connection host user passwd db s,
    (mysql.answer (.realConnect connection host user passwd db) s).1 = none
  query : ∀ connection sql s, (mysql.answer (.query connection sql) s).1 ≠ 0

/-- The library while some calls fail: these are answered, and leave the database, as `fails`
says, the others as `works` says. -/
def failing (works fails : Mysql σ) (f : Failures) : Mysql σ where
  answer c s := if f.hits c then fails.answer c s else works.answer c s

/-! ## What the library makes of an operation -/

variable (mysql : Mysql σ)

/-- A connection, unless one of the two calls for it fails. -/
def connect (s : σ) : Option (ℕ × σ) :=
  let init := mysql.answer .init s
  Option.bind init.1 fun connection =>
    let connect := mysql.answer (connectCall connection) init.2
    Option.map (fun connected => (connected, connect.2)) connect.1

/-- Whether the statement of an operation is accepted on an open connection; a login also needs
columns in its result. -/
def judge (connected : ℕ) (operation : Operation) (s : σ) : Bool × σ :=
  let sent := mysql.answer (.query connected (cString operation.sql)) s
  if sent.1 ≠ 0 then (false, sent.2)
  else match operation with
    | .login _ _ =>
      let count := mysql.answer (.fieldCount connected) sent.2
      (decide (count.1 ≠ 0), count.2)
    | _ => (true, sent.2)

/-- Whether an operation is accepted, on a connection of its own. -/
def transact (operation : Operation) (s : σ) : Option (Bool × σ) :=
  (mysql.connect s).map fun opened =>
    let judged := mysql.judge opened.1 operation opened.2
    (judged.1, (mysql.answer (.close opened.1) judged.2).2)

end Mysql

section Operations

variable {σ : Type} {mysql works fails : Mysql σ} {operation : Operation} {f : Failures}
  {s s' : σ} {w : World σ} {connected : ℕ} {accepted : Bool}

theorem connect_eq_some_iff : mysql.connect s = some (connected, s') ↔
    ∃ connection, (mysql.answer .init s).1 = some connection ∧
      (mysql.answer (connectCall connection) (mysql.answer .init s).2).1 = some connected ∧
      (mysql.answer (connectCall connection) (mysql.answer .init s).2).2 = s' := by
  simp [Mysql.connect, Option.bind_eq_some_iff, Option.map_eq_some_iff]

theorem connect_eq_none_iff : mysql.connect s = none ↔
    ∀ connection, (mysql.answer .init s).1 = some connection →
      (mysql.answer (connectCall connection) (mysql.answer .init s).2).1 = none := by
  simp [Mysql.connect, Option.bind_eq_none_iff]

/-- Opening the connection of a request, or the exit. -/
theorem openDB_none (closed : mysql.connect w.lib = none) :
    (openDB mysql).run w = .error (.exit 1) := by
  rw [connect_eq_none_iff] at closed
  cases init : (mysql.answer .init w.lib).1 with
  | none => exact openDB_exit_init init
  | some connection => exact openDB_exit_connect init (closed connection init)

theorem openDB_some (opened : mysql.connect w.lib = some (connected, s)) :
    ∃ w', (openDB mysql).run w = .ok (⟨connected⟩, w') ∧ w'.lib = s := by
  obtain ⟨connection, init, connect, rfl⟩ := connect_eq_some_iff.mp opened
  exact ⟨_, openDB_run init connect, rfl⟩

theorem connect_down (down : fails.Down) (hit : ¬ f.Connected) (s : σ) :
    (works.failing fails f).connect s = none := by
  rw [connect_eq_none_iff]
  intro connection init
  cases lost : f.init with
  | true =>
    simp only [Mysql.failing, Failures.hits, lost, if_true, down.init] at init
    cases init
  | false =>
    have refused : f.realConnect = true := by
      rw [← Bool.not_eq_false]
      exact fun kept => hit ⟨lost, kept⟩
    simp [Mysql.failing, Failures.hits, refused, down.realConnect]

theorem connect_works (connects : works.Connects) (kept : f.Connected) (s : σ) :
    ∃ connected s', (works.failing fails f).connect s = some (connected, s') := by
  obtain ⟨connection, init⟩ := connects.init s
  obtain ⟨connected, connect⟩ := connects.realConnect connection (text "localhost") (text "root")
    (text "123456") (text "JiaTuanSql") (works.answer .init s).2
  refine ⟨connected, _, connect_eq_some_iff.mpr ⟨connection, ?_, ?_, rfl⟩⟩
  · simpa [Mysql.failing, Failures.hits, kept.1] using init
  · simpa [Mysql.failing, Failures.hits, kept.1, kept.2] using connect

/-- A statement that fails is not accepted. -/
theorem judge_refused
    (refused : (mysql.answer (.query connected (cString operation.sql)) s).1 ≠ 0) :
    (mysql.judge connected operation s).1 = false := by
  simp [Mysql.judge, refused]

/-- The two operations return what the library judges of them. -/
theorem register_judge (l p : Bytes) (db : CDBManager) (w : World σ) :
    let judged := mysql.judge db.connection (.register l p) w.lib
    ∃ w', (db.userRegisterFunc mysql l p).run w = .ok (judged.1, w') ∧ w'.lib = judged.2 := by
  intro judged
  rw [CDBManager.userRegisterFunc_run]
  by_cases refused : (mysql.answer (.query db.connection
      (cString (CDBManager.registerSql l p))) w.lib).1 ≠ 0
  · have no : judged = _ := if_pos refused
    rw [no, decide_eq_false refused]
    exact ⟨_, rfl, rfl⟩
  · have sent : judged = _ := if_neg refused
    rw [sent, decide_eq_true (not_not.mp refused)]
    exact ⟨_, rfl, rfl⟩

theorem login_judge (l p : Bytes) (db : CDBManager) (w : World σ) :
    let judged := mysql.judge db.connection (.login l p) w.lib
    ∃ w', (db.userLoginFunc mysql l p).run w = .ok (judged.1, w') ∧ w'.lib = judged.2 := by
  intro judged
  rw [CDBManager.userLoginFunc_run]
  by_cases refused : (mysql.answer (.query db.connection
      (cString (CDBManager.loginSql l p))) w.lib).1 ≠ 0
  · have no : judged = _ := if_pos refused
    rw [if_pos refused, no]
    exact ⟨_, rfl, rfl⟩
  · have sent : judged = _ := if_neg refused
    rw [if_neg refused, sent]
    exact ⟨_, rfl, rfl⟩

/-- So an operation on an open connection is answered with the verdict on it. -/
theorem perform_judge (mysql : Mysql σ) (isCall : operation.IsCall) (db : CDBManager)
    (w : World σ) :
    let judged := mysql.judge db.connection operation w.lib
    ∃ w', (perform mysql db operation).run w = .ok (operation.verdict judged.1, w') ∧
      w'.lib = judged.2 := by
  intro judged
  have reported {code : ℤ} {desc : String} {done : Handler σ Bool} {flag : Bool} {w' : World σ}
      (did : done.run w = .ok (flag, w')) :
      (report code desc done).run w =
        .ok (if flag then successItem else failureItem code desc, w') := by
    rw [report, run_bind_of_ok did]
    cases flag <;> rfl
  cases operation with
  | register l p =>
    obtain ⟨w', did, state⟩ := register_judge l p db w
    exact ⟨w', reported did, state⟩
  | login l p =>
    obtain ⟨w', did, state⟩ := login_judge l p db w
    exact ⟨w', reported did, state⟩
  | _ => exact absurd isCall id

theorem serve_none (closed : mysql.connect w.lib = none) :
    (serve mysql (.operation operation)).run w = .error (.exit 1) :=
  run_bind_of_error (openDB_none closed)

theorem serve_some (isCall : operation.IsCall)
    (transacted : mysql.transact operation w.lib = some (accepted, s)) :
    ∃ w', (serve mysql (.operation operation)).run w = .ok (operation.verdict accepted, w') ∧
      w'.lib = s := by
  obtain ⟨⟨connected, s₁⟩, opened, judged⟩ := Option.map_eq_some_iff.mp transacted
  cases judged
  obtain ⟨w₁, opens, rfl⟩ := openDB_some opened
  obtain ⟨w₂, performs, state⟩ := perform_judge mysql isCall ⟨connected⟩ w₁
  refine ⟨w₂.after mysql (.close connected), ?_, ?_⟩
  · rw [serve, run_bind_of_ok opens, run_bind_of_ok performs]
    rfl
  · rw [← state]
    rfl

end Operations

end JiaTuanServer.Request

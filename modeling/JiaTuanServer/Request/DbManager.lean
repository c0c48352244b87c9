import JiaTuanServer.Library.LocalTriple
import JiaTuanServer.Request.Json

/-!
# dbmanager.cpp

`CDBManager` over libmysqlclient. The library, and the server behind it, is a parameter: a state and
an answer to every call. What code does to the outside is recorded in a `World`: the calls of the
library in their order, and the replies added to the client's output buffer.
-/

namespace JiaTuanServer.Request

open LocalTriple

/-- A call of libmysqlclient with its arguments. A connection (`MYSQL *`) is a number. -/
inductive Call where
  | init
  | realConnect (connection : ℕ) (host user passwd db : Bytes)
  | query (connection : ℕ) (sql : Bytes)
  | fieldCount (connection : ℕ)
  | close (connection : ℕ)
  deriving DecidableEq, Repr

/-- What a call returns; `none` is NULL. -/
abbrev Call.Answer : Call → Type
  | init => Option ℕ
  | realConnect _ _ _ _ _ => Option ℕ
  | query _ _ => ℤ
  | fieldCount _ => ℕ
  | close _ => Unit

/-- libmysqlclient and the server it talks to, with all they remember in `σ`. -/
structure Mysql (σ : Type) where
  answer : (c : Call) → σ → c.Answer × σ

/-- What the request code acts on. -/
structure World (σ : Type) where
  lib : σ
  /-- The calls of the library so far. -/
  calls : List Call
  /-- The replies added to the output buffer so far. -/
  replies : List Bytes

abbrev Handler (σ : Type) := StateT (World σ) (Except Fault)

variable {σ : Type} (mysql : Mysql σ)

/-- The world after a call. -/
def World.after (w : World σ) (c : Call) : World σ :=
  { w with lib := (mysql.answer c w.lib).2, calls := w.calls ++ [c] }

def call (c : Call) : Handler σ c.Answer := fun w =>
  .ok ((mysql.answer c w.lib).1, w.after mysql c)

theorem call_bind_run {α : Type} (c : Call) (f : c.Answer → Handler σ α) (w : World σ) :
    (call mysql c >>= f).run w = (f (mysql.answer c w.lib).1).run (w.after mysql c) := rfl

theorem call_ends (c : Call) : Ends (call mysql c) := fun _ => ⟨_, _, rfl⟩

/-- A `CDBManager` object. Neither its constructor nor `initDB` returns with a null connection. -/
structure CDBManager where
  connection : ℕ

namespace CDBManager

/-- The constructor. -/
def construct : Handler σ CDBManager := do
  match ← call mysql .init with
  | none => throw (.exit 1)
  | some connection => pure ⟨connection⟩

/-- The destructor. -/
def destruct (db : CDBManager) : Handler σ Unit := call mysql (.close db.connection)

def initDB (host user pwd dbName : Bytes) (db : CDBManager) : Handler σ CDBManager := do
  match ← call mysql (.realConnect db.connection host user pwd dbName) with
  | none => throw (.exit 1)
  | some connection => pure ⟨connection⟩

def registerSql (userLogin userPass : Bytes) : Bytes :=
  text "insert into jt_users (user_login,user_pass,user_registered) values (" ++ userLogin ++
    text "," ++ userPass ++ text ",now())"

def loginSql (userLogin userPass : Bytes) : Bytes :=
  text "select * from jt_users where user_login = " ++ userLogin ++ text " and user_pass = " ++
    userPass

def userRegisterFunc (userLogin userPass : Bytes) (db : CDBManager) : Handler σ Bool := do
  if (← call mysql (.query db.connection (cString (registerSql userLogin userPass)))) ≠ 0 then
    return false
  return true

def userLoginFunc (userLogin userPass : Bytes) (db : CDBManager) : Handler σ Bool := do
  if (← call mysql (.query db.connection (cString (loginSql userLogin userPass)))) ≠ 0 then
    return false
  else if (← call mysql (.fieldCount db.connection)) = 0 then
    return false
  return true

theorem construct_run (w : World σ) : (construct mysql).run w =
    match (mysql.answer .init w.lib).1 with
    | none => .error (.exit 1)
    | some connection => .ok (⟨connection⟩, w.after mysql .init) := by
  rw [construct, call_bind_run]
  cases (mysql.answer .init w.lib).1 <;> rfl

theorem initDB_run (host user pwd dbName : Bytes) (db : CDBManager) (w : World σ) :
    let connect := Call.realConnect db.connection host user pwd dbName
    (db.initDB mysql host user pwd dbName).run w =
      match (mysql.answer connect w.lib).1 with
      | none => .error (.exit 1)
      | some connection => .ok (⟨connection⟩, w.after mysql connect) := by
  intro connect
  rw [initDB, call_bind_run]
  cases answer : (mysql.answer connect w.lib).1 <;> rfl

theorem userRegisterFunc_run (userLogin userPass : Bytes) (db : CDBManager) (w : World σ) :
    let sent := Call.query db.connection (cString (registerSql userLogin userPass))
    (userRegisterFunc mysql userLogin userPass db).run w =
      .ok (decide ((mysql.answer sent w.lib).1 = 0), w.after mysql sent) := by
  intro sent
  rw [userRegisterFunc, call_bind_run]
  by_cases failed : (mysql.answer sent w.lib).1 = 0 <;> simp [sent, failed] <;> rfl

theorem userLoginFunc_run (userLogin userPass : Bytes) (db : CDBManager) (w : World σ) :
    let sent := Call.query db.connection (cString (loginSql userLogin userPass))
    let count := Call.fieldCount db.connection
    (userLoginFunc mysql userLogin userPass db).run w =
      if (mysql.answer sent w.lib).1 ≠ 0 then .ok (false, w.after mysql sent)
      else .ok (decide ((mysql.answer count (w.after mysql sent).lib).1 ≠ 0),
        (w.after mysql sent).after mysql count) := by
  intro sent count
  rw [userLoginFunc, call_bind_run]
  by_cases failed : (mysql.answer sent w.lib).1 = 0
  · rw [if_neg (not_not.mpr failed), if_neg (not_not.mpr failed), call_bind_run]
    by_cases empty : (mysql.answer count (w.after mysql sent).lib).1 = 0 <;>
      simp [sent, count, empty] <;> rfl
  · rw [if_pos failed, if_pos failed]
    rfl

/-- The operations that report a failed statement to their caller run to their end. -/
theorem userRegisterFunc_ends (userLogin userPass : Bytes) (db : CDBManager) :
    Ends (userRegisterFunc mysql userLogin userPass db) := by
  refine (call_ends mysql _).bind fun code => ?_
  split <;> exact .pure _

theorem userLoginFunc_ends (userLogin userPass : Bytes) (db : CDBManager) :
    Ends (userLoginFunc mysql userLogin userPass db) := by
  refine (call_ends mysql _).bind fun code => ?_
  split
  · exact .pure _
  · refine (call_ends mysql _).bind fun count => ?_
    split <;> exact .pure _

end CDBManager

end JiaTuanServer.Request

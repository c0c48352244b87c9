import JiaTuanServer.Request.DbManager

/-!
# buffered_on_read

The callback takes everything out of the input buffer, parses it, and adds one reply to the client's
output buffer, if there is memory for it. `Json::Reader::parse` is a parameter. What follows the
reply, handing the output buffer to the bufferevent, concerns memory and descriptors only.
-/

namespace JiaTuanServer.Request

open LocalTriple

/-- `BUF_MAX_SIZE` -/
def bufMaxSize : ℕ := 4096

/-- What the callback takes from jsoncpp beyond `Json::Value`. -/
structure Jsoncpp where
  /-- `Json::Reader::parse`: the root, or `none` if it returns false. -/
  parse : Bytes → Option Value
  /-- `sprintf` with `%#.16g` and the cut of trailing zeros in `valueToString(double)`. -/
  doubleToString : UInt64 → Bytes

/-- `evbuffer_remove` into the zeroed array `data`, and `string sdata = data`. -/
def receive (input : Bytes) : Except Fault Bytes :=
  if bufMaxSize < input.length then throw .overflow
  else
    let data := input ++ List.replicate (bufMaxSize - input.length) 0
    if 0 ∈ data then pure (cString data) else throw .overread

section Handler

variable {σ : Type} (mysql : Mysql σ)

/-- `return_item` after a request that succeeded. -/
def success : Except Fault Value := Value.null.assign (text "error_code") (.int 0)

/-- `return_item` with an error. -/
def failure (code : ℤ) (desc : String) : Except Fault Value := do
  let returnItem ← Value.null.assign (text "error_code") (.int code)
  returnItem.assign (text "error_desc") (.string (text desc))

/-- The two arguments are read by `asString`, the operation is called, and its result reported. -/
def attempt (first second : String) (operation : Bytes → Bytes → Handler σ Bool) (code : ℤ)
    (desc : String) (value : Value) : Handler σ Value := do
  let (member, value) ← value.resolveReference (text first)
  let userLogin ← member.asString
  let (member, _) ← value.resolveReference (text second)
  let userPass ← member.asString
  if ← operation userLogin userPass then success else failure code desc

/-- The branch for `"register"`. -/
def register (db : CDBManager) : Value → Handler σ Value :=
  attempt "PhoneNO" "Pwd" (db.userRegisterFunc mysql) (-111)
    "register failed,maybe user_login duplicate."

/-- The branch for `"login"`. -/
def login (db : CDBManager) : Value → Handler σ Value :=
  attempt "User_login" "User_pass" (db.userLoginFunc mysql) (-121)
    "login failed,maybe the account or password mistake."

/-- `CDBManager MyDB` and `MyDB.initDB`. -/
def openDB : Handler σ CDBManager := do
  let db ← CDBManager.construct mysql
  db.initDB mysql (text "localhost") (text "root") (text "123456") (text "JiaTuanSql")

/-- The call that `initDB` makes. -/
abbrev connectCall (connection : ℕ) : Call :=
  .realConnect connection (text "localhost") (text "root") (text "123456") (text "JiaTuanSql")

/-- The block for a value with a function name. -/
def dispatch (value : Value) : Handler σ Value := do
  let db ← openDB mysql
  let (member, value) ← value.resolveReference (text "FunctionName")
  let sFunctionName ← member.asString
  let returnItem ←
    if sFunctionName = text "register" then register mysql db value
    else if sFunctionName = text "login" then login mysql db value
    else pure .null
  db.destruct mysql
  return returnItem

/-- `return_item`, from what `reader.parse(sdata, value)` yields. -/
def respond : Option Value → Handler σ Value
  | none => failure (-11) "Error:json data parse."
  | some value => do
    let (member, value) ← value.resolveReference (text "FunctionName")
    if member.isNull then failure (-11) "Error:json data parse." else dispatch mysql value

/-- What `evbuffer_add` puts into the buffer: the reply, or nothing if it fails. -/
def queued (added : Bool) (reply : Bytes) : List Bytes := if added then [reply] else []

/-- `evbuffer_add(client->output_buffer, ...)`, whose result is not looked at. -/
def addReply (added : Bool) (reply : Bytes) : Handler σ Unit :=
  modify fun w => { w with replies := w.replies ++ queued added reply }

/-- The callback for `input`; `added` is whether `evbuffer_add` succeeds. -/
def bufferedOnRead (jsoncpp : Jsoncpp) (added : Bool) (input : Bytes) : Handler σ Unit := do
  let sdata ← receive input
  let returnItem ← respond mysql (jsoncpp.parse sdata)
  addReply added (returnItem.write jsoncpp.doubleToString)

end Handler

/-! ## The connection -/

section Open

variable {σ : Type} {mysql : Mysql σ} {w : World σ} {connection connected : ℕ}

theorem openDB_exit_init (init : (mysql.answer .init w.lib).1 = none) :
    (openDB mysql).run w = .error (.exit 1) := by
  rw [openDB, StateT.run_bind, CDBManager.construct_run, init]
  rfl

theorem openDB_initDB (init : (mysql.answer .init w.lib).1 = some connection) :
    (openDB mysql).run w = (CDBManager.initDB mysql (text "localhost") (text "root")
      (text "123456") (text "JiaTuanSql") ⟨connection⟩).run (w.after mysql .init) := by
  rw [openDB, StateT.run_bind, CDBManager.construct_run, init]
  rfl

theorem openDB_exit_connect (init : (mysql.answer .init w.lib).1 = some connection)
    (connect : (mysql.answer (connectCall connection) (w.after mysql .init).lib).1 = none) :
    (openDB mysql).run w = .error (.exit 1) := by
  rw [openDB_initDB init, CDBManager.initDB_run]
  simp only [connectCall] at connect
  rw [connect]

theorem openDB_run (init : (mysql.answer .init w.lib).1 = some connection)
    (connect : (mysql.answer (connectCall connection) (w.after mysql .init).lib).1 =
      some connected) :
    (openDB mysql).run w =
      .ok (⟨connected⟩, (w.after mysql .init).after mysql (connectCall connection)) := by
  rw [openDB_initDB init, CDBManager.initDB_run]
  simp only [connectCall] at connect ⊢
  rw [connect]

end Open

/-! ## Replies -/

theorem success_eq : success = .ok (.object [(text "error_code", .int 0)]) := Value.assign_null _ _

theorem failure_eq (code : ℤ) (desc : String) :
    failure code desc = .ok (.object [(text "error_code", .int code),
      (text "error_desc", .string (text desc))]) := by
  have lt : text "error_code" < text "error_desc" := by decide
  unfold failure
  rw [Value.assign_null]
  exact Value.assign_behind lt

end JiaTuanServer.Request

import JiaTuanServer.Library.Machine
import JiaTuanServer.Request.ExecuteSql

/-!
# One CDBManager object used again and again

The three operations treat a result set differently. `executeSQL` frees it, fetched or not.
`user_register_func` does not expect one, and `user_login_func` looks at the number of its columns
and leaves it where it is. So after a login whose statement succeeded the connection refuses every
further statement, and any other use of the object keeps it ready (`ready_iff`).

The machine is the object after `initDB`; what it takes to be ready is that every operation gives
the answer it would give on a connection just made to the same database.
-/

namespace JiaTuanServer.Request

open Outcome Transition

/-- An operation of a `CDBManager`. -/
inductive Command where
  | userRegisterFunc (userLogin userPass : Bytes)
  | userLoginFunc (userLogin userPass : Bytes)
  | executeSQL (sql : Bytes)

namespace Reply

/-- The reply is a result set. -/
def IsRows : Reply → Prop
  | .rows _ _ => True
  | _ => False

def succeeds : Reply → Bool
  | .failed => false
  | _ => true

/-- The number of columns of a successful statement. -/
def columns : Reply → ℕ
  | .rows columns _ => columns
  | _ => 0

end Reply

section Machine

variable {σ δ : Type} (lib : Libmysqlclient σ) (db : CDBManager) (view : σ → Session δ)

/-- An operation that only calls the library. -/
def onConsole (operation : Handler σ Bool) (s : Console σ) :
    Except Fault (Option (Bool × Console σ)) :=
  (operation.run ⟨s.lib, [], []⟩).map fun x => some (x.1, { s with lib := x.2.lib })

/-- An operation, with fuel for its loop. -/
def Command.run (fuel : ℕ) : Command → Console σ → Except Fault (Option (Bool × Console σ))
  | .userRegisterFunc userLogin userPass =>
    onConsole (db.userRegisterFunc lib.toMysql userLogin userPass)
  | .userLoginFunc userLogin userPass => onConsole (db.userLoginFunc lib.toMysql userLogin userPass)
  | .executeSQL sql => db.executeSQL lib fuel sql

/-- The console after an operation that returns. -/
def returned : Except Fault (Option (Bool × Console σ)) → Option (Console σ)
  | .ok (some x) => some x.2
  | _ => none

/-- A `CDBManager` after `initDB`, and operations that return. -/
def sessionMachine : Machine (Console σ) (Command × ℕ) where
  initial s := (view s.lib).outstanding = none
  step s a := returned (Command.run lib db a.2 a.1 s)

/-- What an operation comes to: its answer, the output and the database afterwards. -/
def outcome (x : Except Fault (Option (Bool × Console σ))) :
    Except Fault (Option (Bool × Cout × δ)) :=
  x.map (Option.map fun x => (x.1, x.2.cout, (view x.2.lib).db))

/-- The operation gives the answer that it gives on a connection just made to the same database. -/
def AnswersAsFresh (fresh : δ → σ) (s : Console σ) (c : Command) : Prop :=
  ∀ fuel, outcome view (Command.run lib db fuel c s) =
    outcome view (Command.run lib db fuel c { s with lib := fresh (view s.lib).db })

/-- No result set is outstanding, and every operation is answered as on a fresh connection. -/
structure Ready (fresh : δ → σ) (s : Console σ) : Prop where
  idle : (view s.lib).outstanding = none
  answers : ∀ c, AnswersAsFresh lib db view fresh s c

/-- The statement that an operation sends and whose result set it does not free. -/
def Command.unfreed : Command → Option Bytes
  | .userRegisterFunc userLogin userPass =>
    some (cString (CDBManager.registerSql userLogin userPass))
  | .userLoginFunc userLogin userPass => some (cString (CDBManager.loginSql userLogin userPass))
  | .executeSQL _ => none

/-- A registration or a login is not answered by a result set. -/
def NoRows (execute : Bytes → δ → Reply × δ) (s : Console σ) (a : Command × ℕ) : Prop :=
  ∀ sql, a.1.unfreed = some sql → ¬ (execute sql (view s.lib).db).1.IsRows

end Machine

variable {σ δ : Type} {lib : Libmysqlclient σ} {db : CDBManager} {view : σ → Session δ}
  {execute : Bytes → δ → Reply × δ} {fresh : δ → σ} {s u : Console σ} {c : Command} {fuel : ℕ}

/-! ## Sending a statement -/

/-- What becomes of a connection without an outstanding result set when a statement is sent. -/
structure Sent (view : σ → Session δ) (answer : ℤ × σ) (reply : Reply × δ) : Prop where
  success : answer.1 = 0 ↔ reply.1.succeeds = true
  db : (view answer.2).db = reply.2
  idle : (view answer.2).outstanding = none ↔ ¬ reply.1.IsRows
  fields : answer.1 = 0 → (view answer.2).fields = reply.1.columns

/-- A login succeeds exactly when the reply has columns. -/
theorem Sent.columns {answer : ℤ × σ} {reply : Reply × δ} (sent : Sent view answer reply) :
    (answer.1 = 0 ∧ (view answer.2).fields ≠ 0) ↔ reply.1.columns ≠ 0 := by
  constructor
  · rintro ⟨success, fields⟩
    rwa [← sent.fields success]
  · intro columns
    have succeeds : reply.1.succeeds = true := by
      cases answer : reply.1 with
      | failed => simp [answer, Reply.columns] at columns
      | _ => rfl
    have success := sent.success.mpr succeeds
    exact ⟨success, by rwa [sent.fields success]⟩

theorem Documented.sent {connection : ℕ} (documented : Documented lib connection view execute)
    {s : σ} (idle : (view s).outstanding = none) (sql : Bytes) :
    Sent view (lib.answer (.query connection sql) s) (execute sql (view s).db) := by
  cases reply : execute sql (view s).db with
  | mk answer contents =>
    cases answer with
    | failed =>
      obtain ⟨failed, contents, free⟩ := documented.query_failed _ _ _ idle reply
      exact ⟨by simp [failed, Reply.succeeds], contents, by simp [free, Reply.IsRows],
        fun ok => absurd ok failed⟩
    | done =>
      obtain ⟨success, after⟩ := documented.query_done _ _ _ idle reply
      exact ⟨by simp [success, Reply.succeeds], by rw [after], by simp [after, Reply.IsRows],
        fun _ => by simp [after, Reply.columns]⟩
    | rows columns rows =>
      obtain ⟨success, after⟩ := documented.query_rows _ _ _ _ _ idle reply
      exact ⟨by simp [success, Reply.succeeds], by rw [after], by simp [after, Reply.IsRows],
        fun _ => by simp [after, Reply.columns]⟩

/-! ## The operations -/

theorem userRegisterFunc_console (fuel : ℕ) (s : Console σ) (userLogin userPass : Bytes) :
    let answer := lib.answer
      (.query db.connection (cString (CDBManager.registerSql userLogin userPass))) s.lib
    Command.run lib db fuel (.userRegisterFunc userLogin userPass) s =
      .ok (some (decide (answer.1 = 0), ⟨answer.2, s.cout⟩)) := by
  intro answer
  simp only [Command.run, onConsole, CDBManager.userRegisterFunc_run]
  rfl

theorem userLoginFunc_console (documented : Documented lib db.connection view execute)
    (fuel : ℕ) (s : Console σ) (userLogin userPass : Bytes) :
    let answer := lib.answer
      (.query db.connection (cString (CDBManager.loginSql userLogin userPass))) s.lib
    ∃ u, Command.run lib db fuel (.userLoginFunc userLogin userPass) s =
        .ok (some (decide (answer.1 = 0 ∧ (view answer.2).fields ≠ 0), u)) ∧
      view u.lib = view answer.2 ∧ u.cout = s.cout := by
  intro answer
  obtain ⟨count, counted⟩ := documented.fieldCount answer.2
  simp only [Command.run, onConsole, CDBManager.userLoginFunc_run]
  split
  · rename_i failed
    refine ⟨⟨answer.2, s.cout⟩, ?_, rfl, rfl⟩
    have failed' : ¬ answer.1 = 0 := failed
    simp [failed', Except.map, World.after]
    rfl
  · rename_i success
    refine ⟨⟨_, s.cout⟩, ?_, counted, rfl⟩
    have success' : answer.1 = 0 := not_not.mp success
    simp only [success', true_and, ← count]
    rfl

/-- A registration or a login leaves of the connection what sending its statement leaves. -/
theorem unfreed_run (documented : Documented lib db.connection view execute) (fuel : ℕ)
    (s : Console σ) {sql : Bytes} (unfreed : c.unfreed = some sql) :
    ∃ b u, Command.run lib db fuel c s = .ok (some (b, u)) ∧
      view u.lib = view (lib.answer (.query db.connection sql) s.lib).2 := by
  cases c with
  | userRegisterFunc userLogin userPass =>
    cases unfreed
    exact ⟨_, _, userRegisterFunc_console fuel s userLogin userPass, rfl⟩
  | userLoginFunc userLogin userPass =>
    cases unfreed
    obtain ⟨u, ran, seen, -⟩ := userLoginFunc_console documented fuel s userLogin userPass
    exact ⟨_, u, ran, seen⟩
  | executeSQL sql => cases unfreed

/-- What an operation comes to on a connection without an outstanding result set. -/
def Command.answer (execute : Bytes → δ → Reply × δ) (fuel : ℕ) (cout : Cout) (contents : δ) :
    Command → Except Fault (Option (Bool × Cout × δ))
  | .userRegisterFunc userLogin userPass =>
    let reply := execute (cString (CDBManager.registerSql userLogin userPass)) contents
    .ok (some (reply.1.succeeds, cout, reply.2))
  | .userLoginFunc userLogin userPass =>
    let reply := execute (cString (CDBManager.loginSql userLogin userPass)) contents
    .ok (some (decide (reply.1.columns ≠ 0), cout, reply.2))
  | .executeSQL sql =>
    (executeAnswer fuel cout (execute (cString sql) contents)).map
      (Option.map fun x => (x.1, x.2.2, x.2.1.db))

theorem run_idle (documented : Documented lib db.connection view execute)
    (idle : (view s.lib).outstanding = none) (c : Command) :
    outcome view (Command.run lib db fuel c s) =
      c.answer execute fuel s.cout (view s.lib).db := by
  cases c with
  | userRegisterFunc userLogin userPass =>
    have sent := documented.sent idle (cString (CDBManager.registerSql userLogin userPass))
    rw [userRegisterFunc_console, Command.answer, ← sent.db]
    have answer := Bool.eq_iff_iff.mpr (decide_eq_true_iff.trans sent.success)
    simp only [outcome, Except.map, Option.map, answer]
  | userLoginFunc userLogin userPass =>
    have sent := documented.sent idle (cString (CDBManager.loginSql userLogin userPass))
    obtain ⟨u, ran, seen, cout⟩ := userLoginFunc_console documented fuel s userLogin userPass
    rw [ran, Command.answer, ← sent.db]
    simp only [outcome, Except.map, Option.map, sent.columns, seen, cout]
  | executeSQL sql =>
    rw [Command.answer, ← executeSQL_idle documented idle, map_map]
    rfl

theorem executeAnswer_frees {cout : Cout} {reply : Reply × δ} {x : Bool × Session δ × Cout}
    (h : executeAnswer fuel cout reply = .ok (some x)) : x.2.1.outstanding = none := by
  obtain ⟨reply, contents⟩ := reply
  cases reply with
  | failed => simp [executeAnswer] at h
  | done =>
    obtain ⟨y, -, rfl⟩ := exists_of_map_eq h
    rfl
  | rows columns rows =>
    obtain ⟨y, -, rfl⟩ := exists_of_map_eq h
    rfl

/-- `executeSQL` frees the result set of its statement. -/
theorem executeSQL_frees (documented : Documented lib db.connection view execute)
    (idle : (view s.lib).outstanding = none) {sql : Bytes} {b : Bool}
    (ran : db.executeSQL lib fuel sql s = .ok (some (b, u))) : (view u.lib).outstanding = none := by
  have known : (db.executeSQL lib fuel sql s).map (Option.map (observe view)) = _ :=
    executeSQL_idle documented idle
  rw [ran] at known
  exact executeAnswer_frees known.symm

/-! ## Sequences of operations -/

theorem eq_of_returned {x : Except Fault (Option (Bool × Console σ))} (h : returned x = some u) :
    ∃ b, x = .ok (some (b, u)) := by
  cases x with
  | error fault => simp [returned] at h
  | ok ended =>
    cases ended with
    | none => simp [returned] at h
    | some y => exact ⟨y.1, by rw [← Option.some.inj h]⟩

/-- An operation leaves a result set outstanding exactly if it does not free what its statement is
answered with. -/
theorem idle_after (documented : Documented lib db.connection view execute)
    (idle : (view s.lib).outstanding = none) {a : Command × ℕ}
    (taken : (sessionMachine lib db view).step s a = some u) :
    (view u.lib).outstanding = none ↔ NoRows view execute s a := by
  obtain ⟨c, fuel⟩ := a
  obtain ⟨b, ran⟩ := eq_of_returned taken
  cases unfreed : c.unfreed with
  | none =>
    have vacuous : NoRows view execute s (c, fuel) := by
      intro sql sends
      simp [unfreed] at sends
    cases c with
    | executeSQL sql => exact iff_of_true (executeSQL_frees documented idle ran) vacuous
    | _ => simp [Command.unfreed] at unfreed
  | some sql =>
    obtain ⟨b', u', ran', seen⟩ := unfreed_run documented fuel s unfreed
    cases ran.symm.trans ran'
    rw [seen, (documented.sent idle sql).idle]
    simp [NoRows, unfreed]

theorem ready_of_idle (documented : Documented lib db.connection view execute)
    (connects : ∀ d, (view (fresh d)).db = d ∧ (view (fresh d)).outstanding = none)
    (idle : (view s.lib).outstanding = none) : Ready lib db view fresh s where
  idle := idle
  answers c fuel := by
    obtain ⟨contents, free⟩ := connects (view s.lib).db
    rw [run_idle documented idle, run_idle documented (s := { s with lib := _ }) free, contents]

/-- The object stays ready as long as no registration and no login is answered by a result set. -/
theorem ready_iff (documented : Documented lib db.connection view execute)
    (connects : ∀ d, (view (fresh d)).db = d ∧ (view (fresh d)).outstanding = none)
    {tr : List (Console σ × Command × ℕ)} (run : (sessionMachine lib db view).Run s tr u)
    (start : (sessionMachine lib db view).initial s) :
    (∀ v ∈ Machine.visited tr u, Ready lib db view fresh v) ↔
      Machine.Along (NoRows view execute) tr := by
  refine run.forall_visited_iff_of_kept (I := fun _ => True) trivial
    (ready_of_idle documented connects start) (fun _ _ _ _ _ => trivial) ?_ ?_
  · intro s a u _ ready none taken
    exact ready_of_idle documented connects ((idle_after documented ready.idle taken).mpr none)
  · intro s a u _ ready rows taken ready'
    exact rows ((idle_after documented ready.idle taken).mp ready'.idle)

/-- A server whose database is the number of rows inserted, and that finds a row for every
query. -/
def countingServer (sql : Bytes) (inserted : ℕ) : Reply × ℕ :=
  if (text "select").isPrefixOf sql then (.rows 1 [[some (text "1")]], inserted)
  else (.done, inserted + 1)

/-- A connection just made. -/
def justConnected (contents : δ) : Session δ := ⟨contents, 0, none, none⟩

/-- The test that an operation leaves no result set behind whatever the reply is. -/
def freesTest (_ : Console σ) (a : Command × ℕ) : Bool := a.1.unfreed.isNone

theorem noRows_of_test (s : Console σ) (a : Command × ℕ) (h : freesTest s a = true) :
    NoRows view execute s a := by
  intro sql sends
  simp [freesTest, sends] at h

/-- An insertion and a query through `executeSQL`. -/
theorem ready_iff_executeSQL :
    ∃ tr u, (sessionMachine (sessionLibrary countingServer) ⟨0⟩ id).Run
        ⟨justConnected 0, ⟨[], false⟩⟩ tr u ∧ tr.length = 2 ∧
      ∀ v ∈ Machine.visited tr u,
        Ready (sessionLibrary countingServer) ⟨0⟩ id justConnected v := by
  let operations : List (Command × ℕ) :=
    [(.executeSQL (text "insert into t"), 1), (.executeSQL (text "select"), 2)]
  obtain ⟨u, ran⟩ : ∃ u, (sessionMachine (sessionLibrary countingServer) ⟨0⟩ id).exec
      ⟨justConnected 0, ⟨[], false⟩⟩ operations = some u := ⟨_, rfl⟩
  have run := Machine.run_of_exec ran
  refine ⟨_, u, run, rfl, (ready_iff (sessionLibrary_documented _ _) (fun _ => ⟨rfl, rfl⟩) run
    rfl).mpr ?_⟩
  exact Machine.along_of_check noRows_of_test rfl

/-- A login, and then a registration: it is refused, but on another connection it succeeds. -/
theorem userLoginFunc_blocks :
    let lib := sessionLibrary countingServer
    let register := Command.userRegisterFunc (text "2") (text "2")
    ∃ u, (sessionMachine lib ⟨0⟩ id).step ⟨justConnected 0, ⟨[], false⟩⟩
        (.userLoginFunc (text "1") (text "1"), 0) = some u ∧
      outcome id (Command.run lib ⟨0⟩ 0 register u) = .ok (some (false, u.cout, 0)) ∧
      outcome id (Command.run lib ⟨0⟩ 0 register { u with lib := justConnected 0 }) =
        .ok (some (true, u.cout, 1)) ∧
      ¬ Ready lib ⟨0⟩ id justConnected u := by
  intro lib register
  refine ⟨_, rfl, rfl, rfl, ?_⟩
  intro ready
  have idle := ready.idle
  cases idle

end JiaTuanServer.Request

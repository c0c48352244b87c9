import JiaTuanServer.Json.Jsoncpp
import JiaTuanServer.Request.Meaning

/-!
# Requests that take the server down

jsoncpp asserts when a root that is neither null nor an object is indexed, and throws when a number,
an array or an object is converted to a string. Nothing catches either. With a working database, the
callback runs to its end on just the roots that meet no assertion and no exception on the branch
that their function name selects.
-/

namespace JiaTuanServer.Request

open LocalTriple

/-- Every call of the library succeeds. -/
structure Mysql.Succeeds {σ : Type} (mysql : Mysql σ) : Prop where
  init : ∀ s, ∃ connection, (mysql.answer .init s).1 = some connection
  realConnect : ∀ connection host user passwd db s,
    ∃ connected, (mysql.answer (.realConnect connection host user passwd db) s).1 = some connected
  query : ∀ connection sql s, (mysql.answer (.query connection sql) s).1 = 0

/-- The roots on which no indexing asserts and no conversion throws. -/
structure Value.Readable (value : Value) : Prop where
  root : value.isNullOrObject
  functionName : (value.member (text "FunctionName")).hasString
  register : value.Names "register" →
    (value.member (text "PhoneNO")).hasString ∧ (value.member (text "Pwd")).hasString
  login : value.Names "login" →
    (value.member (text "User_login")).hasString ∧ (value.member (text "User_pass")).hasString

/-- The meanings that end in a fault on a working database. -/
def Meaning.Faulty : Meaning → Prop
  | .unindexable | .operation (.unreadable _) => True
  | _ => False

section Values

variable {value : Value}

theorem arguments_faulty {first second : String} {make : Bytes → Bytes → Operation}
    (makes : ∀ l p fault, make l p ≠ .unreadable fault) :
    (Meaning.operation (arguments first second make value)).Faulty ↔
      ¬ ((value.member (text first)).hasString ∧ (value.member (text second)).hasString) := by
  have faulty (l p : Bytes) : ¬ (Meaning.operation (make l p)).Faulty := by
    cases made : make l p with
    | unreadable fault => exact absurd made (makes l p fault)
    | _ => exact id
  unfold arguments
  by_cases read₁ : (value.member (text first)).hasString
  · obtain ⟨l, eq₁⟩ := Value.asString_ok read₁
    by_cases read₂ : (value.member (text second)).hasString
    · obtain ⟨p, eq₂⟩ := Value.asString_ok read₂
      simpa [eq₁, eq₂, read₁, read₂] using faulty l p
    · obtain ⟨fault, eq₂⟩ := Value.asString_error read₂
      simp [eq₁, eq₂, read₂, Meaning.Faulty]
  · obtain ⟨fault, eq₁⟩ := Value.asString_error read₁
    simp [eq₁, read₁, Meaning.Faulty]

/-- A root means a fault exactly if it is not readable. -/
theorem meaning_faulty : (meaning (some value)).Faulty ↔ ¬ value.Readable := by
  by_cases root : value.isNullOrObject
  swap
  · simp only [meaning, if_neg root]
    exact iff_of_true trivial fun readable => root readable.root
  by_cases read : (value.member (text "FunctionName")).hasString
  swap
  · obtain ⟨fault, eq⟩ := Value.asString_error read
    have named : ¬ (value.member (text "FunctionName")).isNull := by
      rw [Value.isNull_iff]
      intro null
      exact read (null ▸ rfl)
    simp only [meaning, if_pos root, if_neg named, JiaTuanServer.Request.named, eq]
    exact iff_of_true trivial fun readable => read readable.functionName
  obtain ⟨name, eq⟩ := Value.asString_ok read
  have names (other : String) : value.Names other ↔ name = text other := by
    simp [Value.Names, eq]
  by_cases null : (value.member (text "FunctionName")).isNull
  · have empty : name = [] := by
      rw [Value.isNull_iff.mp null] at eq
      exact (Except.ok.inj eq).symm
    simp only [meaning, if_pos root, if_pos null]
    refine iff_of_false id (not_not.mpr ⟨root, read, fun h => ?_, fun h => ?_⟩)
    · rw [names, empty] at h
      exact absurd h (by decide)
    · rw [names, empty] at h
      exact absurd h (by decide)
  simp only [meaning, if_pos root, if_neg null, named, eq]
  split
  next register =>
    rw [arguments_faulty (by simp), not_iff_not]
    refine ⟨fun both => ⟨root, read, fun _ => both, fun h => ?_⟩, fun readable => ?_⟩
    · rw [names, register] at h
      exact absurd h (by decide)
    · exact readable.register ((names _).mpr register)
  next register =>
    split
    next login =>
      rw [arguments_faulty (by simp), not_iff_not]
      refine ⟨fun both => ⟨root, read, fun h => ?_, fun _ => both⟩, fun readable => ?_⟩
      · exact absurd ((names _).mp h) register
      · exact readable.login ((names _).mpr login)
    next login =>
      refine iff_of_false id (not_not.mpr ⟨root, read, fun h => ?_, fun h => ?_⟩)
      · exact absurd ((names _).mp h) register
      · exact absurd ((names _).mp h) login

end Values

section Run

variable {σ : Type} {mysql : Mysql σ} {m : Meaning} {operation : Operation}

theorem openDB_ends (succeeds : mysql.Succeeds) : Ends (openDB mysql) := by
  intro w
  obtain ⟨connection, init⟩ := succeeds.init w.lib
  obtain ⟨connected, connect⟩ := succeeds.realConnect connection (text "localhost") (text "root")
    (text "123456") (text "JiaTuanSql") (w.after mysql .init).lib
  exact ⟨_, _, openDB_run init connect⟩

theorem perform_ends (db : CDBManager) (sound : ¬ (Meaning.operation operation).Faulty) :
    Ends (perform mysql db operation) := by
  have report_ends {code : ℤ} {desc : String} {done : Handler σ Bool} (ends : Ends done) :
      Ends (report code desc done) :=
    ends.bind fun flag => by split <;> exact .pure _
  cases operation with
  | register l p => exact report_ends (CDBManager.userRegisterFunc_ends mysql l p db)
  | login l p => exact report_ends (CDBManager.userLoginFunc_ends mysql l p db)
  | unknown => exact .pure _
  | unreadable fault => exact absurd trivial sound

/-- With a working database, every meaning that is not faulty is answered. -/
theorem serve_ends (succeeds : mysql.Succeeds) (sound : ¬ m.Faulty) : Ends (serve mysql m) := by
  cases m with
  | malformed => exact .pure _
  | unindexable => exact absurd trivial sound
  | operation operation =>
    exact (openDB_ends succeeds).bind fun db => (perform_ends db sound).bind fun item =>
      (call_ends mysql _).bind fun _ => .pure _

/-- A faulty meaning ends in a fault, whatever the database does. -/
theorem serve_fails (faulty : m.Faulty) : Fails (serve mysql m) := by
  cases m with
  | malformed => exact absurd faulty id
  | unindexable => exact .throw _
  | operation operation =>
    cases operation with
    | unreadable fault => exact .of_rest fun db => (Fails.throw fault).bind
    | _ => exact absurd faulty id

/-- The callback is the answer to the meaning of what it received, and the reply is added. -/
theorem bufferedOnRead_eq {jsoncpp : Jsoncpp} {added : Bool} {input sdata : Bytes}
    (received : receive input = .ok sdata) :
    bufferedOnRead mysql jsoncpp added input = serve mysql (meaning (jsoncpp.parse sdata)) >>=
      fun item => addReply added (item.write jsoncpp.doubleToString) := by
  rw [bufferedOnRead, received, lift_ok_bind, respond_eq]

theorem addReply_ends (added : Bool) (reply : Bytes) :
    Ends (addReply added reply : Handler σ Unit) := fun _ => ⟨_, _, rfl⟩

end Run

/-- With every call of the library succeeding, a callback runs to its end exactly if its text does
not parse or has a readable root. -/
theorem request_survives_iff {σ : Type} {mysql : Mysql σ} (succeeds : mysql.Succeeds)
    (jsoncpp : Jsoncpp) (added : Bool) {input sdata : Bytes} (received : receive input = .ok sdata)
    (w : World σ) :
    (∃ w', (bufferedOnRead mysql jsoncpp added input).run w = .ok ((), w')) ↔
      ∀ value, jsoncpp.parse sdata = some value → value.Readable := by
  rw [bufferedOnRead_eq received]
  have sound_iff : ¬ (meaning (jsoncpp.parse sdata)).Faulty ↔
      ∀ value, jsoncpp.parse sdata = some value → value.Readable := by
    cases jsoncpp.parse sdata with
    | none => exact iff_of_true id fun _ h => nomatch h
    | some value =>
      rw [meaning_faulty, not_not]
      exact ⟨fun h _ eq => Option.some.inj eq ▸ h, fun h => h value rfl⟩
  rw [← sound_iff]
  constructor
  · rintro ⟨w', run⟩ faulty
    exact ((serve_fails faulty).bind).not_ends w ⟨(), w', run⟩
  · intro sound
    obtain ⟨⟨⟩, w', run⟩ := (serve_ends succeeds sound).bind (fun _ => addReply_ends _ _) w
    exact ⟨w', run⟩

/-- A library that gives every call the same answer each time. -/
def Mysql.fixed (answers : (c : Call) → c.Answer) : Mysql Unit := ⟨fun c s => (answers c, s)⟩

/-- The answers of a database that works, and whose last result has five columns. -/
def working : (c : Call) → c.Answer
  | .init => some 0
  | .realConnect _ _ _ _ _ => some 0
  | .query _ _ => 0
  | .fieldCount _ => 5
  | .close _ => ()

theorem working_succeeds : (Mysql.fixed working).Succeeds :=
  ⟨fun _ => ⟨0, rfl⟩, fun _ _ _ _ _ _ => ⟨0, rfl⟩, fun _ _ _ => rfl⟩

/-! ## A login without arguments, and an array -/

section Texts

open JsonText Json

theorem login_parsed :
    withoutReals.parse (text "\x7b\"FunctionName\":\"login\"\x7d") =
      some (.object [(text "FunctionName", .string (text "login"))]) := by
  have name : Quoted (text "FunctionName") (text "\"FunctionName\"") :=
    .plain (List.all_iff_forall_prop.mp (by decide))
  have login : Quoted (text "login") (text "\"login\"") :=
    .plain (List.all_iff_forall_prop.mp (by decide))
  have members : Derives (.members [(text "FunctionName", .string (text "login"))]) _ :=
    .lastMember .nil name .nil .nil (.string login) .nil
  exact withoutReals_text (.object members) rfl (by simp) (by decide +kernel)

theorem array_parsed : withoutReals.parse (text "[1]") = some (.array [.int 1]) := by
  have elements : Derives (.elements [.number ⟨false, [1], [], none, by simp⟩]) _ :=
    .lastElement .nil (.number _) .nil
  exact withoutReals_text (.array elements) rfl (by simp) (by decide +kernel)

theorem request_survives_login :
    ∃ w', (bufferedOnRead (Mysql.fixed working) withoutReals true
      (text "\x7b\"FunctionName\":\"login\"\x7d")).run ⟨(), [], []⟩ = .ok ((), w') := by
  have received : receive (text "\x7b\"FunctionName\":\"login\"\x7d") =
      .ok (text "\x7b\"FunctionName\":\"login\"\x7d") := by decide +kernel
  refine (request_survives_iff working_succeeds withoutReals true received _).mpr
    fun value parsed => ?_
  cases login_parsed.symm.trans parsed
  exact ⟨rfl, by decide +kernel, fun _ => by decide +kernel, fun _ => by decide +kernel⟩

/-- A root that is an array takes the process down. -/
theorem array_request_asserts :
    (Mysql.fixed working).Succeeds ∧ withoutReals.parse (text "[1]") = some (.array [.int 1]) ∧
      (bufferedOnRead (Mysql.fixed working) withoutReals true (text "[1]")).run ⟨(), [], []⟩ =
        .error .assertion := by
  have received : receive (text "[1]") = .ok (text "[1]") := by decide +kernel
  refine ⟨working_succeeds, array_parsed, ?_⟩
  rw [bufferedOnRead_eq received, array_parsed]
  rfl

end Texts

end JiaTuanServer.Request

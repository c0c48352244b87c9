import JiaTuanServer.Request.Survival

/-!
# One verdict for each request

A callback that runs to its end adds one reply, if there is memory for it. The reply is an object
with an integer error code unless the function name is neither `register` nor `login`: on that
branch nothing fills `return_item`, and the text `null` is sent.
-/

namespace JiaTuanServer.Request

open LocalTriple

/-- An object whose error code is an integer, zero exactly if the request was granted, and which
describes the error otherwise. -/
def Value.IsVerdict (item : Value) (granted : Prop) : Prop :=
  ∃ members code, item = .object members ∧ item.member (text "error_code") = .int code ∧
    (code = 0 ↔ granted) ∧ (¬ granted → ∃ desc, item.member (text "error_desc") = .string desc)

section Items

theorem successItem_isVerdict {granted : Prop} (h : granted) : successItem.IsVerdict granted :=
  ⟨_, 0, rfl, Value.member_head, iff_of_true rfl h, fun no => absurd h no⟩

theorem failureItem_isVerdict {granted : Prop} {code : ℤ} {desc : String} (h : ¬ granted)
    (nonzero : code ≠ 0) : (failureItem code desc).IsVerdict granted := by
  have lt : text "error_code" < text "error_desc" := by decide
  refine ⟨_, code, rfl, Value.member_head, iff_of_false nonzero h, fun _ => ⟨text desc, ?_⟩⟩
  rw [failureItem, Value.member_tail lt, Value.member_head]

/-- An object is never written as `null`. -/
theorem write_object_ne_null {doubleToString : UInt64 → Bytes} {members : List (Bytes × Value)} :
    (Value.object members).write doubleToString ≠ Value.null.write doubleToString := by
  have first : (Value.object members).write doubleToString =
      0x7B :: (Value.separated (Value.writeMembers doubleToString members) ++ text "\x7d" ++
        text "\n") := by
    simp only [Value.write, Value.writeValue, List.append_assoc]
    rfl
  have null : Value.null.write doubleToString = 0x6E :: text "ull\n" := by
    simp only [Value.write, Value.writeValue]
    rfl
  rw [first, null]
  intro eq
  exact absurd (List.cons.inj eq).1 (by decide)

end Items

section Replies

variable {σ : Type} {mysql : Mysql σ} {α β : Type}

/-- Code that adds no reply. -/
abbrev Silent (op : Handler σ α) : Prop := Keeps (fun w w' => w'.replies = w.replies) op

theorem Silent.bind {op : Handler σ α} {f : α → Handler σ β} (first : Silent op)
    (rest : ∀ x, Silent (f x)) : Silent (op >>= f) :=
  Keeps.bind (fun _ _ _ h h' => h'.trans h) first rest

theorem Silent.pure (x : α) : Silent (pure x : Handler σ α) := by
  intro w y w' run
  cases run
  rfl

theorem call_silent (c : Call) : Silent (call mysql c) := by
  intro w x w' run
  cases run
  rfl

theorem openDB_silent : Silent (openDB mysql) := by
  refine .bind (.bind (call_silent _) fun answer => ?_) fun db =>
    .bind (call_silent _) fun answer => ?_
  · cases answer with
    | none => exact .throw _
    | some connection => exact .pure _
  · cases answer with
    | none => exact .throw _
    | some connection => exact .pure _

theorem report_silent {code : ℤ} {desc : String} {done : Handler σ Bool} (silent : Silent done) :
    Silent (report code desc done) :=
  silent.bind fun flag => by split <;> exact .pure _

theorem perform_silent (db : CDBManager) (operation : Operation) :
    Silent (perform mysql db operation) := by
  cases operation with
  | register l p =>
    exact report_silent (.bind (call_silent _) fun code => by split <;> exact .pure _)
  | login l p =>
    refine report_silent (.bind (call_silent _) fun code => ?_)
    split
    · exact .pure _
    · exact .bind (call_silent _) fun count => by split <;> exact .pure _
  | unknown => exact .pure _
  | unreadable fault => exact .throw _

theorem serve_silent (m : Meaning) : Silent (serve mysql m) := by
  cases m with
  | malformed => exact .pure _
  | unindexable => exact .throw _
  | operation operation =>
    exact .bind openDB_silent fun db => .bind (perform_silent db operation) fun item =>
      .bind (call_silent _) fun _ => .pure _

/-- A run of an operation to its end. -/
theorem serve_operation_ok {operation : Operation} {w w' : World σ} {item : Value}
    (run : (serve mysql (.operation operation)).run w = .ok (item, w')) :
    ∃ db w₁ w₂, (openDB mysql).run w = .ok (db, w₁) ∧
      (perform mysql db operation).run w₁ = .ok (item, w₂) := by
  obtain ⟨db, w₁, opened, rest⟩ := run_bind_ok run
  obtain ⟨item', w₂, performed, rest⟩ := run_bind_ok rest
  obtain ⟨-, w₃, closed, rest⟩ := run_bind_ok rest
  cases rest
  exact ⟨db, w₁, w₂, opened, performed⟩

/-- An operation that is reported gets a verdict on its own result. -/
theorem report_isVerdict {code : ℤ} {desc : String} {done : Handler σ Bool} {w w' : World σ}
    {item : Value} {granted : Prop} (nonzero : code ≠ 0)
    (run : (report code desc done).run w = .ok (item, w'))
    (means : ∀ flag w₁, done.run w = .ok (flag, w₁) → (granted ↔ flag = true)) :
    item.IsVerdict granted := by
  obtain ⟨flag, w₁, did, rest⟩ := run_bind_ok run
  cases flag with
  | true =>
    cases rest
    exact successItem_isVerdict ((means _ _ did).mpr rfl)
  | false =>
    cases rest
    refine failureItem_isVerdict (fun granted => ?_) nonzero
    exact Bool.false_ne_true ((means _ _ did).mp granted)

end Replies

section Verdict

variable {σ : Type} (mysql : Mysql σ)

/-- The text is an object that names an operation, and the operation, called on the object's own
two arguments and a connection of its own, returns true. -/
def Granted (parsed : Option Value) (w : World σ) : Prop :=
  ∃ members l p db w₁ w₂, parsed = some (.object members) ∧ (openDB mysql).run w = .ok (db, w₁) ∧
    ((Value.object members).Names "register" ∧
        (Value.object members).Arguments "PhoneNO" "Pwd" l p ∧
        (db.userRegisterFunc mysql l p).run w₁ = .ok (true, w₂) ∨
      (Value.object members).Names "login" ∧
        (Value.object members).Arguments "User_login" "User_pass" l p ∧
        (db.userLoginFunc mysql l p).run w₁ = .ok (true, w₂))

variable {mysql} {parsed : Option Value} {w : World σ}

theorem granted_iff : Granted mysql parsed w ↔
    ∃ l p db w₁ w₂, (openDB mysql).run w = .ok (db, w₁) ∧
      (meaning parsed = .operation (.register l p) ∧
          (db.userRegisterFunc mysql l p).run w₁ = .ok (true, w₂) ∨
        meaning parsed = .operation (.login l p) ∧
          (db.userLoginFunc mysql l p).run w₁ = .ok (true, w₂)) := by
  constructor
  · rintro ⟨members, l, p, db, w₁, w₂, rfl, opened, ⟨names, args, did⟩ | ⟨names, args, did⟩⟩
    · exact ⟨l, p, db, w₁, w₂, opened, .inl ⟨meaning_register_iff.mpr ⟨_, rfl, names, args⟩, did⟩⟩
    · exact ⟨l, p, db, w₁, w₂, opened, .inr ⟨meaning_login_iff.mpr ⟨_, rfl, names, args⟩, did⟩⟩
  · rintro ⟨l, p, db, w₁, w₂, opened, ⟨means, did⟩ | ⟨means, did⟩⟩
    · obtain ⟨value, rfl, names, args⟩ := meaning_register_iff.mp means
      obtain ⟨members, rfl, -⟩ := names_not_null (by decide) names
      exact ⟨members, l, p, db, w₁, w₂, rfl, opened, .inl ⟨names, args, did⟩⟩
    · obtain ⟨value, rfl, names, args⟩ := meaning_login_iff.mp means
      obtain ⟨members, rfl, -⟩ := names_not_null (by decide) names
      exact ⟨members, l, p, db, w₁, w₂, rfl, opened, .inr ⟨names, args, did⟩⟩

/-- Nothing is granted on a meaning that is no operation. -/
theorem not_granted (none : ∀ l p, meaning parsed ≠ .operation (.register l p) ∧
    meaning parsed ≠ .operation (.login l p)) : ¬ Granted mysql parsed w := by
  rw [granted_iff]
  rintro ⟨l, p, -, -, -, -, ⟨means, -⟩ | ⟨means, -⟩⟩
  · exact (none l p).1 means
  · exact (none l p).2 means

section Operation

variable {l p : Bytes} {db : CDBManager} {w₁ w₂ : World σ} {flag : Bool}

/-- A registration is granted exactly if its own call returned true. -/
theorem granted_register (means : meaning parsed = .operation (.register l p))
    (opened : (openDB mysql).run w = .ok (db, w₁))
    (did : (db.userRegisterFunc mysql l p).run w₁ = .ok (flag, w₂)) :
    Granted mysql parsed w ↔ flag = true := by
  rw [granted_iff]
  constructor
  · rintro ⟨l', p', db', w₁', w₂', opened', ⟨means', did'⟩ | ⟨means', -⟩⟩
    · cases opened.symm.trans opened'
      cases means.symm.trans means'
      cases did.symm.trans did'
      rfl
    · cases means.symm.trans means'
  · rintro rfl
    exact ⟨l, p, db, w₁, w₂, opened, .inl ⟨means, did⟩⟩

theorem granted_login (means : meaning parsed = .operation (.login l p))
    (opened : (openDB mysql).run w = .ok (db, w₁))
    (did : (db.userLoginFunc mysql l p).run w₁ = .ok (flag, w₂)) :
    Granted mysql parsed w ↔ flag = true := by
  rw [granted_iff]
  constructor
  · rintro ⟨l', p', db', w₁', w₂', opened', ⟨means', -⟩ | ⟨means', did'⟩⟩
    · cases means.symm.trans means'
    · cases opened.symm.trans opened'
      cases means.symm.trans means'
      cases did.symm.trans did'
      rfl
  · rintro rfl
    exact ⟨l, p, db, w₁, w₂, opened, .inr ⟨means, did⟩⟩

end Operation

/-- Every reply but that to an unknown function name is a verdict. -/
theorem serve_isVerdict {item : Value} {w' : World σ}
    (run : (serve mysql (meaning parsed)).run w = .ok (item, w')) :
    item.IsVerdict (Granted mysql parsed w) ∨
      meaning parsed = .operation .unknown ∧ item = .null := by
  cases means : meaning parsed with
  | malformed =>
    rw [means] at run
    cases run
    exact .inl (failureItem_isVerdict (not_granted (by simp [means])) (by omega))
  | unindexable =>
    rw [means] at run
    cases run
  | operation operation =>
    rw [means] at run
    obtain ⟨db, w₁, w₂, opened, performed⟩ := serve_operation_ok run
    cases operation with
    | register l p =>
      exact .inl (report_isVerdict (by omega) performed fun flag w₃ =>
        granted_register means opened)
    | login l p =>
      exact .inl (report_isVerdict (by omega) performed fun flag w₃ =>
        granted_login means opened)
    | unknown =>
      cases performed
      exact .inr ⟨rfl, rfl⟩
    | unreadable fault => cases performed

end Verdict

section Known

variable {σ : Type} {mysql : Mysql σ} {parsed : Option Value} {w w' : World σ} {item : Value}

/-- A text that is answered has an unknown function name exactly if its name is neither null nor
one of the two that the server knows. -/
theorem known_iff (run : (serve mysql (meaning parsed)).run w = .ok (item, w')) :
    (∀ value, parsed = some value → (value.member (text "FunctionName")).isNull ∨
        value.Names "register" ∨ value.Names "login") ↔
      meaning parsed ≠ .operation .unknown := by
  constructor
  · intro known means
    obtain ⟨value, rfl, -, notNull, unknown⟩ := meaning_operation_iff.mp means
    obtain ⟨s, name, notRegister, notLogin⟩ := named_unknown_iff.mp unknown
    rcases known value rfl with null | register | login
    · exact notNull null
    · exact notRegister (Except.ok.inj (name.symm.trans register))
    · exact notLogin (Except.ok.inj (name.symm.trans login))
  · rintro known value rfl
    by_cases null : (value.member (text "FunctionName")).isNull
    · exact .inl null
    · refine .inr ?_
      cases means : meaning (some value) with
      | malformed =>
        simp only [meaning, if_neg null] at means
        split at means <;> cases means
      | unindexable =>
        rw [means] at run
        cases run
      | operation operation =>
        cases operation with
        | register l p =>
          obtain ⟨_, ⟨⟩, names, -⟩ := meaning_register_iff.mp means
          exact .inl names
        | login l p =>
          obtain ⟨_, ⟨⟩, names, -⟩ := meaning_login_iff.mp means
          exact .inr names
        | unknown => exact absurd means known
        | unreadable fault =>
          rw [means] at run
          obtain ⟨db, w₁, w₂, -, performed⟩ := serve_operation_ok run
          cases performed

end Known

/-- A callback that runs to its end adds exactly one reply, and that reply is a verdict on the
request, if and only if `evbuffer_add` succeeds and the text has no function name but
`register` and `login`. -/
theorem verdict_iff {σ : Type} {mysql : Mysql σ} {jsoncpp : Jsoncpp} {added : Bool}
    {input sdata : Bytes} {w w' : World σ} (received : receive input = .ok sdata)
    (handled : (bufferedOnRead mysql jsoncpp added input).run w = .ok ((), w')) :
    (∃ item : Value, w'.replies = w.replies ++ [item.write jsoncpp.doubleToString] ∧
        item.IsVerdict (Granted mysql (jsoncpp.parse sdata) w)) ↔
      added = true ∧
        ∀ value, jsoncpp.parse sdata = some value → (value.member (text "FunctionName")).isNull ∨
          value.Names "register" ∨ value.Names "login" := by
  rw [bufferedOnRead_eq received] at handled
  obtain ⟨item, w₁, served, adds⟩ := run_bind_ok handled
  have replies : w'.replies = w.replies ++ queued added (item.write jsoncpp.doubleToString) := by
    cases adds
    rw [← serve_silent _ w item w₁ served]
  rw [known_iff served]
  constructor
  · rintro ⟨item', replies', members, -, rfl, -⟩
    have same := List.append_cancel_left (replies'.symm.trans replies)
    cases added with
    | false => cases same
    | true =>
      refine ⟨rfl, fun unknown => ?_⟩
      rw [unknown] at served
      obtain ⟨db, w₂, w₃, -, performed⟩ := serve_operation_ok served
      cases performed
      exact write_object_ne_null (List.cons.inj same).1
  · rintro ⟨rfl, known⟩
    exact ⟨item, replies, (serve_isVerdict served).resolve_right fun h => known h.1⟩

open Json

theorem verdict_login :
    ∃ w', (bufferedOnRead (Mysql.fixed working) withoutReals true
          (text "\x7b\"FunctionName\":\"login\"\x7d")).run ⟨(), [], []⟩ = .ok ((), w') ∧
      ∃ item : Value, w'.replies = [] ++ [item.write withoutReals.doubleToString] ∧
        item.IsVerdict (Granted (Mysql.fixed working)
          (withoutReals.parse (text "\x7b\"FunctionName\":\"login\"\x7d")) ⟨(), [], []⟩) := by
  have received : receive (text "\x7b\"FunctionName\":\"login\"\x7d") =
      .ok (text "\x7b\"FunctionName\":\"login\"\x7d") := by decide +kernel
  have handled : ∃ w', (bufferedOnRead (Mysql.fixed working) withoutReals true
      (text "\x7b\"FunctionName\":\"login\"\x7d")).run ⟨(), [], []⟩ = .ok ((), w') := by
    rw [bufferedOnRead_eq received, login_parsed]
    exact ⟨_, rfl⟩
  obtain ⟨w', run⟩ := handled
  refine ⟨w', run, (verdict_iff received run).mpr ⟨rfl, fun value parsed => .inr (.inr ?_)⟩⟩
  cases login_parsed.symm.trans parsed
  rw [Value.Names, Value.member_head]
  rfl

/-- A function name that the server does not know is answered with `null`, which is no verdict. -/
theorem unknown_function_null :
    ∃ w', (bufferedOnRead (Mysql.fixed working) withoutReals true
        (text "\x7b\"FunctionName\":\"passwd\"\x7d")).run ⟨(), [], []⟩ = .ok ((), w') ∧
      w'.replies = [text "null\n"] ∧
      ¬ ∃ (item : Value) (granted : Prop),
        w'.replies = [item.write withoutReals.doubleToString] ∧ item.IsVerdict granted := by
  have received : receive (text "\x7b\"FunctionName\":\"passwd\"\x7d") =
      .ok (text "\x7b\"FunctionName\":\"passwd\"\x7d") := by decide +kernel
  have unknown : meaning (withoutReals.parse (text "\x7b\"FunctionName\":\"passwd\"\x7d")) =
      .operation .unknown := by decide +kernel
  rw [bufferedOnRead_eq received, unknown]
  refine ⟨_, rfl, rfl, ?_⟩
  rintro ⟨item, granted, replies, members, -, rfl, -⟩
  exact write_object_ne_null (List.cons.inj replies).1.symm

end JiaTuanServer.Request

import JiaTuanServer.Request.Handler

/-!
# What a chunk asks for

The handler decides in several places what it does with a chunk: when it looks for the function
name, when it compares it, and when it reads the two arguments. `Meaning` is the outcome of these
decisions taken together, and `serve` what follows from them. `respond_eq` says that the handler
does just this, so that everything after it argues about meanings only.
-/

namespace JiaTuanServer.Request

open LocalTriple

/-- What a chunk with a function name asks the database for. -/
inductive Operation where
  | register (userLogin userPass : Bytes)
  | login (userLogin userPass : Bytes)
  /-- A function name that the server does not know. -/
  | unknown
  /-- The function name or an argument has no conversion to a string. -/
  | unreadable (fault : Fault)
  deriving DecidableEq, Repr

/-- What a chunk asks for. -/
inductive Meaning where
  /-- No text of a request, or no function name. -/
  | malformed
  /-- The root is neither null nor an object. -/
  | unindexable
  | operation (operation : Operation)
  deriving DecidableEq, Repr

/-- The two arguments of an operation, or the first conversion that fails. -/
def arguments (first second : String) (make : Bytes → Bytes → Operation) (value : Value) :
    Operation :=
  match (value.member (text first)).asString, (value.member (text second)).asString with
  | .ok userLogin, .ok userPass => make userLogin userPass
  | .error fault, _ => .unreadable fault
  | .ok _, .error fault => .unreadable fault

/-- The operation of a value whose function name is not null. -/
def named (value : Value) : Operation :=
  match (value.member (text "FunctionName")).asString with
  | .error fault => .unreadable fault
  | .ok sFunctionName =>
    if sFunctionName = text "register" then arguments "PhoneNO" "Pwd" .register value
    else if sFunctionName = text "login" then arguments "User_login" "User_pass" .login value
    else .unknown

/-- The meaning of what the parser yields. -/
def meaning : Option Value → Meaning
  | none => .malformed
  | some value =>
    if value.isNullOrObject then
      if (value.member (text "FunctionName")).isNull then .malformed else .operation (named value)
    else .unindexable

/-- The function name, read as a string, is `name`. -/
def Value.Names (value : Value) (name : String) : Prop :=
  (value.member (text "FunctionName")).asString = .ok (text name)

/-- The two arguments of an operation, read as strings. -/
def Value.Arguments (value : Value) (first second : String) (userLogin userPass : Bytes) : Prop :=
  (value.member (text first)).asString = .ok userLogin ∧
    (value.member (text second)).asString = .ok userPass

/-! ## What has which meaning -/

section Cases

variable {parsed : Option Value} {value : Value} {userLogin userPass : Bytes}

theorem arguments_eq_iff {first second : String} {make : Bytes → Bytes → Operation}
    {operation : Operation} (readable : ∀ fault, operation ≠ .unreadable fault) :
    arguments first second make value = operation ↔
      ∃ l p, value.Arguments first second l p ∧ make l p = operation := by
  unfold arguments Value.Arguments
  cases (value.member (text first)).asString with
  | error fault => simpa using (readable fault).symm
  | ok l =>
    cases (value.member (text second)).asString with
    | error fault => simpa using (readable fault).symm
    | ok p => simp

theorem names_not_null {name : String} (nonempty : text name ≠ []) (names : value.Names name) :
    ∃ members, value = .object members ∧ ¬ (value.member (text "FunctionName")).isNull := by
  have notNull : ¬ (value.member (text "FunctionName")).isNull := by
    intro null
    rw [Value.Names, Value.isNull_iff.mp null] at names
    exact nonempty (Except.ok.inj names).symm
  cases value with
  | object members => exact ⟨members, rfl, notNull⟩
  | _ => exact absurd rfl notNull

theorem meaning_operation_iff {operation : Operation} :
    meaning parsed = .operation operation ↔ ∃ value, parsed = some value ∧ value.isNullOrObject ∧
      ¬ (value.member (text "FunctionName")).isNull ∧ named value = operation := by
  cases parsed with
  | none => simp [meaning]
  | some value =>
    simp only [meaning, Option.some.injEq, exists_eq_left']
    split
    next indexable =>
      split
      next null => simp [null]
      next null => simp [indexable, null]
    next indexable => simp [indexable]

theorem named_register_iff : named value = .register userLogin userPass ↔
    value.Names "register" ∧ value.Arguments "PhoneNO" "Pwd" userLogin userPass := by
  unfold named Value.Names
  cases (value.member (text "FunctionName")).asString with
  | error fault => simp
  | ok sFunctionName =>
    simp only [Except.ok.injEq]
    split
    next register => rw [arguments_eq_iff (by simp)]; simp [register]
    next register =>
      simp only [register, false_and, iff_false]
      split
      · rw [arguments_eq_iff (by simp)]; simp
      · simp

theorem named_login_iff : named value = .login userLogin userPass ↔
    value.Names "login" ∧ value.Arguments "User_login" "User_pass" userLogin userPass := by
  have ne : text "register" ≠ text "login" := by decide
  unfold named Value.Names
  cases (value.member (text "FunctionName")).asString with
  | error fault => simp
  | ok sFunctionName =>
    simp only [Except.ok.injEq]
    split
    next register => rw [arguments_eq_iff (by simp)]; simp [register, ne]
    next register =>
      split
      next login => rw [arguments_eq_iff (by simp)]; simp [login]
      next login => simp [login]

theorem named_unknown_iff : named value = .unknown ↔
    ∃ s, (value.member (text "FunctionName")).asString = .ok s ∧ s ≠ text "register" ∧
      s ≠ text "login" := by
  unfold named
  cases (value.member (text "FunctionName")).asString with
  | error fault => simp
  | ok sFunctionName =>
    simp only [Except.ok.injEq, exists_eq_left']
    split
    next register => rw [arguments_eq_iff (by simp)]; simp [register]
    next register =>
      split
      next login => rw [arguments_eq_iff (by simp)]; simp [login]
      next login => simp [register, login]

theorem meaning_register_iff : meaning parsed = .operation (.register userLogin userPass) ↔
    ∃ value, parsed = some value ∧ value.Names "register" ∧
      value.Arguments "PhoneNO" "Pwd" userLogin userPass := by
  rw [meaning_operation_iff]
  refine exists_congr fun value => and_congr_right fun _ => ?_
  rw [named_register_iff]
  refine ⟨fun h => h.2.2, fun h => ?_⟩
  obtain ⟨members, rfl, notNull⟩ := names_not_null (by decide) h.1
  exact ⟨rfl, notNull, h⟩

theorem meaning_login_iff : meaning parsed = .operation (.login userLogin userPass) ↔
    ∃ value, parsed = some value ∧ value.Names "login" ∧
      value.Arguments "User_login" "User_pass" userLogin userPass := by
  rw [meaning_operation_iff]
  refine exists_congr fun value => and_congr_right fun _ => ?_
  rw [named_login_iff]
  refine ⟨fun h => h.2.2, fun h => ?_⟩
  obtain ⟨members, rfl, notNull⟩ := names_not_null (by decide) h.1
  exact ⟨rfl, notNull, h⟩

end Cases

/-- `return_item` with the error code 0. -/
def successItem : Value := .object [(text "error_code", .int 0)]

def failureItem (code : ℤ) (desc : String) : Value :=
  .object [(text "error_code", .int code), (text "error_desc", .string (text desc))]

section Serve

variable {σ : Type} (mysql : Mysql σ)

/-- The reply to an operation that returns a success flag. -/
def report (code : ℤ) (desc : String) (done : Handler σ Bool) : Handler σ Value := do
  if ← done then pure successItem else pure (failureItem code desc)

/-- What an operation does on an open connection. -/
def perform (db : CDBManager) : Operation → Handler σ Value
  | .register userLogin userPass =>
    report (-111) "register failed,maybe user_login duplicate."
      (db.userRegisterFunc mysql userLogin userPass)
  | .login userLogin userPass =>
    report (-121) "login failed,maybe the account or password mistake."
      (db.userLoginFunc mysql userLogin userPass)
  | .unknown => pure .null
  | .unreadable fault => throw fault

/-- What the server does for a meaning, and the reply it sends. -/
def serve : Meaning → Handler σ Value
  | .malformed => pure (failureItem (-11) "Error:json data parse.")
  | .unindexable => throw .assertion
  | .operation operation => do
    let db ← openDB mysql
    let returnItem ← perform mysql db operation
    db.destruct mysql
    return returnItem

variable {mysql} {value : Value} {db : CDBManager}

theorem success_pure : (liftM success : Handler σ Value) = pure successItem := by
  rw [success_eq]
  rfl

theorem failure_pure (code : ℤ) (desc : String) :
    (liftM (failure code desc) : Handler σ Value) = pure (failureItem code desc) := by
  rw [failure_eq]
  rfl

/-- A branch of the handler calls its operation on the two arguments, and reports the result. -/
theorem attempt_eq {first second : String} {operation : Bytes → Bytes → Handler σ Bool} {code : ℤ}
    {desc : String} (make : Bytes → Bytes → Operation)
    (makes : ∀ userLogin userPass, perform mysql db (make userLogin userPass) =
      report code desc (operation userLogin userPass)) (indexable : value.isNullOrObject) :
    attempt first second operation code desc value =
      perform mysql db (arguments first second make value) := by
  obtain ⟨value₁, index₁, indexable₁, same₁⟩ := Value.resolveReference_ok (text first) indexable
  obtain ⟨value₂, index₂, -, -⟩ := Value.resolveReference_ok (text second) indexable₁
  simp only [attempt, arguments, index₁, index₂, same₁, lift_ok_bind]
  cases read₁ : (value.member (text first)).asString with
  | error fault => simp only [lift_error_bind, perform]
  | ok userLogin =>
    cases read₂ : (value.member (text second)).asString with
    | error fault => simp only [lift_ok_bind, lift_error_bind, perform]
    | ok userPass => simp only [lift_ok_bind, makes, report, success_pure, failure_pure]

/-- The operation depends on the members only. -/
theorem named_congr {value' : Value} (same : ∀ key, value'.member key = value.member key) :
    named value' = named value := by
  simp only [named, arguments, same]

/-- With a function name, the handler does what the operation says. -/
theorem dispatch_eq (indexable : value.isNullOrObject) :
    dispatch mysql value = serve mysql (.operation (named value)) := by
  obtain ⟨value₁, index₁, indexable₁, same₁⟩ :=
    Value.resolveReference_ok (text "FunctionName") indexable
  have onMembers (first second : String) (make : Bytes → Bytes → Operation) :
      arguments first second make value₁ = arguments first second make value := by
    simp only [arguments, same₁]
  unfold dispatch serve
  congr 1
  funext db
  simp only [index₁, lift_ok_bind, named]
  cases readName : (value.member (text "FunctionName")).asString with
  | error fault => rfl
  | ok sFunctionName =>
    simp only [lift_ok_bind]
    split
    · rw [register, attempt_eq .register (fun _ _ => rfl) indexable₁, onMembers]
    · split
      · rw [login, attempt_eq .login (fun _ _ => rfl) indexable₁, onMembers]
      · rfl

theorem respond_eq (parsed : Option Value) :
    respond mysql parsed = serve mysql (meaning parsed) := by
  cases parsed with
  | none => exact failure_pure _ _
  | some value =>
    by_cases indexable : value.isNullOrObject
    · obtain ⟨value₁, index₁, indexable₁, same₁⟩ :=
        Value.resolveReference_ok (text "FunctionName") indexable
      simp only [respond, meaning, index₁, lift_ok_bind, if_pos indexable]
      by_cases noName : (value.member (text "FunctionName")).isNull
      · rw [if_pos noName, if_pos noName]
        exact failure_pure _ _
      · rw [if_neg noName, if_neg noName, dispatch_eq indexable₁, named_congr same₁]
    · simp only [respond, meaning, Value.resolveReference_error _ indexable, lift_error_bind,
        if_neg indexable, serve]

end Serve

end JiaTuanServer.Request

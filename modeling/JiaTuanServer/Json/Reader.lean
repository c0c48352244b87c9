import JiaTuanServer.Json.Decode
import JiaTuanServer.Json.TokenText

/-!
# `Json::Reader::parse`

The recursive descent of the parser. A call returns the value it read, `none` when it returns false,
and the state of the `Reader`. The recursion and the loops of `readObject` and `readArray` run with
fuel; the outer `none` is a run that has not ended.

The features are those of `Features::all`, with which the server constructs its `Reader`: comments
are allowed and any value may be the root. The comments themselves are stored beside the values,
where no code of the server looks, and are left out; so is what a failed `parse` leaves in the root.
-/

namespace JiaTuanServer.Json

open Request

/-- A run of the parser: it may not have ended, or end in a fault. -/
abbrev Run (α : Type) := OptionT (Except Fault) α

/-- The members of a `Reader` that change while it parses. -/
structure State where
  /-- `current_` -/
  current : Location
  /-- `errors_` -/
  errors : List ErrorInfo
  deriving DecidableEq, Repr

namespace State

def addError (s : State) (e : ErrorInfo) : State := { s with errors := s.errors ++ [e] }

def moveTo (s : State) (current : Location) : State := { s with current := current }

@[simp] theorem addError_current (s : State) (e : ErrorInfo) :
    (s.addError e).current = s.current := rfl

@[simp] theorem addError_errors (s : State) (e : ErrorInfo) :
    (s.addError e).errors = s.errors ++ [e] := rfl

@[simp] theorem moveTo_current (s : State) (l : Location) : (s.moveTo l).current = l := rfl

end State

/-- Reads on as long as the token is a comment. -/
def skipComments (token : Token) (current : Location) : Except Fault (Token × Location) :=
  if token.type = .comment then
    match result : readToken current with
    | .error fault => throw fault
    | .ok (token', rest) =>
      have := (readToken_read result).length_le
      have := (readToken_read result).length_lt
      skipComments token' rest
  else pure (token, current)
termination_by current.length + if token.type = .comment then 1 else 0
decreasing_by grind

def skipCommentTokens (current : Location) : Except Fault (Token × Location) := do
  let (token, current) ← readToken current
  skipComments token current

/-- The loop of `recoverFromError`. -/
def recoverLoop (skipUntilToken : TokenType) (current : Location) : Except Fault Location :=
  match result : readToken current with
  | .error fault => throw fault
  | .ok (skip, rest) =>
    have := (readToken_read result).length_lt
    if skip.type = skipUntilToken ∨ skip.type = .endOfStream then pure rest
    else recoverLoop skipUntilToken rest
termination_by current.length
decreasing_by grind

/-- `recoverFromError`, which returns false. `readToken` pushes no error, so that the errors are
resized to what they are. -/
def recoverFromError (skipUntilToken : TokenType) (s : State) :
    Except Fault (Option Value × State) := do
  let current ← recoverLoop skipUntilToken s.current
  pure (none, s.moveTo current)

def addErrorAndRecover (message : String) (token : Token) (skipUntilToken : TokenType)
    (s : State) : Except Fault (Option Value × State) :=
  recoverFromError skipUntilToken (s.addError ⟨token, text message, none⟩)

/-- `currentValue()[name] = value` on the members of an object, with the name up to a zero byte. -/
def setMember (name : Bytes) (value : Value) (members : List (Bytes × Value)) :
    List (Bytes × Value) :=
  (Value.resolveMember (cString name) members).2.map fun m =>
    if m.1 = cString name then (cString name, value) else m

section Values

-- The reader of the nested values.
variable (readValue : State → Run (Option Value × State))

/-- The loop of `readObject` from behind the name of a member on; `next` is its next turn. -/
def readMember (next : List (Bytes × Value) → State → Run (Option Value × State)) (name : Bytes)
    (members : List (Bytes × Value)) (s : State) : Run (Option Value × State) := do
  let (colon, current) ← readToken s.current
  let s := s.moveTo current
  if colon.type ≠ .memberSeparator then
    return ← addErrorAndRecover "Missing ':' after object member name" colon .objectEnd s
  let (value, s) ← readValue s
  match value with
  | none => return ← recoverFromError .objectEnd s
  | some value =>
    let (comma, current) ← readToken s.current
    if comma.type ≠ .objectEnd ∧ comma.type ≠ .arraySeparator ∧ comma.type ≠ .comment then
      return ← addErrorAndRecover "Missing ',' or '\x7d' in object declaration" comma .objectEnd
        (s.moveTo current)
    let (comma, current) ← skipComments comma current
    let s := s.moveTo current
    let members := setMember name value members
    if comma.type = .objectEnd then return (some (.object members), s)
    next members s

/-- The loop of `readObject`, from before its test; `name` is the name read last. -/
def objectLoop : ℕ → Bytes → List (Bytes × Value) → State → Run (Option Value × State)
  | 0, _, _, _ => failure
  | fuel + 1, name, members, s => do
    let (tokenName, current) ← readToken s.current
    let (tokenName, current) ← skipComments tokenName current
    let s := s.moveTo current
    if tokenName.type = .objectEnd ∧ name = [] then return (some (.object members), s)
    if tokenName.type ≠ .string then
      return ← addErrorAndRecover "Missing '\x7d' or object member name" tokenName .objectEnd s
    match ← decodeString tokenName with
    | .error e => return ← recoverFromError .objectEnd (s.addError e)
    | .ok name => readMember readValue (objectLoop fuel name) name members s

def readObject (fuel : ℕ) (s : State) : Run (Option Value × State) :=
  objectLoop readValue fuel [] [] s

/-- The loop of `readArray`, with the values read so far. -/
def arrayLoop : ℕ → List Value → State → Run (Option Value × State)
  | 0, _, _ => failure
  | fuel + 1, values, s => do
    let (value, s) ← readValue s
    match value with
    | none => return ← recoverFromError .arrayEnd s
    | some value =>
      let (token, current) ← readToken s.current
      let (token, current) ← skipComments token current
      let s := s.moveTo current
      let badTokenType := token.type = .arraySeparator ∧ token.type = .arrayEnd
      if badTokenType then
        return ← addErrorAndRecover "Missing ',' or ']' in array declaration" token .arrayEnd s
      if token.type = .arrayEnd then return (some (.array (values ++ [value])), s)
      arrayLoop fuel (values ++ [value]) s

def readArray (fuel : ℕ) (s : State) : Run (Option Value × State) := do
  let current ← skipSpaces s.current
  if (← deref current) = 0x5D then
    let (_, current) ← readToken current
    return (some (.array []), s.moveTo current)
  arrayLoop readValue fuel [] (s.moveTo current)

end Values

/-- `currentValue() = decoded`: the string is copied up to its first zero byte. -/
def stringValue (decoded : Bytes) : Value := .string (cString decoded)

/-- What a decoder's result means for `readValue`. -/
def finish (s : State) : Except ErrorInfo Value → Option Value × State
  | .error e => (none, s.addError e)
  | .ok value => (some value, s)

-- `sscanf` of the text with `%lf`.
variable (scan : Bytes → Option UInt64)

def readValue : ℕ → State → Run (Option Value × State)
  | 0, _ => failure
  | fuel + 1, s => do
    let (token, current) ← skipCommentTokens s.current
    let s := s.moveTo current
    match token.type with
    | .objectBegin => readObject (readValue fuel) fuel s
    | .arrayBegin => readArray (readValue fuel) fuel s
    | .number => return finish s (← decodeNumber scan token)
    | .string => return finish s ((← decodeString token).map stringValue)
    | .true => return (some (.bool true), s)
    | .false => return (some (.bool false), s)
    | .null => return (some .null, s)
    | _ =>
      return (none,
        s.addError ⟨token, text "Syntax error: value, object or array expected.", none⟩)

/-- `parse(document, root)`: the root, `none` if it returns false, and the errors. -/
def parse (fuel : ℕ) (document : Bytes) : Run (Option Value × List ErrorInfo) := do
  let (value, s) ← readValue scan fuel ⟨document ++ [0], []⟩
  let _ ← skipCommentTokens s.current
  return (value, s.errors)

end JiaTuanServer.Json

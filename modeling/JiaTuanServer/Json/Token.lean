import JiaTuanServer.Request.Json

/-!
# The tokens of `Json::Reader`

A `Location` points into the document. It is given by the bytes from there on, the zero byte that
`c_str()` puts behind the document included: `end_` is the location with that byte only, `++` drops
the first byte, and to read where nothing is left is to read past the array.

`readToken` always returns true; a text that is no token comes out as `tokenError`. Comments are
tokens of their own, which the parser skips where it expects them.
-/

namespace JiaTuanServer.Json

open Request

abbrev Location := Bytes

/-- `*location` -/
def deref : Location → Except Fault UInt8
  | [] => throw .overread
  | c :: _ => pure c

/-- `getNextChar` -/
def getNextChar : Location → Except Fault (UInt8 × Location)
  | [] => throw .overread
  -- current_ == end_
  | [z] => pure (0, [z])
  | c :: current => pure (c, current)

/-- The loops that pass over the bytes of a kind. -/
def skipWhile (p : UInt8 → Bool) : Location → Except Fault Location
  | [] => throw .overread
  | [z] => pure [z]
  | c :: d :: rest => if p c then skipWhile p (d :: rest) else pure (c :: d :: rest)

def isSpace (c : UInt8) : Bool := c = 0x20 || c = 0x09 || c = 0x0D || c = 0x0A

def isDigit (c : UInt8) : Bool := 0x30 ≤ c && c ≤ 0x39

/-- The bytes that `readNumber` takes. -/
def isNumberChar (c : UInt8) : Bool := isDigit c || c ∈ text ".eE+-"

def skipSpaces : Location → Except Fault Location := skipWhile isSpace

def readNumber : Location → Except Fault Location := skipWhile isNumberChar

/-- `match` -/
def matchText (pattern : Bytes) (current : Location) : Bool × Location :=
  if current.length - 1 < pattern.length then (false, current)
  else if current.take pattern.length = pattern then (true, current.drop pattern.length)
  else (false, current)

/-- The loop of `readString`, from before its test; `c` is the character read last. -/
def readStringLoop (c : UInt8) : Location → Except Fault (Bool × Location)
  | [] => throw .overread
  | [z] => pure (c = 0x22, [z])
  -- the backslash is the last character, and `getNextChar` stays where it is
  | [c', z] => if c' = 0x22 then pure (true, [z]) else readStringLoop c' [z]
  | c' :: d :: e :: rest =>
    if c' = 0x5C then readStringLoop c' (e :: rest)
    else if c' = 0x22 then pure (true, d :: e :: rest)
    else readStringLoop c' (d :: e :: rest)

def readString : Location → Except Fault (Bool × Location) := readStringLoop 0

def readCStyleComment : Location → Except Fault (Bool × Location)
  | [] => throw .overread
  | [z] => do
    let (c, current) ← getNextChar [z]
    pure (c = 0x2F, current)
  | c :: d :: rest =>
    if c = 0x2A ∧ d = 0x2F then do
      let (c, current) ← getNextChar (d :: rest)
      pure (c = 0x2F, current)
    else readCStyleComment (d :: rest)

def readCppStyleComment : Location → Except Fault (Bool × Location)
  | [] => throw .overread
  | [z] => pure (true, [z])
  | c :: d :: rest =>
    if c = 0x0D ∨ c = 0x0A then pure (true, d :: rest) else readCppStyleComment (d :: rest)

def readComment (current : Location) : Except Fault (Bool × Location) := do
  let (c, current) ← getNextChar current
  if c = 0x2A then readCStyleComment current
  else if c = 0x2F then readCppStyleComment current
  else pure (false, current)

inductive TokenType where
  | endOfStream
  | objectBegin
  | objectEnd
  | arrayBegin
  | arrayEnd
  | string
  | number
  | true
  | false
  | null
  | arraySeparator
  | memberSeparator
  | comment
  | error
  deriving DecidableEq, Repr

structure Token where
  type : TokenType
  /-- `start_` -/
  start : Location
  /-- `end_` -/
  stop : Location
  deriving DecidableEq, Repr

/-- The characters from `start_` up to `end_`. -/
def Token.text (token : Token) : Bytes := token.start.take (token.start.length - token.stop.length)

/-- The switch of `readToken` on the character `c`: the type, `ok`, and `current_`. -/
def scanToken (c : UInt8) (current : Location) : Except Fault (TokenType × Bool × Location) :=
  match c with
  | 0x7B => pure (.objectBegin, true, current)
  | 0x7D => pure (.objectEnd, true, current)
  | 0x5B => pure (.arrayBegin, true, current)
  | 0x5D => pure (.arrayEnd, true, current)
  | 0x22 => do
    let (ok, current) ← readString current
    pure (.string, ok, current)
  | 0x2F => do
    let (ok, current) ← readComment current
    pure (.comment, ok, current)
  | 0x74 =>
    let (ok, current) := matchText (text "rue") current
    pure (.true, ok, current)
  | 0x66 =>
    let (ok, current) := matchText (text "alse") current
    pure (.false, ok, current)
  | 0x6E =>
    let (ok, current) := matchText (text "ull") current
    pure (.null, ok, current)
  | 0x2C => pure (.arraySeparator, true, current)
  | 0x3A => pure (.memberSeparator, true, current)
  | 0 => pure (.endOfStream, true, current)
  | c =>
    if isDigit c || c = 0x2D then do
      let current ← readNumber current
      pure (.number, true, current)
    else pure (.error, false, current)

def readToken (current : Location) : Except Fault (Token × Location) := do
  let start ← skipSpaces current
  let (c, current) ← getNextChar start
  let (type, ok, current) ← scanToken c current
  pure (⟨if ok then type else .error, start, current⟩, current)

end JiaTuanServer.Json

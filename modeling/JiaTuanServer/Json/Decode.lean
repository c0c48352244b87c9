import JiaTuanServer.Json.Token

/-!
# Numbers and strings

`decodeNumber` and `decodeString` read a token again to form its value. They fail with an
`ErrorInfo`, which the code pushes onto `errors_` before it returns false.

`sscanf` with `%lf` is a parameter. A number that is not read digit by digit is first copied into
`buffer[32]`, whose terminator falls behind the array when the token has 32 characters.
-/

namespace JiaTuanServer.Json

open Request

/-- `Reader::ErrorInfo` -/
structure ErrorInfo where
  token : Token
  message : Bytes
  extra : Option Location
  deriving DecidableEq, Repr

/-! ## Numbers -/

/-- `decodeDouble`'s `bufferSize` -/
def bufferSize : ℕ := 32

def notANumber (token : Token) : ErrorInfo where
  token := token
  message := text "'" ++ token.text ++ text "' is not a number."
  extra := none

-- `sscanf` of the text with `%lf`: the bits of the double, if one conversion was made.
variable (scan : Bytes → Option UInt64)

def decodeDouble (token : Token) : Except Fault (Except ErrorInfo Value) :=
  let length := token.text.length
  -- buffer[length] = 0
  if length ≤ bufferSize ∧ ¬ length < bufferSize then throw .overflow
  else
    match scan token.text with
    | none => pure (.error (notANumber token))
    | some value => pure (.ok (.real value))

/-- The first loop of `decodeNumber`: whether the token has a fraction or an exponent. -/
def isDouble (t : Bytes) : Bool := t.any (· ∈ text ".eE+") || 0x2D ∈ t.drop 1

/-- What the second loop of `decodeNumber` comes to. -/
inductive Digits where
  | value (n : ℕ)
  | notANumber
  | tooLarge
  deriving DecidableEq

/-- The second loop of `decodeNumber`. -/
def readDigits (threshold : ℕ) : ℕ → Bytes → Digits
  | value, [] => .value value
  | value, c :: rest =>
    if c < 0x30 ∨ 0x39 < c then .notANumber
    else if threshold ≤ value then .tooLarge
    else readDigits threshold (value * 10 + (c - 0x30).toNat) rest

/-- `Value::maxInt` -/
def maxInt : ℕ := 2147483647

/-- `Value::UInt(-Value::minInt)` -/
def minIntMagnitude : ℕ := 2147483648

/-- `Value::maxUInt` -/
def maxUInt : ℕ := 4294967295

def decodeNumber (token : Token) : Except Fault (Except ErrorInfo Value) :=
  let t := token.text
  if isDouble t then decodeDouble scan token
  else
    let isNegative := t.head? = some 0x2D
    let threshold := (if isNegative then minIntMagnitude else maxUInt) / 10
    match readDigits threshold 0 (if isNegative then t.drop 1 else t) with
    | .notANumber => pure (.error (notANumber token))
    | .tooLarge => decodeDouble scan token
    | .value value =>
      if isNegative then pure (.ok (.int (-value)))
      else if value ≤ maxInt then pure (.ok (.int value))
      else pure (.ok (.uint value))

/-! ## Strings -/

/-- `codePointToUTF8` -/
def codePointToUTF8 (cp : ℕ) : Bytes :=
  if cp ≤ 0x7F then [UInt8.ofNat cp]
  else if cp ≤ 0x7FF then
    [UInt8.ofNat (0xC0 ||| (0x1F &&& cp >>> 6)), UInt8.ofNat (0x80 ||| (0x3F &&& cp))]
  else if cp ≤ 0xFFFF then
    [UInt8.ofNat (0xE0 ||| (0xF &&& cp >>> 12)), UInt8.ofNat (0x80 ||| (0x3F &&& cp >>> 6)),
      UInt8.ofNat (0x80 ||| (0x3F &&& cp))]
  else if cp ≤ 0x10FFFF then
    [UInt8.ofNat (0xF0 ||| (0x7 &&& cp >>> 18)), UInt8.ofNat (0x80 ||| (0x3F &&& cp >>> 12)),
      UInt8.ofNat (0x80 ||| (0x3F &&& cp >>> 6)), UInt8.ofNat (0x80 ||| (0x3F &&& cp))]
  else []

/-- Code that decodes: it may fail with an error that it has pushed. -/
abbrev Decoder (α : Type) := ExceptT ErrorInfo (Except Fault) α

/-- `*current++` -/
def next (current : Location) : Except Fault (UInt8 × Location) := do
  let c ← deref current
  pure (c, current.drop 1)

def hexDigitValue (c : UInt8) : Option ℕ :=
  if 0x30 ≤ c ∧ c ≤ 0x39 then some (c - 0x30).toNat
  else if 0x61 ≤ c ∧ c ≤ 0x66 then some ((c - 0x61).toNat + 10)
  else if 0x41 ≤ c ∧ c ≤ 0x46 then some ((c - 0x41).toNat + 10)
  else none

section Escapes

variable (token : Token)

/-- The loop of `decodeUnicodeEscapeSequence`, with the number of digits still to read. -/
def readHexDigits : ℕ → ℕ → Location → Decoder (ℕ × Location)
  | 0, unicode, current => pure (unicode, current)
  | index + 1, unicode, current => do
    let (c, current) ← next current
    match hexDigitValue c with
    | some digit => readHexDigits index (unicode * 16 + digit) current
    | none => throw ⟨token,
      text "Bad unicode escape sequence in string: hexadecimal digit expected.", some current⟩

def decodeUnicodeEscapeSequence (stop current : Location) : Decoder (ℕ × Location) :=
  if current.length - stop.length < 4 then
    throw ⟨token, text "Bad unicode escape sequence in string: four digits expected.", some current⟩
  else readHexDigits token 4 0 current

def secondHalfExpected (current : Location) : ErrorInfo where
  token := token
  message := text <| "expecting another \\u token to begin the second half of a unicode " ++
    "surrogate pair"
  extra := some current

def decodeUnicodeCodePoint (stop current : Location) : Decoder (ℕ × Location) := do
  let (unicode, current) ← decodeUnicodeEscapeSequence token stop current
  if 0xD800 ≤ unicode ∧ unicode ≤ 0xDBFF then
    if current.length - stop.length < 6 then
      throw ⟨token, text "additional six characters expected to parse unicode surrogate pair.",
        some current⟩
    else
      let (c, current) ← next current
      if c ≠ 0x5C then throw (secondHalfExpected token current)
      else
        let (c, current) ← next current
        if c ≠ 0x75 then throw (secondHalfExpected token current)
        else
          let (surrogatePair, current) ← decodeUnicodeEscapeSequence token stop current
          pure (0x10000 + (unicode &&& 0x3FF) <<< 10 + (surrogatePair &&& 0x3FF), current)
  else pure (unicode, current)

end Escapes

/-- The character that a one-letter escape stands for. -/
def simpleEscape : UInt8 → Option UInt8
  | 0x22 => some 0x22
  | 0x2F => some 0x2F
  | 0x5C => some 0x5C
  | 0x62 => some 0x08
  | 0x66 => some 0x0C
  | 0x6E => some 0x0A
  | 0x72 => some 0x0D
  | 0x74 => some 0x09
  | _ => none

/-! The loop of `decodeString` ends because every escape takes characters. -/

/-- A decoder that goes on after another. -/
theorem decoder_bind_ok {α β : Type} {x : Decoder α} {f : α → Decoder β} {b : β}
    (h : (x >>= f).run = .ok (.ok b)) : ∃ a, x.run = .ok (.ok a) ∧ (f a).run = .ok (.ok b) := by
  rw [ExceptT.run_bind] at h
  cases hx : x.run with
  | error fault => simp [hx, bind, Except.bind] at h
  | ok result =>
    cases result with
    | error e => simp [hx, bind, Except.bind, pure, Except.pure] at h
    | ok a => exact ⟨a, rfl, by simpa [hx, bind, Except.bind] using h⟩

theorem decoder_next_ok {α : Type} {current : Location} {f : UInt8 × Location → Decoder α} {a : α}
    (h : (liftM (next current) >>= f : Decoder α).run = .ok (.ok a)) :
    ∃ c rest, current = c :: rest ∧ (f (c, rest)).run = .ok (.ok a) := by
  cases current with
  | nil => cases h
  | cons c rest => exact ⟨c, rest, rfl, h⟩

section Escapes

variable {token : Token} {stop current rest : Location} {unicode cp : ℕ}

theorem readHexDigits_suffix {index : ℕ}
    (h : (readHexDigits token index unicode current).run = .ok (.ok (cp, rest))) :
    rest <:+ current := by
  induction index generalizing unicode current with
  | zero =>
    cases h
    exact List.suffix_rfl
  | succ index ih =>
    rw [readHexDigits] at h
    obtain ⟨c, tail, rfl, after⟩ := decoder_next_ok h
    cases digit : hexDigitValue c with
    | none =>
      simp only [digit] at after
      cases after
    | some d =>
      simp only [digit] at after
      exact (ih after).trans (List.suffix_cons c tail)

theorem decodeUnicodeEscapeSequence_suffix
    (h : (decodeUnicodeEscapeSequence token stop current).run = .ok (.ok (cp, rest))) :
    rest <:+ current := by
  unfold decodeUnicodeEscapeSequence at h
  split at h
  · cases h
  · exact readHexDigits_suffix h

theorem decodeUnicodeCodePoint_suffix
    (h : (decodeUnicodeCodePoint token stop current).run = .ok (.ok (cp, rest))) :
    rest <:+ current := by
  obtain ⟨⟨unicode, behind⟩, first, after⟩ := decoder_bind_ok h
  refine List.IsSuffix.trans ?_ (decodeUnicodeEscapeSequence_suffix first)
  simp only at after
  split at after
  on_goal 2 => cases after; exact List.suffix_rfl
  split at after
  · cases after
  obtain ⟨c, behind, rfl, backslash⟩ := decoder_next_ok after
  split at backslash
  · cases backslash
  obtain ⟨d, behind, rfl, letter⟩ := decoder_next_ok backslash
  split at letter
  · cases letter
  obtain ⟨⟨pair, behind'⟩, second, done⟩ := decoder_bind_ok letter
  cases done
  exact (decodeUnicodeEscapeSequence_suffix second).trans
    ((List.suffix_cons d behind).trans (List.suffix_cons c _))

end Escapes

/-- The loop of `decodeString`, from before its test, up to `stop`. -/
def decodeStringLoop (token : Token) (stop current : Location) (decoded : Bytes) :
    Except Fault (Except ErrorInfo Bytes) :=
  if current.length = stop.length then pure (.ok decoded)
  else
    match current with
    | [] => throw .overread
    | c :: current =>
      if c = 0x22 then pure (.ok decoded)
      else if c = 0x5C then
        if current.length = stop.length then
          pure (.error ⟨token, text "Empty escape sequence in string", some current⟩)
        else
          match current with
          | [] => throw .overread
          | escape :: current =>
            if escape = 0x75 then
              match result : (decodeUnicodeCodePoint token stop current).run with
              | .error fault => throw fault
              | .ok (.error e) => pure (.error e)
              | .ok (.ok (unicode, rest)) =>
                have := (decodeUnicodeCodePoint_suffix result).length_le
                decodeStringLoop token stop rest (decoded ++ codePointToUTF8 unicode)
            else
              match simpleEscape escape with
              | some c => decodeStringLoop token stop current (decoded ++ [c])
              | none => pure (.error ⟨token, text "Bad escape sequence in string", some current⟩)
      else decodeStringLoop token stop current (decoded ++ [c])
termination_by current.length

/-- `decodeString`: the characters between the quotes, without its escapes. -/
def decodeString (token : Token) : Except Fault (Except ErrorInfo Bytes) :=
  -- token.end_ - 1
  let stop := token.start.drop (token.start.length - token.stop.length - 1)
  decodeStringLoop token stop (token.start.drop 1) []

end JiaTuanServer.Json

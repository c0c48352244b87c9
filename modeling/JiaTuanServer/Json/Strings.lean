import Mathlib.Algebra.GroupWithZero.Nat
import Mathlib.Data.Bool.AllAny
import JiaTuanServer.Json.DecodeSafety
import JiaTuanServer.Library.JsonText

/-!
# Reading strings

A string in quotes is one token, and decoding it gives the bytes that it spells. Behind the closing
quote the document goes on, at least with its zero byte.
-/

namespace JiaTuanServer.Json

open Request JsonText

variable {l u : Location} {s t : Bytes}

/-! ## Code points -/

/-- A byte of an encoding: its fixed upper bits, and the lower bits of `x`. -/
theorem upper_or_lower (i a x : ℕ) :
    2 ^ i * a ||| ((2 ^ i - 1) &&& x) = x % 2 ^ i + 2 ^ i * a := by
  rw [Nat.and_comm, Nat.and_two_pow_sub_one_eq_mod,
    ← Nat.two_pow_add_eq_or_of_lt (Nat.mod_lt x (Nat.two_pow_pos i)), Nat.add_comm]

theorem toNat_le (c : Char) : c.toNat ≤ 0x10FFFF := by
  have := c.valid
  unfold UInt32.isValidChar Nat.isValidChar at this
  unfold Char.toNat
  omega

theorem codePointToUTF8_eq (c : Char) : codePointToUTF8 c.toNat = String.utf8EncodeChar c := by
  have lead₂ (x : ℕ) : 0xC0 ||| (0x1F &&& x) = x % 32 + 0xC0 := upper_or_lower 5 6 x
  have lead₃ (x : ℕ) : 0xE0 ||| (0xF &&& x) = x % 16 + 0xE0 := upper_or_lower 4 14 x
  have lead₄ (x : ℕ) : 0xF0 ||| (0x7 &&& x) = x % 8 + 0xF0 := upper_or_lower 3 30 x
  have behind (x : ℕ) : 0x80 ||| (0x3F &&& x) = x % 64 + 0x80 := upper_or_lower 6 2 x
  unfold codePointToUTF8 String.utf8EncodeChar
  simp only [lead₂, lead₃, lead₄, behind, Nat.shiftRight_eq_div_pow, if_pos (toNat_le c)]
  rfl

/-! ## Hexadecimal digits -/

theorem hexDigitValue_eq {v : ℕ} {c : UInt8} (digit : HexDigit v c) :
    hexDigitValue c = some v := by
  have decimal : ∀ v < 10, hexDigitValue (UInt8.ofNat (48 + v)) = some v := by decide
  have upper : ∀ v < 6, hexDigitValue (UInt8.ofNat (65 + v)) = some (10 + v) := by decide
  have lower : ∀ v < 6, hexDigitValue (UInt8.ofNat (97 + v)) = some (10 + v) := by decide
  cases digit with
  | decimal lt => exact decimal _ lt
  | upper lt => exact upper _ lt
  | lower lt => exact lower _ lt

theorem readHexDigits_run {token : Token} {value n : ℕ} (digits : HexDigits value n t) :
    (readHexDigits token t.length value (t ++ l)).run = .ok (.ok (n, l)) := by
  induction digits with
  | nil => rfl
  | cons digit rest ih =>
    rw [List.length_cons, List.cons_append, readHexDigits_digit (hexDigitValue_eq digit)]
    exact ih

variable {token : Token} {stop : Location}

theorem decodeUnicodeEscapeSequence_run {n : ℕ} (four : t.length = 4) (digits : HexDigits 0 n t)
    (room : stop.length ≤ l.length) :
    (decodeUnicodeEscapeSequence token stop (t ++ l)).run = .ok (.ok (n, l)) := by
  have enough : ¬ (t ++ l).length - stop.length < 4 := by
    rw [List.length_append]
    omega
  rw [decodeUnicodeEscapeSequence, if_neg enough, ← four]
  exact readHexDigits_run digits

theorem decodeUnicodeCodePoint_char {c : Char} (digits : HexDigits 0 c.toNat t)
    (four : t.length = 4) (room : stop.length ≤ l.length) :
    (decodeUnicodeCodePoint token stop (t ++ l)).run = .ok (.ok (c.toNat, l)) := by
  have noSurrogate : ¬ (0xD800 ≤ c.toNat ∧ c.toNat ≤ 0xDBFF) := by
    have := c.valid
    unfold Char.toNat
    unfold UInt32.isValidChar Nat.isValidChar at this
    omega
  rw [decodeUnicodeCodePoint, ExceptT.run_bind, decodeUnicodeEscapeSequence_run four digits room]
  change (if 0xD800 ≤ c.toNat ∧ c.toNat ≤ 0xDBFF then _ else _ : Decoder _).run = _
  rw [if_neg noSurrogate]
  rfl

theorem decodeUnicodeCodePoint_surrogates {high low : ℕ} {t t' : Bytes}
    (surrogate : 0xD800 ≤ high ∧ high ≤ 0xDBFF) (first : HexDigits 0 high t)
    (second : HexDigits 0 low t') (four : t.length = 4) (four' : t'.length = 4)
    (room : stop.length ≤ l.length) :
    (decodeUnicodeCodePoint token stop (t ++ (0x5C :: 0x75 :: t' ++ l))).run =
      .ok (.ok (0x10000 + (high &&& 0x3FF) <<< 10 + (low &&& 0x3FF), l)) := by
  have room' : stop.length ≤ (0x5C :: 0x75 :: t' ++ l).length := by
    simp only [List.length_append]
    omega
  have six : ¬ (0x5C :: 0x75 :: t' ++ l).length - stop.length < 6 := by
    simp only [List.length_append, List.length_cons]
    omega
  rw [decodeUnicodeCodePoint, ExceptT.run_bind, decodeUnicodeEscapeSequence_run four first room']
  change (if _ ∧ _ then _ else _ : Decoder _).run = _
  rw [if_pos surrogate, if_neg six]
  change (decodeUnicodeEscapeSequence token stop (t' ++ l) >>= _ : Decoder _).run = _
  rw [ExceptT.run_bind, decodeUnicodeEscapeSequence_run four' second room]
  rfl

/-- The two halves of a surrogate pair joined again. -/
theorem surrogates_joined {cp : ℕ} (above : 0x10000 ≤ cp) (below : cp < 0x110000) :
    0x10000 + ((0xD800 + (cp - 0x10000) / 0x400) &&& 0x3FF) <<< 10 +
      ((0xDC00 + (cp - 0x10000) % 0x400) &&& 0x3FF) = cp := by
  have mask (x : ℕ) : x &&& 0x3FF = x % 1024 := Nat.and_two_pow_sub_one_eq_mod x 10
  rw [mask, mask, Nat.shiftLeft_eq]
  omega

/-! ## The loop of `decodeString` -/

/-- Decoding passes over the text `t`, wherever it stands before `stop`, and yields `s`. -/
def DecodesTo (token : Token) (stop : Location) (t s : Bytes) : Prop :=
  ∀ l decoded, stop.length ≤ l.length →
    decodeStringLoop token stop (t ++ l) decoded = decodeStringLoop token stop l (decoded ++ s)

theorem DecodesTo.append {t' s' : Bytes} (first : DecodesTo token stop t s)
    (second : DecodesTo token stop t' s') : DecodesTo token stop (t ++ t') (s ++ s') := by
  intro l decoded room
  rw [List.append_assoc, first _ _ (by rw [List.length_append]; omega), second _ _ room,
    List.append_assoc]

theorem decodesTo_byte {c : UInt8} (quote : c ≠ 0x22) (backslash : c ≠ 0x5C) :
    DecodesTo token stop [c] [c] := by
  intro l decoded room
  have more : ([c] ++ l).length ≠ stop.length := by
    rw [List.length_append, List.length_singleton]
    omega
  rw [decodeStringLoop.eq_def, if_neg more]
  dsimp only [List.cons_append, List.nil_append]
  rw [if_neg quote, if_neg backslash]

/-- Behind a backslash the escape is read. -/
theorem decodeStringLoop_backslash {letter : UInt8} {decoded : Bytes}
    (room : stop.length ≤ l.length) :
    decodeStringLoop token stop (0x5C :: letter :: l) decoded =
      if letter = 0x75 then
        match (decodeUnicodeCodePoint token stop l).run with
        | .error fault => throw fault
        | .ok (.error e) => pure (.error e)
        | .ok (.ok (unicode, rest)) =>
          decodeStringLoop token stop rest (decoded ++ codePointToUTF8 unicode)
      else
        match simpleEscape letter with
        | some c => decodeStringLoop token stop l (decoded ++ [c])
        | none => pure (.error ⟨token, text "Bad escape sequence in string", some l⟩) := by
  have more : (0x5C :: letter :: l).length ≠ stop.length := by
    simp only [List.length_cons]
    omega
  have more' : (letter :: l).length ≠ stop.length := by
    simp only [List.length_cons]
    omega
  rw [decodeStringLoop.eq_def, if_neg more]
  dsimp only
  rw [if_neg (by decide), if_pos rfl, if_neg more']
  split
  · split <;> simp_all
  · rfl

theorem decodesTo_escape {letter c : UInt8} (escape : (letter, c) ∈ escapes) :
    DecodesTo token stop [0x5C, letter] [c] := by
  have table : ∀ p ∈ escapes, p.1 ≠ 0x75 ∧ simpleEscape p.1 = some p.2 :=
    List.all_iff_forall_prop.mp (by decide)
  obtain ⟨other, known⟩ := table _ escape
  intro l decoded room
  change decodeStringLoop token stop (0x5C :: letter :: l) decoded = _
  rw [decodeStringLoop_backslash room, if_neg other]
  dsimp only at known
  rw [known]

theorem decodesTo_spells (spells : Spells s t) : DecodesTo token stop t s := by
  cases spells with
  | byte _ quote backslash => exact decodesTo_byte quote backslash
  | escape known => exact decodesTo_escape known
  | @unicode c _ unit =>
    obtain ⟨digits, four, hex, rfl⟩ := unit
    intro l decoded room
    have room' : stop.length ≤ (digits ++ l).length := by
      rw [List.length_append]
      omega
    change decodeStringLoop token stop (0x5C :: 0x75 :: (digits ++ l)) decoded = _
    rw [decodeStringLoop_backslash room', if_pos rfl,
      decodeUnicodeCodePoint_char hex four room, ← codePointToUTF8_eq]
  | @surrogates c _ _ above first second =>
    obtain ⟨digits, four, hex, rfl⟩ := first
    obtain ⟨digits', four', hex', rfl⟩ := second
    intro l decoded room
    have room' : stop.length ≤ (digits ++ (0x5C :: 0x75 :: digits' ++ l)).length := by
      simp only [List.length_append]
      omega
    have below : c.toNat < 0x110000 := Nat.lt_succ_of_le (toNat_le c)
    have text : 0x5C :: 0x75 :: digits ++ 0x5C :: 0x75 :: digits' ++ l =
        0x5C :: 0x75 :: (digits ++ (0x5C :: 0x75 :: digits' ++ l)) := by simp
    rw [text, decodeStringLoop_backslash room', if_pos rfl,
      decodeUnicodeCodePoint_surrogates (by omega) hex hex' four four' room,
      surrogates_joined above below, ← codePointToUTF8_eq]

theorem decodesTo_body (body : Body s t) : DecodesTo token stop t s := by
  induction body with
  | nil =>
    intro l decoded room
    rw [List.nil_append, List.append_nil]
  | cons spells _ ih => exact (decodesTo_spells spells).append ih

/-- The token of a string decodes to the string. -/
theorem decodeString_quoted (quoted : Quoted s t) :
    decodeString ⟨.string, t ++ u, u⟩ = .ok (.ok s) := by
  obtain ⟨body⟩ := quoted
  rename_i text
  rw [decodeString_eq text (by simp) rfl, decodesTo_body body _ _ le_rfl, decodeStringLoop.eq_def,
    if_pos rfl]
  rfl

/-! ## The token of a string -/

/-- Where a text that has been cut ends. -/
theorem prefix_of_append {p a b : Bytes} (start : p <+: a ++ b) :
    p <+: a ∨ ∃ q, p = a ++ q ∧ q <+: b := by
  rcases List.prefix_or_prefix_of_prefix start (List.prefix_append a b) with front | ⟨q, rfl⟩
  · exact .inl front
  · exact .inr ⟨q, rfl, (List.prefix_append_right_inj a).mp start⟩

/-- Looking for the closing quote passes over the text; when the document ends inside the text, no
quote is found. -/
structure Passes (t : Bytes) : Prop where
  whole : ∀ c l, c ≠ 0x22 → 2 ≤ l.length →
    ∃ c', c' ≠ 0x22 ∧ readStringLoop c (t ++ l) = readStringLoop c' l
  part : ∀ c p, c ≠ 0x22 → p <+: t → readStringLoop c (p ++ [0]) = .ok (false, [0])

theorem readStringLoop_end {c : UInt8} (other : c ≠ 0x22) :
    readStringLoop c [0] = .ok (false, [0]) := by
  simp [readStringLoop, other, pure, Except.pure]

theorem Passes.nil : Passes [] where
  whole c l other _ := ⟨c, other, rfl⟩
  part c p other start := by
    rw [List.prefix_nil.mp start]
    exact readStringLoop_end other

theorem Passes.append {t' : Bytes} (first : Passes t) (second : Passes t') : Passes (t ++ t') where
  whole c l other room := by
    obtain ⟨c₁, other₁, run₁⟩ := first.whole c (t' ++ l) other (by rw [List.length_append]; omega)
    obtain ⟨c₂, other₂, run₂⟩ := second.whole c₁ l other₁ room
    exact ⟨c₂, other₂, by rw [List.append_assoc, run₁, run₂]⟩
  part c p other start := by
    rcases prefix_of_append start with front | ⟨q, rfl, behind⟩
    · exact first.part c p other front
    · cases q with
      | nil =>
        rw [List.append_nil]
        exact first.part c t other List.prefix_rfl
      | cons d q =>
        obtain ⟨c₁, other₁, run₁⟩ := first.whole c (d :: q ++ [0]) other (by simp)
        rw [List.append_assoc, run₁]
        exact second.part c₁ _ other₁ behind

theorem passes_byte {c : UInt8} (quote : c ≠ 0x22) (backslash : c ≠ 0x5C) : Passes [c] where
  whole c₀ l _ room := by
    rcases l with _ | ⟨d, _ | ⟨e, rest⟩⟩
    · simp at room
    · simp at room
    · refine ⟨c, quote, ?_⟩
      change readStringLoop c₀ (c :: d :: e :: rest) = _
      rw [readStringLoop, if_neg backslash, if_neg quote]
  part c₀ p other start := by
    obtain rfl | ⟨q, rfl, behind⟩ := List.prefix_cons_iff.mp start
    · exact readStringLoop_end other
    · rw [List.prefix_nil.mp behind]
      change readStringLoop c₀ [c, 0] = _
      rw [readStringLoop, if_neg quote, readStringLoop_end quote]

theorem passes_escape (letter : UInt8) : Passes [0x5C, letter] where
  whole c₀ l _ room := by
    cases l with
    | nil => simp at room
    | cons d rest => exact ⟨0x5C, by decide, rfl⟩
  part c₀ p other start := by
    obtain rfl | ⟨q, rfl, behind⟩ := List.prefix_cons_iff.mp start
    · exact readStringLoop_end other
    obtain rfl | ⟨q', rfl, last⟩ := List.prefix_cons_iff.mp behind
    · rfl
    · rw [List.prefix_nil.mp last]
      rfl

theorem hexDigit_plain {v : ℕ} {c : UInt8} (digit : HexDigit v c) : c ≠ 0x22 ∧ c ≠ 0x5C := by
  have decimal : ∀ v < 10, UInt8.ofNat (48 + v) ≠ 0x22 ∧ UInt8.ofNat (48 + v) ≠ 0x5C := by decide
  have upper : ∀ v < 6, UInt8.ofNat (65 + v) ≠ 0x22 ∧ UInt8.ofNat (65 + v) ≠ 0x5C := by decide
  have lower : ∀ v < 6, UInt8.ofNat (97 + v) ≠ 0x22 ∧ UInt8.ofNat (97 + v) ≠ 0x5C := by decide
  cases digit with
  | decimal lt => exact decimal _ lt
  | upper lt => exact upper _ lt
  | lower lt => exact lower _ lt

theorem passes_hexDigits {value n : ℕ} (digits : HexDigits value n t) : Passes t := by
  induction digits with
  | nil => exact Passes.nil
  | cons digit _ ih =>
    obtain ⟨quote, backslash⟩ := hexDigit_plain digit
    exact (passes_byte quote backslash).append ih

theorem passes_unit {n : ℕ} (unit : CodeUnit n t) : Passes t := by
  obtain ⟨digits, -, hex, rfl⟩ := unit
  exact (passes_escape 0x75).append (passes_hexDigits hex)

theorem passes_spells (spells : Spells s t) : Passes t := by
  cases spells with
  | byte _ quote backslash => exact passes_byte quote backslash
  | escape _ => exact passes_escape _
  | unicode unit => exact passes_unit unit
  | surrogates _ first second => exact (passes_unit first).append (passes_unit second)

theorem passes_body (body : Body s t) : Passes t := by
  induction body with
  | nil => exact Passes.nil
  | cons spells _ ih => exact (passes_spells spells).append ih

theorem readStringLoop_quote {c : UInt8} (more : u ≠ []) :
    readStringLoop c (0x22 :: u) = .ok (true, u) := by
  rcases u with _ | ⟨_, _ | ⟨_, _⟩⟩
  · exact absurd rfl more
  · rfl
  · rfl

theorem readToken_quoted (quoted : Quoted s t) (more : u ≠ []) :
    readToken (t ++ u) = .ok (⟨.string, t ++ u, u⟩, u) := by
  obtain ⟨body⟩ := quoted
  rename_i text
  have room : 2 ≤ (0x22 :: u).length := by
    have := List.length_pos_of_ne_nil more
    rw [List.length_cons]
    omega
  have string : readString (text ++ 0x22 :: u) = .ok (true, u) := by
    obtain ⟨c, -, run⟩ := (passes_body body).whole 0 (0x22 :: u) (by decide) room
    rw [readString, run, readStringLoop_quote more]
  have whole : 0x22 :: text ++ [0x22] ++ u = 0x22 :: (text ++ 0x22 :: u) := by simp
  have start : skipSpaces (0x22 :: (text ++ 0x22 :: u)) = .ok (0x22 :: (text ++ 0x22 :: u)) :=
    skipWhile_stop (by decide)
  rw [whole, readToken, start]
  change (getNextChar (0x22 :: (text ++ 0x22 :: u)) >>= _) = _
  rw [getNextChar_cons (by simp)]
  change ((readString (text ++ 0x22 :: u) >>= _) >>= _) = _
  rw [string]
  rfl

end JiaTuanServer.Json

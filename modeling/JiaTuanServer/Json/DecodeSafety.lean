import JiaTuanServer.Json.Members

/-!
# Decoding stays inside the token

`decodeString` reads between the quotes of its token. `decodeNumber` comes to a value, to an error,
or, for a token of exactly 32 characters, to the write behind `buffer[32]`.
-/

namespace JiaTuanServer.Json

open Request

variable {token : Token} {stop : Location} {b decoded : Bytes}

/-! ## Escapes -/

/-- The code reads on inside `b`, or fails with an error of the token there. -/
def Decodes (token : Token) (stop : Location) (b : Bytes) (x : Decoder (ℕ × Location)) : Prop :=
  (∃ cp b', x.run = .ok (.ok (cp, b' ++ stop)) ∧ b' <:+ b) ∨
    ∃ e b', x.run = .ok (.error e) ∧ e.token = token ∧ e.extra = some (b' ++ stop) ∧ b' <:+ b

theorem Decodes.mono {x : Decoder (ℕ × Location)} {b' : Bytes} (h : Decodes token stop b x)
    (longer : b <:+ b') : Decodes token stop b' x := by
  rcases h with ⟨cp, c, run, suffix⟩ | ⟨e, c, run, same, extra, suffix⟩
  · exact .inl ⟨cp, c, run, suffix.trans longer⟩
  · exact .inr ⟨e, c, run, same, extra, suffix.trans longer⟩

theorem Decodes.bind {x : Decoder (ℕ × Location)} {f : ℕ × Location → Decoder (ℕ × Location)}
    (first : Decodes token stop b x)
    (second : ∀ cp b', b' <:+ b → Decodes token stop b' (f (cp, b' ++ stop))) :
    Decodes token stop b (x >>= f) := by
  rcases first with ⟨cp, b', run, suffix⟩ | ⟨e, b', run, same, extra, suffix⟩
  · have goes : (x >>= f).run = (f (cp, b' ++ stop)).run := by
      rw [ExceptT.run_bind, run]
      rfl
    have after := (second cp b' suffix).mono suffix
    unfold Decodes at after ⊢
    rwa [goes]
  · refine .inr ⟨e, b', ?_, same, extra, suffix⟩
    rw [ExceptT.run_bind, run]
    rfl

theorem decodes_throw {e : ErrorInfo} (same : e.token = token)
    (extra : e.extra = some (b ++ stop)) :
    Decodes token stop b (throw e) :=
  .inr ⟨e, b, rfl, same, extra, List.suffix_rfl⟩

theorem decodes_pure (cp : ℕ) : Decodes token stop b (pure (cp, b ++ stop)) :=
  .inl ⟨cp, b, rfl, List.suffix_rfl⟩

theorem decoder_next_bind {α : Type} {c : UInt8} {l : Location}
    (f : UInt8 × Location → Decoder α) : (liftM (next (c :: l)) >>= f) = f (c, l) := rfl

theorem readHexDigits_digit {index digit unicode : ℕ} {c : UInt8} {l : Location}
    (known : hexDigitValue c = some digit) :
    readHexDigits token (index + 1) unicode (c :: l) =
      readHexDigits token index (unicode * 16 + digit) l := by
  simp only [readHexDigits, decoder_next_bind, known]

theorem readHexDigits_other {index unicode : ℕ} {c : UInt8} {l : Location}
    (unknown : hexDigitValue c = none) :
    readHexDigits token (index + 1) unicode (c :: l) =
      throw ⟨token, text "Bad unicode escape sequence in string: hexadecimal digit expected.",
        some l⟩ := by
  simp only [readHexDigits, decoder_next_bind, unknown]

theorem readHexDigits_decodes {index : ℕ} (unicode : ℕ) (enough : index ≤ b.length) :
    Decodes token stop b (readHexDigits token index unicode (b ++ stop)) := by
  induction index generalizing unicode b with
  | zero => exact decodes_pure unicode
  | succ index ih =>
    cases b with
    | nil => simp at enough
    | cons c b =>
      refine Decodes.mono ?_ (List.suffix_cons c b)
      rw [List.cons_append]
      cases value : hexDigitValue c with
      | none =>
        rw [readHexDigits_other value]
        exact decodes_throw rfl rfl
      | some digit =>
        rw [readHexDigits_digit value]
        exact ih _ (by simpa using enough)

theorem decodeUnicodeEscapeSequence_decodes :
    Decodes token stop b (decodeUnicodeEscapeSequence token stop (b ++ stop)) := by
  unfold decodeUnicodeEscapeSequence
  split
  · exact decodes_throw rfl rfl
  · rename_i enough
    exact readHexDigits_decodes 0 (by simpa using enough)

theorem decodeUnicodeCodePoint_decodes (token : Token) (stop : Location) (b : Bytes) :
    Decodes token stop b (decodeUnicodeCodePoint token stop (b ++ stop)) := by
  refine decodeUnicodeEscapeSequence_decodes.bind fun cp b' _ => ?_
  dsimp only
  split
  on_goal 2 => exact decodes_pure cp
  split
  · exact decodes_throw rfl rfl
  rename_i enough
  rcases b' with _ | ⟨c, _ | ⟨d, b'⟩⟩
  · simp at enough
  · simp at enough
  · change Decodes token stop _ (if c ≠ 0x5C then throw _ else if d ≠ 0x75 then throw _ else _)
    split
    · exact (decodes_throw rfl rfl).mono (List.suffix_cons c (d :: b'))
    split
    · exact (decodes_throw rfl rfl).mono (List.suffix_append [c, d] b')
    · refine Decodes.mono (b := b') ?_ (List.suffix_append [c, d] b')
      change Decodes token stop b' (decodeUnicodeEscapeSequence token stop (b' ++ stop) >>= _)
      exact decodeUnicodeEscapeSequence_decodes.bind fun pair b'' _ => decodes_pure _

/-! ## Strings -/

theorem decodeStringLoop_ok (token : Token) (stop : Location) (b decoded : Bytes) :
    ∃ r, decodeStringLoop token stop (b ++ stop) decoded = .ok r ∧ ∀ e, r = .error e →
      e.token = token ∧ ∃ b', e.extra = some (b' ++ stop) ∧ b' <:+ b := by
  induction length : b.length using Nat.strong_induction_on generalizing b decoded with
  | _ n ih =>
    subst length
    rw [decodeStringLoop.eq_def]
    split
    · exact ⟨_, rfl, by simp⟩
    rename_i more
    cases b with
    | nil => exact absurd rfl more
    | cons c b =>
      have later (b' decoded : Bytes) (suffix : b' <:+ b) :
          ∃ r, decodeStringLoop token stop (b' ++ stop) decoded = .ok r ∧ ∀ e, r = .error e →
            e.token = token ∧ ∃ b', e.extra = some (b' ++ stop) ∧ b' <:+ c :: b := by
        obtain ⟨r, run, errors⟩ :=
          ih b'.length (Nat.lt_succ_of_le suffix.length_le) b' decoded rfl
        refine ⟨r, run, fun e he => ?_⟩
        obtain ⟨same, b'', extra, inside⟩ := errors e he
        exact ⟨same, b'', extra, inside.trans (suffix.trans (List.suffix_cons c b))⟩
      have fails (message : Bytes) (b' : Bytes) (suffix : b' <:+ b) :
          ∃ r : Except ErrorInfo Bytes, (pure (.error ⟨token, message, some (b' ++ stop)⟩) :
              Except Fault (Except ErrorInfo Bytes)) = .ok r ∧ ∀ e, r = .error e →
            e.token = token ∧ ∃ b', e.extra = some (b' ++ stop) ∧ b' <:+ c :: b := by
        refine ⟨_, rfl, fun e he => ?_⟩
        cases he
        exact ⟨rfl, b', rfl, suffix.trans (List.suffix_cons c b)⟩
      dsimp only [List.cons_append]
      split
      · exact ⟨_, rfl, by simp⟩
      split
      on_goal 2 => exact later b _ List.suffix_rfl
      split
      · exact fails _ b List.suffix_rfl
      rename_i more
      cases b with
      | nil => exact absurd rfl more
      | cons escape b =>
        have behind : b <:+ escape :: b := List.suffix_cons escape b
        dsimp only [List.cons_append]
        split
        · rcases decodeUnicodeCodePoint_decodes token stop b with
            ⟨cp, b', run, suffix⟩ | ⟨e, b', run, same, extra, suffix⟩
          · split
            · rename_i fault _
              cases run.symm.trans ‹_›
            · cases run.symm.trans ‹_›
            · cases run.symm.trans ‹_›
              exact later b' _ (suffix.trans behind)
          · split
            · cases run.symm.trans ‹_›
            · cases run.symm.trans ‹_›
              refine ⟨_, rfl, fun e' he => ?_⟩
              cases he
              exact ⟨same, b', extra,
                suffix.trans (behind.trans (List.suffix_cons c (escape :: b)))⟩
            · cases run.symm.trans ‹_›
        · split
          · exact later b _ behind
          · exact fails _ b behind

/-- The places that an error names lie in the text from `l` on. -/
structure ErrorInfo.Within (e : ErrorInfo) (l : Location) : Prop where
  start : e.token.start <:+ l
  stop : e.token.stop <:+ e.token.start
  extra : ∀ x ∈ e.extra, x <:+ l

theorem ErrorInfo.Within.mono {e : ErrorInfo} {l l' : Location} (h : e.Within l)
    (longer : l <:+ l') : e.Within l' where
  start := h.start.trans longer
  stop := h.stop
  extra x mem := (h.extra x mem).trans longer

theorem Token.Read.start_suffix {l rest : Location} (read : token.Read l rest) :
    token.start <:+ l := by
  obtain ⟨w, rfl, -⟩ := read.place
  exact List.suffix_append w token.start

theorem Token.Read.stop_suffix {l rest : Location} (read : token.Read l rest) :
    token.stop <:+ token.start := by
  rw [read.stop, read.split]
  exact List.suffix_append token.text rest

/-- An error that names a token only. -/
theorem Token.Read.within {l rest : Location} (read : token.Read l rest) (message : Bytes) :
    (ErrorInfo.mk token message none).Within l where
  start := read.start_suffix
  stop := read.stop_suffix
  extra := by simp

/-- Where the loop of `decodeString` begins and ends. -/
theorem decodeString_eq {rest : Location} (body : Bytes)
    (start : token.start = 0x22 :: body ++ [0x22] ++ rest) (stop : token.stop = rest) :
    decodeString token = decodeStringLoop token (0x22 :: rest) (body ++ 0x22 :: rest) [] := by
  have front : token.start.length - token.stop.length - 1 = (0x22 :: body).length := by
    simp only [start, stop, List.length_append, List.length_cons, List.length_nil]
    omega
  have split : token.start = (0x22 :: body) ++ (0x22 :: rest) := by simp [start]
  rw [decodeString, front, split, List.drop_left]
  rfl

theorem decodeString_ok {l rest : Location} (read : token.Read l rest)
    (string : token.type = .string) :
    ∃ r, decodeString token = .ok r ∧ ∀ e, r = .error e → e.Within l := by
  obtain ⟨body, quoted⟩ := string ▸ read.takes
  have start : token.start = 0x22 :: body ++ [0x22] ++ rest := by rw [read.split, quoted]
  obtain ⟨r, run, errors⟩ := decodeStringLoop_ok token (0x22 :: rest) body []
  refine ⟨r, (decodeString_eq body start read.stop).trans run, fun e he => ?_⟩
  obtain ⟨rfl, b, extra, inside⟩ := errors e he
  refine ⟨read.start_suffix, read.stop_suffix, fun x mem => ?_⟩
  obtain rfl : b ++ 0x22 :: rest = x := by simpa [extra] using mem
  refine List.IsSuffix.trans ?_ read.start_suffix
  obtain ⟨front, rfl⟩ := inside
  exact ⟨0x22 :: front, by simp [start]⟩

/-! ## Numbers -/

variable {scan : Bytes → Option UInt64}

theorem readDigits_le {threshold value n : ℕ} {t : Bytes} (small : value ≤ 10 * threshold - 1)
    (run : readDigits threshold value t = .value n) : n ≤ 10 * threshold - 1 := by
  induction t generalizing value with
  | nil =>
    cases run
    exact small
  | cons c t ih =>
    rw [readDigits] at run
    split at run
    · cases run
    split at run
    · cases run
    rename_i digit below
    refine ih ?_ run
    have nine : (c - 0x30).toNat ≤ 9 := by
      simp only [not_or, UInt8.not_lt] at digit
      rw [UInt8.toNat_sub_of_le _ _ digit.1]
      have := UInt8.le_iff_toNat_le.mp digit.2
      simp at this ⊢
      omega
    omega

/-- What becomes of a number: a value that `IsRead` allows, an error about the token, or the write
behind `buffer[32]`. -/
def NumberOutcome (scan : Bytes → Option UInt64) (token : Token)
    (r : Except Fault (Except ErrorInfo Value)) : Prop :=
  (∃ v, r = .ok (.ok v) ∧ v.IsRead scan) ∨ r = .ok (.error (notANumber token)) ∨
    r = .error .overflow ∧ token.text.length = bufferSize

theorem decodeDouble_outcome (scan : Bytes → Option UInt64) (token : Token) :
    NumberOutcome scan token (decodeDouble scan token) := by
  unfold decodeDouble
  dsimp only
  split
  · rename_i full
    exact .inr (.inr ⟨rfl, by omega⟩)
  · cases scanned : scan token.text with
    | none => exact .inr (.inl rfl)
    | some bits => exact .inl ⟨_, rfl, by rw [Value.IsRead]; exact ⟨_, scanned⟩⟩

theorem decodeNumber_outcome (scan : Bytes → Option UInt64) (token : Token) :
    NumberOutcome scan token (decodeNumber scan token) := by
  have double := decodeDouble_outcome scan token
  unfold decodeNumber
  dsimp only
  split
  · exact double
  by_cases negative : token.text.head? = some 0x2D
  · simp only [negative, if_true]
    cases digits : readDigits (minIntMagnitude / 10) 0 (token.text.drop 1) with
    | notANumber => exact .inr (.inl rfl)
    | tooLarge => exact double
    | value n =>
      have le := readDigits_le (Nat.zero_le _) digits
      refine .inl ⟨_, rfl, ?_⟩
      rw [Value.IsRead]
      unfold minIntMagnitude at le
      omega
  · simp only [negative, if_false]
    cases digits : readDigits (maxUInt / 10) 0 token.text with
    | notANumber => exact .inr (.inl rfl)
    | tooLarge => exact double
    | value n =>
      have le := readDigits_le (Nat.zero_le _) digits
      unfold maxUInt at le
      refine .inl ?_
      by_cases int : n ≤ maxInt
      · refine ⟨.int n, by simp only [int, if_true]; rfl, ?_⟩
        rw [Value.IsRead]
        unfold maxInt at int
        omega
      · refine ⟨.uint n, by simp only [int, if_false]; rfl, ?_⟩
        rw [Value.IsRead]
        unfold maxInt at int
        omega

end JiaTuanServer.Json

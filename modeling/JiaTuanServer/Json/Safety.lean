import JiaTuanServer.Json.DecodeSafety
import JiaTuanServer.Library.Fuelled

/-!
# Every text is parsed safely

On every text `parse` ends, whatever the text is. It stays inside the text, and yields a value of
the form `IsRead` without an error, or no value and one error whose places lie in the text. The one
exception is a number of exactly 32 characters, which can end in the write behind `buffer[32]`.
-/

namespace JiaTuanServer.Json

open Request Fuelled

variable {l l' rest : Location} {token : Token} {s s' : State}

/-! ## Comments and recovery -/

theorem skipComments_ok (read : token.Read l rest) : ∃ token' l' rest',
    skipComments token rest = .ok (token', rest') ∧ l' <:+ l ∧ token'.Read l' rest' ∧
      token'.type ≠ .comment := by
  fun_induction skipComments token rest generalizing l with
  | case1 token rest comment fault failed =>
    obtain ⟨token', rest', run, -⟩ := readToken_ok read.inside
    cases failed.symm.trans run
  | case2 token rest comment token' rest' run _ _ ih =>
    obtain ⟨token'', l', rest'', run', suffix, read', other⟩ := ih (readToken_read run)
    exact ⟨token'', l', rest'', run', suffix.trans read.suffix, read', other⟩
  | case3 token rest other => exact ⟨token, l, rest, rfl, List.suffix_rfl, read, other⟩

theorem recoverLoop_ok (skipUntilToken : TokenType) (inside : l ≠ []) :
    ∃ rest, recoverLoop skipUntilToken l = .ok rest ∧ rest <:+ l ∧ rest ≠ [] := by
  fun_induction recoverLoop skipUntilToken l with
  | case1 l fault failed =>
    obtain ⟨token, rest, run, -⟩ := readToken_ok inside
    cases failed.symm.trans run
  | case2 l token rest run _ found =>
    have read := readToken_read run
    exact ⟨rest, rfl, read.suffix, read.inside⟩
  | case3 l token rest run _ other ih =>
    have read := readToken_read run
    obtain ⟨rest', run', suffix, inside'⟩ := ih read.inside
    exact ⟨rest', run', suffix.trans read.suffix, inside'⟩

/-! ## What a call of the parser leaves -/

/-- Somewhere stand 32 characters of numbers in a row, and then another one or the end. -/
def HasFullNumber (l : Location) : Prop :=
  ∃ w t rest, l = w ++ t ++ rest ∧ t.length = bufferSize ∧ (∀ c ∈ t, isNumberChar c) ∧
    Stopped isNumberChar rest

theorem HasFullNumber.mono (full : HasFullNumber l) (longer : l <:+ l') : HasFullNumber l' := by
  obtain ⟨w, t, rest, rfl, length, all, stopped⟩ := full
  obtain ⟨front, rfl⟩ := longer
  exact ⟨front ++ w, t, rest, by simp, length, all, stopped⟩

variable (scan : Bytes → Option UInt64)

/-- The result of a call in the state `s`. -/
structure Returned (s : State) (r : Option Value × State) : Prop where
  inside : r.2.current ≠ []
  suffix : r.2.current <:+ s.current
  value : ∀ v, r.1 = some v →
    v.IsRead scan ∧ r.2.errors = s.errors ∧ r.2.current.length < s.current.length
  error : r.1 = none → ∃ e, r.2.errors = s.errors ++ [e] ∧ e.Within s.current

/-- The call ends so, or with a number that overflows its buffer. -/
def Reads (x : Run (Option Value × State)) (s : State) : Prop :=
  Ends x (Returned scan s) fun fault => fault = .overflow ∧ HasFullNumber s.current

variable {scan}

/-- A call further on. -/
theorem Reads.mono {x : Run (Option Value × State)} (h : Reads scan x s')
    (errors : s'.errors = s.errors) (suffix : s'.current <:+ s.current) : Reads scan x s := by
  apply Ends.mono h
  · intro r returned
    refine ⟨returned.inside, returned.suffix.trans suffix, fun v hv => ?_, fun none => ?_⟩
    · obtain ⟨read, same, shorter⟩ := returned.value v hv
      exact ⟨read, same.trans errors, shorter.trans_le suffix.length_le⟩
    · obtain ⟨e, same, within⟩ := returned.error none
      exact ⟨e, by rw [same, errors], within.mono suffix⟩
  · intro fault overflow
    exact ⟨overflow.1, overflow.2.mono suffix⟩

/-- A value. -/
theorem Reads.value {v : Value} (read : v.IsRead scan) (errors : s'.errors = s.errors)
    (inside : s'.current ≠ []) (suffix : s'.current <:+ s.current)
    (shorter : s'.current.length < s.current.length) :
    Reads scan (pure (some v, s')) s :=
  Ends.pure ⟨inside, suffix, fun _ same => Option.some.inj same ▸ ⟨read, errors, shorter⟩, by simp⟩

/-- No value, and one more error. -/
theorem Reads.failure {e : ErrorInfo} (errors : s'.errors = s.errors ++ [e])
    (within : e.Within s.current) (inside : s'.current ≠ []) (suffix : s'.current <:+ s.current) :
    Reads scan (pure (none, s')) s :=
  Ends.pure ⟨inside, suffix, (by simp), fun _ => ⟨e, errors, within⟩⟩

theorem Reads.recover {e : ErrorInfo} {skipUntilToken : TokenType}
    (errors : s'.errors = s.errors ++ [e]) (within : e.Within s.current)
    (inside : s'.current ≠ []) (suffix : s'.current <:+ s.current) :
    Reads scan (do return ← recoverFromError skipUntilToken s') s := by
  obtain ⟨rest, run, suffix', inside'⟩ := recoverLoop_ok skipUntilToken inside
  have recovered : recoverFromError skipUntilToken s' = .ok (none, s'.moveTo rest) := by
    rw [recoverFromError, run]
    rfl
  rw [recovered]
  exact Reads.failure errors within inside' (suffix'.trans suffix)

/-- An error about a token that has been read. -/
theorem Reads.addErrorAndRecover {message : String} {skipUntilToken : TokenType}
    (read : token.Read l rest) (longer : l <:+ s.current) (errors : s'.errors = s.errors)
    (current : s'.current = rest) :
    Reads scan (do return ← Json.addErrorAndRecover message token skipUntilToken s') s := by
  refine Reads.recover (e := ⟨token, text message, none⟩) ?_ ((read.within _).mono longer) ?_ ?_
  · rw [State.addError_errors, errors]
  · rw [State.addError_current, current]
    exact read.inside
  · rw [State.addError_current, current]
    exact read.suffix.trans longer

/-- A token, and what follows. -/
theorem Reads.readToken {f : Token × Location → Run (Option Value × State)} (inside : l ≠ [])
    (next : ∀ token rest, token.Read l rest → Reads scan (f (token, rest)) s) :
    Reads scan (liftM (Json.readToken l) >>= f) s := by
  obtain ⟨token, rest, run, read⟩ := readToken_ok inside
  rw [run]
  exact next token rest read

/-- Comments, and what follows. -/
theorem Reads.skipComments {f : Token × Location → Run (Option Value × State)}
    (read : token.Read l rest) (next : ∀ token' l' rest', l' <:+ l → token'.Read l' rest' →
      token'.type ≠ .comment → Reads scan (f (token', rest')) s) :
    Reads scan (liftM (Json.skipComments token rest) >>= f) s := by
  obtain ⟨token', l', rest', run, suffix, read', other⟩ := skipComments_ok read
  rw [run]
  exact next token' l' rest' suffix read' other

/-- A nested value, and what follows it. -/
theorem Reads.nested {x : Run (Option Value × State)}
    {f : Option Value × State → Run (Option Value × State)} {skipUntilToken : TokenType}
    (first : Reads scan x s') (errors : s'.errors = s.errors) (suffix : s'.current <:+ s.current)
    (failed : ∀ s₁, f (none, s₁) = do return ← recoverFromError skipUntilToken s₁)
    (next : ∀ v s₁, v.IsRead scan → s₁.errors = s.errors → s₁.current ≠ [] →
      s₁.current <:+ s'.current → s₁.current.length < s'.current.length →
      Reads scan (f (some v, s₁)) s) : Reads scan (x >>= f) s := by
  have first' : Ends x (Returned scan s') fun fault =>
      fault = .overflow ∧ HasFullNumber s.current :=
    Ends.mono first (fun _ => id) fun _ overflow => overflow.imp_right (·.mono suffix)
  apply first'.bind
  rintro ⟨result, s₁⟩ returned
  cases result with
  | some v =>
    obtain ⟨read, same, shorter⟩ := returned.value v rfl
    exact next v s₁ read (same.trans errors) returned.inside returned.suffix shorter
  | none =>
    obtain ⟨e, same, within⟩ := returned.error rfl
    rw [failed]
    exact Reads.recover (by rw [same, errors]) (within.mono suffix) returned.inside
      (returned.suffix.trans suffix)

/-! ## The loops -/

section Loops

variable {readValue : State → Run (Option Value × State)} {bound : ℕ}

/-- Nested values are read, from every place that is near enough to the end. -/
def ReadsNested (scan : Bytes → Option UInt64) (readValue : State → Run (Option Value × State))
    (bound : ℕ) : Prop :=
  ∀ s : State, s.current ≠ [] → s.current.length ≤ bound → Reads scan (readValue s) s

theorem objectLoop_reads {fuel : ℕ} {members : List (Bytes × Value)} (name : Bytes)
    (nested : ReadsNested scan readValue bound) (inside : s.current ≠ [])
    (near : s.current.length ≤ bound) (fuelled : s.current.length ≤ fuel)
    (made : (Value.object members).IsRead scan) :
    Reads scan (objectLoop readValue fuel name members s) s := by
  induction fuel generalizing s name members with
  | zero => exact absurd (List.length_eq_zero_iff.mp (Nat.le_zero.mp fuelled)) inside
  | succ fuel ih =>
    rw [objectLoop]
    apply Reads.readToken inside
    intro first rest₀ read₀
    apply Reads.skipComments read₀
    intro tokenName l₁ rest₁ suffix₁ read₁ _
    have inside₁ := read₁.inside
    have behind₁ : rest₁ <:+ s.current := read₁.suffix.trans suffix₁
    dsimp only
    split
    · rename_i ends
      have shorter := (read₁.length_lt (by simp [ends.1])).trans_le suffix₁.length_le
      exact Reads.value made rfl inside₁ behind₁ shorter
    split
    · exact Reads.addErrorAndRecover read₁ suffix₁ rfl rfl
    rename_i string
    rw [not_not] at string
    have shorter₁ := (read₁.length_lt (by simp [string])).trans_le suffix₁.length_le
    obtain ⟨decoded, run, errors⟩ := decodeString_ok read₁ string
    rw [run]
    cases decoded with
    | error e =>
      exact Reads.recover rfl ((errors e rfl).mono suffix₁) inside₁ behind₁
    | ok name =>
      change Reads scan (readMember readValue (objectLoop readValue fuel name) name members _) s
      rw [readMember]
      apply Reads.readToken inside₁
      intro colon rest₂ read₂
      have behind₂ := read₂.suffix.trans behind₁
      dsimp only
      split
      · exact Reads.addErrorAndRecover read₂ behind₁ rfl rfl
      have near₂ := read₂.length_le
      have value := nested ((s.moveTo rest₁).moveTo rest₂) read₂.inside (by simp; omega)
      refine value.nested rfl behind₂ (fun _ => rfl) ?_
      intro v s₁ read errors inside suffix shorter
      dsimp only [State.moveTo_current] at suffix shorter
      have behind := suffix.trans behind₂
      apply Reads.readToken inside
      intro comma rest₃ read₃
      dsimp only
      split
      · exact Reads.addErrorAndRecover read₃ behind errors rfl
      apply Reads.skipComments read₃
      intro comma' l₄ rest₄ suffix₄ read₄ _
      have behind₄ : rest₄ <:+ s.current := (read₄.suffix.trans suffix₄).trans behind
      have shorter₄ : rest₄.length < s.current.length := by
        have := read₄.length_le
        have := suffix₄.length_le
        omega
      have made' := isRead_setMember name made read
      dsimp only
      split
      · exact Reads.value made' errors read₄.inside behind₄ shorter₄
      · have loop := ih (s := s₁.moveTo rest₄) name read₄.inside
          (shorter₄.le.trans near) (Nat.le_of_lt_succ (shorter₄.trans_le fuelled)) made'
        exact loop.mono errors behind₄

theorem arrayLoop_reads {fuel : ℕ} {values : List Value}
    (nested : ReadsNested scan readValue bound) (inside : s.current ≠ [])
    (near : s.current.length ≤ bound) (fuelled : s.current.length ≤ fuel)
    (made : (Value.array values).IsRead scan) :
    Reads scan (arrayLoop readValue fuel values s) s := by
  induction fuel generalizing s values with
  | zero => exact absurd (List.length_eq_zero_iff.mp (Nat.le_zero.mp fuelled)) inside
  | succ fuel ih =>
    rw [arrayLoop]
    refine (nested s inside near).nested rfl List.suffix_rfl (fun _ => rfl) ?_
    intro v s₁ read errors inside₁ behind shorter
    apply Reads.readToken inside₁
    intro first rest₀ read₀
    apply Reads.skipComments read₀
    intro token l₂ rest₂ suffix₂ read₂ _
    have behind₂ : rest₂ <:+ s.current := (read₂.suffix.trans suffix₂).trans behind
    have shorter₂ : rest₂.length < s.current.length := by
      have := read₂.length_le
      have := suffix₂.length_le
      omega
    have made' : (Value.array (values ++ [v])).IsRead scan := by
      rw [Value.IsRead, Value.allRead_iff] at made ⊢
      intro v' mem
      rcases List.mem_append.mp mem with old | new
      · exact made v' old
      · exact List.mem_singleton.mp new ▸ read
    dsimp only
    split
    · rename_i both
      exact absurd (both.1.symm.trans both.2) (by decide)
    split
    · exact Reads.value made' errors read₂.inside behind₂ shorter₂
    · have loop := ih (s := s₁.moveTo rest₂) read₂.inside (shorter₂.le.trans near)
        (Nat.le_of_lt_succ (shorter₂.trans_le fuelled)) made'
      exact loop.mono errors behind₂

/-- The elements, from behind the bracket. -/
theorem readArray_reads {fuel : ℕ} (nested : ReadsNested scan readValue bound)
    (inside : s'.current ≠ []) (near : s'.current.length ≤ bound)
    (fuelled : s'.current.length ≤ fuel) (errors : s'.errors = s.errors)
    (suffix : s'.current <:+ s.current) (shorter : s'.current.length < s.current.length) :
    Reads scan (readArray readValue fuel s') s := by
  obtain ⟨w, current, skip, split, inside', -, -⟩ := skipWhile_ok (p := isSpace) inside
  have suffix' : current <:+ s'.current := by
    rw [split]
    exact List.suffix_append w current
  have short := suffix'.length_le
  rw [readArray, skipSpaces, skip]
  cases current with
  | nil => exact absurd rfl inside'
  | cons c tail =>
    change Reads scan (if c = 0x5D then _ else _) s
    split
    · apply Reads.readToken inside'
      intro token rest read
      have le := read.length_le
      exact Reads.value trivial errors read.inside (read.suffix.trans (suffix'.trans suffix))
        ((le.trans short).trans_lt shorter)
    · have loop : Reads scan (arrayLoop readValue fuel [] _) (s'.moveTo (c :: tail)) :=
        arrayLoop_reads nested inside' (short.trans near) (short.trans fuelled) trivial
      exact loop.mono errors (suffix'.trans suffix)

end Loops

/-! ## The whole text -/

theorem skipCommentTokens_ok (inside : l ≠ []) : ∃ token l' rest,
    skipCommentTokens l = .ok (token, rest) ∧ l' <:+ l ∧ token.Read l' rest ∧
      token.type ≠ .comment := by
  obtain ⟨first, rest₀, run₀, read₀⟩ := readToken_ok inside
  obtain ⟨token, l', rest, run, suffix, read, other⟩ := skipComments_ok read₀
  refine ⟨token, l', rest, ?_, suffix, read, other⟩
  rw [skipCommentTokens, run₀]
  exact run

/-- The token of a number fills the buffer when it has 32 characters. -/
theorem Token.Read.full (read : token.Read l rest) (number : token.type = .number)
    (length : token.text.length = bufferSize) : HasFullNumber l := by
  obtain ⟨w, rfl, -⟩ := read.place
  refine ⟨w, token.text, rest, ?_, length, (number ▸ read.takes).2, read.stopped number⟩
  rw [List.append_assoc, ← read.split]

theorem run_ok_bind {α β : Type} (a : α) (f : α → Run β) :
    (liftM (Except.ok a : Except Fault α) >>= f) = f a := rfl

theorem readValue_reads {fuel : ℕ} : ReadsNested scan (readValue scan fuel) fuel := by
  intro s inside near
  induction fuel generalizing s with
  | zero => exact absurd (List.length_eq_zero_iff.mp (Nat.le_zero.mp near)) inside
  | succ fuel ih =>
    obtain ⟨token, l, rest, run, suffix, read, -⟩ := skipCommentTokens_ok inside
    have behind := read.suffix.trans suffix
    have shorter (more : token.type ≠ .endOfStream) : rest.length < s.current.length :=
      (read.length_lt more).trans_le suffix.length_le
    have closer (more : token.type ≠ .endOfStream) : rest.length ≤ fuel :=
      Nat.le_of_lt_succ ((shorter more).trans_le near)
    have literal {v : Value} (more : token.type ≠ .endOfStream) (made : v.IsRead scan) :
        Reads scan (pure (some v, s.moveTo rest)) s :=
      Reads.value made rfl read.inside behind (shorter more)
    have syntaxError (message : Bytes) :
        Reads scan (pure (none, (s.moveTo rest).addError ⟨token, message, none⟩)) s :=
      Reads.failure rfl ((read.within message).mono suffix) read.inside behind
    simp only [readValue, run, run_ok_bind]
    cases type : token.type with
    | objectBegin =>
      have near' := closer (by simp [type])
      have object : Reads scan (readObject (readValue scan fuel) fuel _) (s.moveTo rest) :=
        objectLoop_reads [] ih read.inside near' near' ⟨List.Pairwise.nil, trivial⟩
      exact object.mono rfl behind
    | arrayBegin =>
      have near' := closer (by simp [type])
      have array : Reads scan (readArray (readValue scan fuel) fuel (s.moveTo rest)) s :=
        readArray_reads ih read.inside near' near' rfl behind (shorter (by simp [type]))
      exact array
    | number =>
      have more : token.type ≠ .endOfStream := by simp [type]
      obtain ⟨v, decoded, made⟩ | decoded | ⟨decoded, length⟩ := decodeNumber_outcome scan token
      · rw [decoded]
        exact literal more made
      · rw [decoded]
        exact syntaxError _
      · rw [decoded]
        exact ⟨rfl, (read.full type length).mono suffix⟩
    | string =>
      have more : token.type ≠ .endOfStream := by simp [type]
      obtain ⟨decoded, run, errors⟩ := decodeString_ok read type
      rw [run]
      cases decoded with
      | ok decoded => exact literal more (zero_notMem_cString decoded)
      | error e =>
        exact Reads.failure rfl ((errors e rfl).mono suffix) read.inside behind
    | true => exact literal (by simp [type]) trivial
    | false => exact literal (by simp [type]) trivial
    | null => exact literal (by simp [type]) trivial
    | _ => exact syntaxError _

/-- What `parse` returns: a value and no error, or no value and one error in the text. -/
def Parsed (scan : Bytes → Option UInt64) (document : Bytes) (r : Option Value × List ErrorInfo) :
    Prop :=
  (∃ v, r = (some v, []) ∧ v.IsRead scan) ∨ ∃ e, r = (none, [e]) ∧ e.Within (document ++ [0])

theorem parse_ends (scan : Bytes → Option UInt64) {fuel : ℕ} {document : Bytes}
    (enough : document.length < fuel) :
    Ends (parse scan fuel document) (Parsed scan document)
      fun fault => fault = .overflow ∧ HasFullNumber (document ++ [0]) := by
  have reads : Reads scan (readValue scan fuel ⟨document ++ [0], []⟩) ⟨document ++ [0], []⟩ :=
    readValue_reads _ (by simp) (by simpa [Nat.succ_le_iff] using enough)
  apply Ends.bind reads
  rintro ⟨value, s⟩ returned
  obtain ⟨token, l, rest, run, -⟩ := skipCommentTokens_ok returned.inside
  have comments : Ends (liftM (skipCommentTokens s.current) : Run _) (fun _ => True)
      fun fault => fault = .overflow ∧ HasFullNumber (document ++ [0]) :=
    Ends.lift_ok run trivial
  apply comments.bind
  intro _ _
  apply Ends.pure
  cases value with
  | some v =>
    obtain ⟨read, none, -⟩ := returned.value v rfl
    exact .inl ⟨v, by rw [none], read⟩
  | none =>
    obtain ⟨e, one, within⟩ := returned.error rfl
    exact .inr ⟨e, by rw [one]; rfl, within⟩

/-- How `parse` ends on any text: with a value and no error, without one and with one error about a
place in the text, or in the write behind `buffer[32]`, which needs a number that fills it. -/
theorem parse_safe (scan : Bytes → Option UInt64) {fuel : ℕ} {document : Bytes}
    (enough : document.length < fuel) :
    (∃ v, (parse scan fuel document).run = .ok (some (some v, [])) ∧ v.IsRead scan) ∨
    (∃ e, (parse scan fuel document).run = .ok (some (none, [e])) ∧ e.Within (document ++ [0])) ∨
    ((parse scan fuel document).run = .error .overflow ∧ HasFullNumber (document ++ [0])) := by
  obtain ⟨r, run, ⟨v, rfl, read⟩ | ⟨e, rfl, within⟩⟩ | ⟨fault, run, rfl, full⟩ :=
    (parse_ends scan enough).cases
  · exact .inl ⟨v, run, read⟩
  · exact .inr (.inl ⟨e, run, within⟩)
  · exact .inr (.inr ⟨run, full⟩)

theorem parse_safe_array :
    (∃ v, (parse (fun _ => none) 6 (text "[1:2]")).run = .ok (some (some v, [])) ∧
      v.IsRead fun _ => none) ∨
    (∃ e, (parse (fun _ => none) 6 (text "[1:2]")).run = .ok (some (none, [e])) ∧
      e.Within (text "[1:2]" ++ [0])) ∨
    ((parse (fun _ => none) 6 (text "[1:2]")).run = .error .overflow ∧
      HasFullNumber (text "[1:2]" ++ [0])) :=
  parse_safe _ (by decide)

end JiaTuanServer.Json

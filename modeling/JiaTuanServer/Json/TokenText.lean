import JiaTuanServer.Json.Token

/-!
# What a token is

At every location of the document `readToken` reads a token, without reading behind the zero byte,
and takes at least one character unless it finds the end of the document (`readToken_ok`).
-/

namespace JiaTuanServer.Json

open Request

variable {l rest : Location} {p : UInt8 → Bool} {c : UInt8}

theorem getNextChar_cons (h : rest ≠ []) : getNextChar (c :: rest) = .ok (c, rest) := by
  cases rest with
  | nil => exact absurd rfl h
  | cons d tail => rfl

/-! ## Passing over bytes -/

theorem skipWhile_append {w : Bytes} (all : ∀ c ∈ w, p c) (h : l ≠ []) :
    skipWhile p (w ++ l) = skipWhile p l := by
  induction w with
  | nil => rfl
  | cons c w ih =>
    have more : w ++ l ≠ [] := by simp [h]
    have step : skipWhile p (c :: (w ++ l)) = skipWhile p (w ++ l) := by
      cases tail : w ++ l with
      | nil => exact absurd tail more
      | cons d tail => rw [skipWhile, if_pos (all c List.mem_cons_self)]
    exact step.trans (ih fun d mem => all d (List.mem_cons_of_mem _ mem))

theorem skipWhile_stop (h : ¬ p c) : skipWhile p (c :: rest) = .ok (c :: rest) := by
  cases rest with
  | nil => rfl
  | cons d tail =>
    rw [skipWhile, if_neg h]
    rfl

/-- At the end of the document, or before a byte that is not passed over. -/
def Stopped (p : UInt8 → Bool) (l : Location) : Prop := l.length = 1 ∨ ∀ c ∈ l.head?, ¬ p c

theorem skipWhile_ok (h : l ≠ []) :
    ∃ w l', skipWhile p l = .ok l' ∧ l = w ++ l' ∧ l' ≠ [] ∧ (∀ c ∈ w, p c) ∧ Stopped p l' := by
  induction l with
  | nil => exact absurd rfl h
  | cons c tail ih =>
    by_cases passes : p c ∧ tail ≠ []
    · obtain ⟨w, l', run, rfl, rest, all, stopped⟩ := ih passes.2
      refine ⟨c :: w, l', ?_, rfl, rest, ?_, stopped⟩
      · rw [← run]
        exact skipWhile_append (w := [c]) (by simpa using passes.1) passes.2
      · simpa using ⟨passes.1, all⟩
    · refine ⟨[], c :: tail, ?_, rfl, by simp, by simp, ?_⟩
      · cases tail with
        | nil => rfl
        | cons d tail => exact skipWhile_stop fun pc => passes ⟨pc, by simp⟩
      · cases tail with
        | nil => exact .inl rfl
        | cons d tail => exact .inr fun e head pc => passes (by simp_all)

/-! ## The parts of a token -/

/-- The code ends at a location of the document, behind some text. -/
def Advances (x : Except Fault (Bool × Location)) (l : Location) : Prop :=
  ∃ ok t l', x = .ok (ok, l') ∧ l = t ++ l' ∧ l' ≠ []

theorem matchText_advances (pattern : Bytes) (h : l ≠ []) :
    ∃ t, l = t ++ (matchText pattern l).2 ∧ (matchText pattern l).2 ≠ [] := by
  unfold matchText
  split
  · exact ⟨[], rfl, h⟩
  · rename_i long
    split
    · refine ⟨l.take pattern.length, (List.take_append_drop ..).symm, ?_⟩
      have := List.length_pos_of_ne_nil h
      simp only [ne_eq, List.drop_eq_nil_iff]
      omega
    · exact ⟨[], rfl, h⟩

theorem readStringLoop_ok (h : l ≠ []) : ∃ ok t l', readStringLoop c l = .ok (ok, l') ∧
    l = t ++ l' ∧ l' ≠ [] ∧ (ok = true → c ≠ 0x22 → ∃ body, t = body ++ [0x22]) := by
  fun_induction readStringLoop c l with
  | case1 => exact absurd rfl h
  | case2 c z =>
    exact ⟨_, [], [z], rfl, rfl, by simp, fun quote other => absurd (by simpa using quote) other⟩
  | case3 c z => exact ⟨true, [0x22], [z], rfl, rfl, by simp, fun _ _ => ⟨[], rfl⟩⟩
  | case4 c c' z other ih =>
    obtain ⟨ok, t, l', run, split, rest, closed⟩ := ih (by simp)
    refine ⟨ok, c' :: t, l', run, by rw [List.cons_append, ← split], rest, fun quote _ => ?_⟩
    obtain ⟨body, rfl⟩ := closed quote other
    exact ⟨c' :: body, rfl⟩
  | case5 c d e rest ih =>
    obtain ⟨ok, t, l', run, split, rest, closed⟩ := ih (by simp)
    refine ⟨ok, 0x5C :: d :: t, l', run, by simp [← split], rest, fun quote _ => ?_⟩
    obtain ⟨body, rfl⟩ := closed quote (by decide)
    exact ⟨0x5C :: d :: body, rfl⟩
  | case6 c d e rest other =>
    exact ⟨true, [0x22], d :: e :: rest, rfl, rfl, by simp, fun _ _ => ⟨[], rfl⟩⟩
  | case7 c c' d e rest plain other ih =>
    obtain ⟨ok, t, l', run, split, rest, closed⟩ := ih (by simp)
    refine ⟨ok, c' :: t, l', run, by rw [List.cons_append, ← split], rest, fun quote _ => ?_⟩
    obtain ⟨body, rfl⟩ := closed quote other
    exact ⟨c' :: body, rfl⟩

theorem getNextChar_advances {f : UInt8 → Bool} (h : l ≠ []) :
    Advances (do let (c, current) ← getNextChar l; pure (f c, current)) l := by
  cases l with
  | nil => exact absurd rfl h
  | cons c tail =>
    cases tail with
    | nil => exact ⟨_, [], [c], rfl, rfl, by simp⟩
    | cons d tail => exact ⟨_, [c], d :: tail, rfl, rfl, by simp⟩

/-- Another byte in front. -/
theorem Advances.cons {x : Except Fault (Bool × Location)} (h : Advances x l) (c : UInt8) :
    Advances x (c :: l) := by
  obtain ⟨ok, t, l', run, rfl, rest⟩ := h
  exact ⟨ok, c :: t, l', run, rfl, rest⟩

theorem readCStyleComment_advances (h : l ≠ []) : Advances (readCStyleComment l) l := by
  fun_induction readCStyleComment l with
  | case1 => exact absurd rfl h
  | case2 z => exact getNextChar_advances (f := fun c => c = 0x2F) (by simp)
  | case3 c d rest ends =>
    exact (getNextChar_advances (f := fun c => c = 0x2F) (l := d :: rest) (by simp)).cons c
  | case4 c d rest more ih => exact (ih (by simp)).cons c

theorem readCppStyleComment_advances (h : l ≠ []) : Advances (readCppStyleComment l) l := by
  fun_induction readCppStyleComment l with
  | case1 => exact absurd rfl h
  | case2 z => exact ⟨true, [], [z], rfl, rfl, by simp⟩
  | case3 c d rest ends => exact ⟨true, [c], d :: rest, rfl, rfl, by simp⟩
  | case4 c d rest more ih => exact (ih (by simp)).cons c

theorem readComment_advances (h : l ≠ []) : Advances (readComment l) l := by
  have after (c : UInt8) (rest : Location) (h : rest ≠ []) :
      Advances (if c = 0x2A then readCStyleComment rest
        else if c = 0x2F then readCppStyleComment rest else pure (false, rest)) rest := by
    split
    · exact readCStyleComment_advances h
    · split
      · exact readCppStyleComment_advances h
      · exact ⟨false, [], rest, rfl, rfl, h⟩
  cases l with
  | nil => exact absurd rfl h
  | cons c tail =>
    cases tail with
    | nil => exact after 0 [c] (by simp)
    | cons d tail => exact (after c (d :: tail) (by simp)).cons c

/-! ## The whole token -/

/-- The texts of the tokens of a type. -/
def TokenType.Takes : TokenType → Bytes → Prop
  | .endOfStream, t => t = [] ∨ t = [0]
  | .string, t => ∃ body, t = 0x22 :: body ++ [0x22]
  | .number, t => t ≠ [] ∧ ∀ c ∈ t, isNumberChar c
  | _, t => t ≠ []

/-- What `readToken` has read from `l` on when it stops at `rest`. -/
structure Token.Read (token : Token) (l rest : Location) : Prop where
  stop : token.stop = rest
  inside : rest ≠ []
  place : ∃ w, l = w ++ token.start ∧ ∀ c ∈ w, isSpace c
  split : token.start = token.text ++ rest
  takes : token.type.Takes token.text
  stopped : token.type = .number → Stopped isNumberChar rest

@[simp] theorem Token.text_mk (type : TokenType) (t rest : Bytes) :
    (Token.mk type (t ++ rest) rest).text = t := by
  simp [Token.text]

theorem isNumberChar_of_begins (h : isDigit c || c = 0x2D) : isNumberChar c := by
  simp only [Bool.or_eq_true, decide_eq_true_eq] at h
  rcases h with digit | rfl
  · simp [isNumberChar, digit]
  · rfl

theorem scanToken_ok (h : l ≠ []) : ∃ type ok t l', scanToken c l = .ok (type, ok, l') ∧
    l = t ++ l' ∧ l' ≠ [] ∧ (ok = true → type.Takes (c :: t)) ∧
    (type = .number → Stopped isNumberChar l') := by
  have single (type : TokenType) (ok : Bool) (takes : ok = true → type.Takes [c])
      (other : type ≠ .number) (run : scanToken c l = .ok (type, ok, l)) :
      ∃ type ok t l', scanToken c l = .ok (type, ok, l') ∧
        l = t ++ l' ∧ l' ≠ [] ∧ (ok = true → type.Takes (c :: t)) ∧
        (type = .number → Stopped isNumberChar l') :=
    ⟨type, ok, [], l, run, rfl, h, takes, fun number => absurd number other⟩
  have literal (type : TokenType) (pattern : Bytes) (takes : ∀ t, type.Takes (c :: t))
      (other : type ≠ .number)
      (run : scanToken c l = .ok (type, (matchText pattern l).1, (matchText pattern l).2)) :
      ∃ type ok t l', scanToken c l = .ok (type, ok, l') ∧
        l = t ++ l' ∧ l' ≠ [] ∧ (ok = true → type.Takes (c :: t)) ∧
        (type = .number → Stopped isNumberChar l') := by
    obtain ⟨t, split, rest⟩ := matchText_advances pattern h
    exact ⟨type, _, t, _, run, split, rest, fun _ => takes t, fun number => absurd number other⟩
  unfold scanToken at *
  split
  case h_5 =>
    obtain ⟨ok, t, l', run, split, rest, closed⟩ := readStringLoop_ok (c := 0) h
    refine ⟨.string, ok, t, l', by rw [readString, run]; rfl, split, rest, fun quote => ?_, by simp⟩
    obtain ⟨body, rfl⟩ := closed quote (by decide)
    exact ⟨body, rfl⟩
  case h_6 =>
    obtain ⟨ok, t, l', run, split, rest⟩ := readComment_advances h
    exact ⟨.comment, ok, t, l', by rw [run]; rfl, split, rest,
      fun _ => by simp [TokenType.Takes], by simp⟩
  case h_7 => exact literal .true (text "rue") (by simp [TokenType.Takes]) (by simp) rfl
  case h_8 => exact literal .false (text "alse") (by simp [TokenType.Takes]) (by simp) rfl
  case h_9 => exact literal .null (text "ull") (by simp [TokenType.Takes]) (by simp) rfl
  case h_13 =>
    split
    · rename_i begins
      obtain ⟨t, l', run, split, rest, all, stopped⟩ := skipWhile_ok (p := isNumberChar) h
      refine ⟨.number, true, t, l', by rw [readNumber, run]; rfl, split, rest, fun _ => ?_,
        fun _ => stopped⟩
      refine ⟨by simp, fun d mem => ?_⟩
      rcases List.mem_cons.mp mem with rfl | mem
      · exact isNumberChar_of_begins begins
      · exact all d mem
    · exact ⟨.error, false, [], l, rfl, rfl, h, by simp, by simp⟩
  all_goals exact single _ _ (by simp [TokenType.Takes]) (by decide) rfl

/-- `readToken` reads inside the document, and what it calls a token is one. -/
theorem readToken_ok (h : l ≠ []) :
    ∃ token rest, readToken l = .ok (token, rest) ∧ token.Read l rest := by
  obtain ⟨w, start, skip, rfl, inside, spaces, -⟩ := skipWhile_ok (p := isSpace) h
  rw [readToken, skipSpaces, skip]
  cases start with
  | nil => exact absurd rfl inside
  | cons c tail =>
    cases tail with
    | nil =>
      refine ⟨⟨.endOfStream, [c], [c]⟩, [c], rfl, rfl, by simp, ⟨w, rfl, spaces⟩, ?_, ?_, by simp⟩
      · simp [Token.text]
      · simp [Token.text, TokenType.Takes]
    | cons d tail =>
      obtain ⟨type, ok, t, rest, scan, split, inside', takes, stopped⟩ :=
        scanToken_ok (c := c) (l := d :: tail) (by simp)
      have place : c :: d :: tail = (c :: t) ++ rest := by rw [split]; rfl
      refine ⟨⟨if ok then type else .error, c :: d :: tail, rest⟩, rest, ?_, rfl, inside',
        ⟨w, rfl, spaces⟩, ?_, ?_, ?_⟩
      · change (scanToken c (d :: tail) >>= _) = _
        rw [scan]
        rfl
      · rw [place, Token.text_mk]
      · rw [place, Token.text_mk]
        cases ok with
        | true => exact takes rfl
        | false => exact List.cons_ne_nil _ _
      · cases ok with
        | true => exact stopped
        | false => simp

/-- A token other than the end of the document has taken a character. -/
theorem Token.Read.length_lt {token : Token} (h : token.Read l rest)
    (more : token.type ≠ .endOfStream) : rest.length < l.length := by
  obtain ⟨w, rfl, -⟩ := h.place
  have text : token.text ≠ [] := by
    have takes := h.takes
    cases hty : token.type with
    | endOfStream => exact absurd hty more
    | string =>
      obtain ⟨body, eq⟩ := hty ▸ takes
      simp [eq]
    | number => exact (hty ▸ takes).1
    | _ => simpa [hty, TokenType.Takes] using takes
  have := List.length_pos_of_ne_nil text
  have := congrArg List.length h.split
  simp only [List.length_append] at this ⊢
  omega

theorem Token.Read.suffix {token : Token} (h : token.Read l rest) : rest <:+ l := by
  obtain ⟨w, rfl, -⟩ := h.place
  rw [h.split]
  exact (List.suffix_append _ _).trans (List.suffix_append _ _)

theorem Token.Read.length_le {token : Token} (h : token.Read l rest) : rest.length ≤ l.length :=
  h.suffix.length_le

theorem readToken_read {token : Token} (h : readToken l = .ok (token, rest)) :
    token.Read l rest := by
  cases l with
  | nil => cases h
  | cons c tail =>
    obtain ⟨token', rest', run, read⟩ := readToken_ok (List.cons_ne_nil c tail)
    cases run.symm.trans h
    exact read

/-- What is read does not depend on spaces in front. -/
theorem readToken_append {w : Bytes} (spaces : ∀ c ∈ w, isSpace c) (h : l ≠ []) :
    readToken (w ++ l) = readToken l := by
  rw [readToken, readToken, skipSpaces, skipWhile_append spaces h]

end JiaTuanServer.Json

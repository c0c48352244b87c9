import JiaTuanServer.Library.Tokens
import JiaTuanServer.Request.Credentials
import Mathlib.Data.Bool.AllAny

/-!
# The statements as MySQL reads them

`CDBManager` puts its two arguments into the statement text as they are, without quotes. MySQL's
lexer is a parameter, with the rules of the manual that the statements need. Under these rules an
argument stands in the statement as one literal with its own text as value exactly if it is an
unsigned number in the form in which the server prints it.
-/

namespace JiaTuanServer.Request

open Tokens

/-- A token of a statement. Keywords, names and symbols are told apart by their spelling. -/
inductive Token where
  | literal (value : Bytes)
  | other (spelling : Bytes)
  deriving DecidableEq, Repr

/-! ## Lexical rules -/

def isLetter (c : UInt8) : Bool := (0x41 ≤ c && c ≤ 0x5A) || (0x61 ≤ c && c ≤ 0x7A)

/-- A property of the characters of a fixed text is tested character by character. -/
theorem of_mem_text {s : String} (p : UInt8 → Prop) [DecidablePred p]
    (test : (text s).all fun c => p c) {c : UInt8} (mem : c ∈ text s) : p c :=
  List.all_iff_forall_prop.mp test c mem

/-- Letters, digits and the underscore. -/
def isWordChar (c : UInt8) : Bool := isLetter c || isDigit c || c = 0x5F

/-- A keyword or an unquoted name. -/
def isWord (w : Bytes) : Bool := w.head?.any isLetter && w.all isWordChar

/-- The text ends here, or goes on with a character that ends every word and every number. -/
def Delimited (t : Bytes) : Prop := ∀ c ∈ t.head?, c ∈ text " ,()"

/-- The characters of unsigned numbers. -/
def isNumberChar (c : UInt8) : Bool := isDigit c || c ∈ text ".eE+-"

/-- An unsigned number: digits, with an optional fraction and an optional exponent. -/
structure IsNumber (s : Bytes) : Prop where
  parts : ∃ int frac exp : Bytes, s = int ++ frac ++ exp ∧ int.all isDigit ∧
    (frac = [] ∨ ∃ digits, frac = 0x2E :: digits ∧ digits.all isDigit) ∧
    (exp = [] ∨ ∃ mark sign digits, exp = mark :: (sign ++ digits) ∧ mark ∈ text "eE" ∧
      (sign = [] ∨ sign = text "+" ∨ sign = text "-") ∧ digits ≠ [] ∧ digits.all isDigit) ∧
    (int ≠ [] ∨ 1 < frac.length)

/-- How a literal with this value is written: an unsigned number, with `render` the text of its
value; a string between quotes, with anything before them; or `0x` or `0b` and its digits. Escapes
and digits are never shorter than the value they stand for. -/
inductive LiteralText (render : Bytes → Option Bytes) : Bytes → Bytes → Prop where
  | number {body value} : IsNumber body → render body = some value → LiteralText render body value
  | quoted {before content value q} : q ∈ text "'\"" → value.length ≤ content.length →
      LiteralText render (before ++ q :: content ++ [q]) value
  | based {mark digits value} : mark ∈ text "xXbB" → (∀ c ∈ digits, isWordChar c) →
      value.length ≤ digits.length → LiteralText render (0x30 :: mark :: digits) value

/-- The rules of MySQL's lexer on which the statements rest. -/
structure LexicalRules (read : Bytes → Reading UInt8 Token) (render : Bytes → Option Bytes) :
    Prop where
  nothing : read [] = .done
  blank : ∀ t, read (0x20 :: t) = read t
  symbol : ∀ c t, c ∈ text "(),=*" → read (c :: t) = .token (.other [c]) t
  word : ∀ w t, isWord w → Delimited t → read (w ++ t) = .token (.other w) t
  /-- A number is a literal, unless it is out of range. -/
  number : ∀ d t, IsNumber d → Delimited t →
    read (d ++ t) = match render d with
      | some value => .token (.literal value) t
      | none => .error
  /-- The text of a number's value is a number. -/
  render_number : ∀ d value, render d = some value → IsNumber value
  /-- A literal stands in the text, behind blanks and comments. -/
  literal : ∀ t value rest, read t = .token (.literal value) rest →
    ∃ skipped body, t = skipped ++ body ++ rest ∧ LiteralText render body value
  suffix : ∀ t k rest, read t = .token k rest → rest <:+ t

section Numbers

theorem IsNumber.chars {s : Bytes} (h : IsNumber s) : ∀ c ∈ s, isNumberChar c := by
  obtain ⟨int, frac, exp, rfl, int_digits, frac_form, exp_form, -⟩ := h.parts
  have digit {digits : Bytes} (all : digits.all isDigit) {c : UInt8} (mem : c ∈ digits) :
      isNumberChar c := by
    simp [isNumberChar, List.all_eq_true.mp all c mem]
  intro c mem
  simp only [List.mem_append] at mem
  rcases mem with (mem | mem) | mem
  · exact digit int_digits mem
  · rcases frac_form with rfl | ⟨digits, rfl, all⟩
    · simp at mem
    · rcases List.mem_cons.mp mem with rfl | mem
      · decide
      · exact digit all mem
  · rcases exp_form with rfl | ⟨mark, sign, digits, rfl, isMark, isSign, -, all⟩
    · simp at mem
    · rcases List.mem_cons.mp mem with rfl | mem
      · exact of_mem_text (isNumberChar ·) (by decide) isMark
      · rcases List.mem_append.mp mem with mem | mem
        · rcases isSign with rfl | rfl | rfl
          · simp at mem
          · exact of_mem_text (isNumberChar ·) (by decide) mem
          · exact of_mem_text (isNumberChar ·) (by decide) mem
        · exact digit all mem

/-- A number starts with a digit or the decimal point. -/
theorem IsNumber.head {s : Bytes} (h : IsNumber s) :
    ∃ c rest, s = c :: rest ∧ (isDigit c ∨ c = 0x2E) := by
  obtain ⟨int, frac, exp, rfl, int_digits, frac_form, -, nonempty⟩ := h.parts
  cases int with
  | cons c int => exact ⟨c, _, rfl, .inl (List.all_eq_true.mp int_digits c List.mem_cons_self)⟩
  | nil =>
    rcases frac_form with rfl | ⟨digits, rfl, -⟩
    · simp at nonempty
    · exact ⟨0x2E, _, rfl, .inr rfl⟩

/-- The digits of a numeral are a number. -/
theorem isNumber_of_digits {s : Bytes} (ne : s ≠ []) (digits : s.all isDigit) : IsNumber s :=
  ⟨s, [], [], by simp, digits, .inl rfl, .inl rfl, .inl ne⟩

end Numbers

/-! ## Statements with two arguments -/

/-- A piece of the fixed text of a statement. -/
inductive Piece where
  | word (w : Bytes)
  | symbol (c : UInt8)
  | blank

/-- The text of some pieces. -/
def spell : List Piece → Bytes
  | [] => []
  | .word w :: pieces => w ++ spell pieces
  | .symbol c :: pieces => c :: spell pieces
  | .blank :: pieces => 0x20 :: spell pieces

/-- Their tokens. -/
def tokensOf : List Piece → List Token
  | [] => []
  | .word w :: pieces => .other w :: tokensOf pieces
  | .symbol c :: pieces => .other [c] :: tokensOf pieces
  | .blank :: pieces => tokensOf pieces

/-- Every word is followed by a symbol or a blank that ends it. -/
def separated : List Piece → Bool
  | [] => true
  | .word w :: pieces =>
    isWord w && (spell pieces).head?.any (· ∈ text " ,()") && separated pieces
  | .symbol c :: pieces => c ∈ text "(),=*" && separated pieces
  | .blank :: pieces => separated pieces

/-- A statement text with two gaps. -/
structure Template where
  start : List Piece
  middle : List Piece
  stop : List Piece

namespace Template

def sql (T : Template) (userLogin userPass : Bytes) : Bytes :=
  spell T.start ++ userLogin ++ spell T.middle ++ userPass ++ spell T.stop

/-- The tokens of the template, with one literal for each argument. -/
def tokens (T : Template) (userLogin userPass : Bytes) : List Token :=
  tokensOf T.start ++ .literal userLogin ::
    (tokensOf T.middle ++ .literal userPass :: tokensOf T.stop)

/-- The tokens around the gaps do not depend on the arguments, and the text around them holds no
zero byte and, behind the first gap, no quote and no start of a based literal. -/
structure Sound (T : Template) : Prop where
  start : separated T.start
  middle : separated T.middle
  stop : separated T.stop
  nonzero : 0 ∉ spell T.start ∧ 0 ∉ spell T.middle ∧ 0 ∉ spell T.stop
  clean : ∀ c ∈ spell T.middle ++ spell T.stop, c ∉ text "'\"" ∧ c ≠ 0x30 ∧ c ∉ text "xXbB"
  middle_head : ∃ c ∈ (spell T.middle).head?, c ∈ text " ,"
  stop_head : ∀ c ∈ (spell T.stop).head?, c ∈ text " ,"

/-- A concrete template is tested. -/
theorem Sound.of_test {T : Template}
    (test : (separated T.start && separated T.middle && separated T.stop &&
      (spell T.start ++ (spell T.middle ++ spell T.stop)).all (· ≠ 0) &&
      (spell T.middle ++ spell T.stop).all fun c =>
        !(text "'\"").contains c && c ≠ 0x30 && !(text "xXbB").contains c) = true)
    (middle_head : ∃ c ∈ (spell T.middle).head?, c ∈ text " ,")
    (stop_head : ∀ c ∈ (spell T.stop).head?, c ∈ text " ,") : T.Sound := by
  simp only [Bool.and_eq_true, List.all_eq_true, List.mem_append, Bool.not_eq_true',
    List.contains_eq_mem, decide_eq_false_iff_not, decide_eq_true_eq] at test
  obtain ⟨⟨⟨⟨start, middle⟩, stop⟩, nonzero⟩, clean⟩ := test
  refine ⟨start, middle, stop, ⟨?_, ?_, ?_⟩, ?_, middle_head, stop_head⟩
  · exact fun mem => nonzero 0 (.inl mem) rfl
  · exact fun mem => nonzero 0 (.inr (.inl mem)) rfl
  · exact fun mem => nonzero 0 (.inr (.inr mem)) rfl
  · intro c mem
    obtain ⟨⟨quote, zero⟩, mark⟩ := clean c (List.mem_append.mp mem)
    exact ⟨quote, zero, mark⟩

end Template

/-- An unsigned number in the form in which the server prints its value. -/
def Canonical (render : Bytes → Option Bytes) (s : Bytes) : Prop :=
  IsNumber s ∧ render s = some s

section Reads

variable {read : Bytes → Reading UInt8 Token} {render : Bytes → Option Bytes} {T : Template}
  {userLogin userPass : Bytes}

/-- The tokens of the fixed text do not depend on what follows it. -/
theorem tokenises_spell (rules : LexicalRules read render) {pieces : List Piece}
    (sep : separated pieces) {t : Bytes} {ks : List Token} :
    Tokenises read (spell pieces ++ t) (tokensOf pieces ++ ks) ↔ Tokenises read t ks := by
  induction pieces with
  | nil => exact Iff.rfl
  | cons piece pieces ih =>
    cases piece with
    | word w =>
      simp only [separated, Bool.and_eq_true] at sep
      obtain ⟨⟨isWord, next⟩, sep⟩ := sep
      have delimited : Delimited (spell pieces ++ t) := by
        intro c hc
        rw [List.head?_append] at hc
        cases head : (spell pieces).head? with
        | none => simp [head] at next
        | some d =>
          rw [head] at hc next
          cases hc
          simpa using next
      rw [spell, tokensOf, List.append_assoc, List.cons_append,
        tokenises_cons (rules.word w _ isWord delimited), ih sep]
      simp
    | symbol c =>
      simp only [separated, Bool.and_eq_true, decide_eq_true_eq] at sep
      rw [spell, tokensOf, List.cons_append, List.cons_append,
        tokenises_cons (rules.symbol c _ sep.1), ih sep.2]
      simp
    | blank =>
      simp only [separated] at sep
      rw [spell, tokensOf, List.cons_append, Tokenises.congr (rules.blank _), ih sep]

theorem IsNumber.nonzero {s : Bytes} (h : IsNumber s) : 0 ∉ s := by
  intro mem
  exact absurd (h.chars 0 mem) (by decide)

theorem Delimited.append {a b : Bytes} (head : ∃ c ∈ a.head?, c ∈ text " ,") :
    Delimited (a ++ b) := by
  obtain ⟨c, hc, mem⟩ := head
  intro d hd
  rw [List.head?_append, hc] at hd
  cases hd
  exact of_mem_text (· ∈ text " ,()") (by decide) mem

theorem Delimited.of_stop {a : Bytes} (head : ∀ c ∈ a.head?, c ∈ text " ,") : Delimited a :=
  fun c hc => of_mem_text (· ∈ text " ,()") (by decide) (head c hc)

/-- A canonical number is read as a literal with its own text as value. -/
theorem LexicalRules.canonical (rules : LexicalRules read render) {d t : Bytes}
    (canonical : Canonical render d) (delimited : Delimited t) :
    read (d ++ t) = .token (.literal d) t := by
  rw [rules.number d t canonical.1 delimited, canonical.2]

/-- A number that is read as a literal with its own text as value is canonical. -/
theorem LexicalRules.canonical_of_read (rules : LexicalRules read render) {d t rest : Bytes}
    (number : IsNumber d) (delimited : Delimited t)
    (reads : read (d ++ t) = .token (.literal d) rest) : Canonical render d ∧ rest = t := by
  rw [rules.number d t number delimited] at reads
  cases value : render d with
  | none =>
    rw [value] at reads
    cases reads
  | some v =>
    rw [value] at reads
    cases reads
    exact ⟨⟨number, value⟩, rfl⟩

/-- Canonical arguments give the tokens of the template. -/
theorem reads_of_canonical (rules : LexicalRules read render) (sound : T.Sound)
    (login : Canonical render userLogin) (pass : Canonical render userPass) :
    Tokenises read (cString (T.sql userLogin userPass)) (T.tokens userLogin userPass) := by
  have nonzero : 0 ∉ T.sql userLogin userPass := by
    simp [Template.sql, sound.nonzero, login.1.nonzero, pass.1.nonzero]
  rw [cString_eq_self nonzero]
  have shape : T.sql userLogin userPass =
      spell T.start ++ (userLogin ++ (spell T.middle ++ (userPass ++ spell T.stop))) := by
    simp [Template.sql]
  rw [shape, Template.tokens, tokenises_spell rules sound.start]
  refine .token (rules.canonical login (.append sound.middle_head)) ?_
  rw [tokenises_spell rules sound.middle]
  refine .token (rules.canonical pass (.of_stop sound.stop_head)) ?_
  have behind := (tokenises_spell rules sound.stop).mpr (tokenises_nil rules.nothing)
  rwa [List.append_nil, List.append_nil] at behind

/-- The characters of a based literal do not end a gap. -/
theorem based_stops {mark : UInt8} {digits : Bytes} (isMark : mark ∈ text "xXbB")
    (digit : ∀ c ∈ digits, isWordChar c) {c : UInt8} (separator : c ∈ text " ,") :
    c ∉ 0x30 :: mark :: digits := by
  have notWord : ¬ isWordChar c :=
    of_mem_text (¬ isWordChar ·) (by decide) separator
  intro mem
  rcases List.mem_cons.mp mem with rfl | mem
  · exact notWord (by decide)
  · rcases List.mem_cons.mp mem with rfl | mem
    · exact notWord (of_mem_text (isWordChar ·) (by decide) isMark)
    · exact notWord (digit c mem)

/-- A literal with the value of the second argument that is read behind the first gap is written as
a number: any other form needs more room than the gap has, and cannot lie outside it. -/
theorem isNumber_of_second (rules : LexicalRules read render) (sound : T.Sound)
    {u cut rest t : Bytes} (reads : read t = .token (.literal userPass) rest)
    (place : spell T.middle ++ userPass ++ spell T.stop = u ++ t ++ cut) : IsNumber userPass := by
  obtain ⟨skipped, body, rfl, form⟩ := rules.literal _ _ _ reads
  have outside (c : UInt8) (h : c ∈ text "'\"" ∨ c = 0x30) :
      c ∉ spell T.middle ∧ c ∉ spell T.stop := by
    have dirty : c ∉ spell T.middle ++ spell T.stop := fun mem =>
      h.elim (sound.clean c mem).1 (sound.clean c mem).2.1
    exact ⟨fun mem => dirty (List.mem_append_left _ mem),
      fun mem => dirty (List.mem_append_right _ mem)⟩
  cases form with
  | number number value => exact rules.render_number _ _ value
  | @quoted before content value q quote le =>
    exfalso
    have fits := length_delimited_le (u := u ++ skipped ++ before) (v := content) (w := rest ++ cut)
      (by simpa using place) (outside q (.inl quote)).1 (outside q (.inl quote)).2
    omega
  | @based mark digits value isMark digit le =>
    exfalso
    have eq : spell T.middle ++ userPass ++ spell T.stop =
        (u ++ skipped) ++ (0x30 :: mark :: digits) ++ (rest ++ cut) := by simpa using place
    have first : (spell T.middle).length ≤ (u ++ skipped).length :=
      length_le_of_notMem (b := userPass ++ spell T.stop) (w := mark :: digits ++ (rest ++ cut))
        (by simpa using eq) (outside 0x30 (.inr rfl)).1
    have start : (u ++ skipped).length < (spell T.middle ++ userPass).length :=
      length_lt_of_notMem (w := mark :: digits ++ (rest ++ cut)) (by simpa using eq)
        (outside 0x30 (.inr rfl)).2
    have fits := length_run_le eq first (by simpa using start) fun c hc =>
      based_stops isMark digit (sound.stop_head c hc)
    simp only [List.length_cons] at fits
    omega

/-- If the second argument is a number, a literal with the value of the first argument that is read
from the first gap on is written as a number. -/
theorem isNumber_of_first (rules : LexicalRules read render) (sound : T.Sound)
    (second : IsNumber userPass) {cut rest t : Bytes}
    (reads : read t = .token (.literal userLogin) rest)
    (place : userLogin ++ (spell T.middle ++ userPass ++ spell T.stop) = t ++ cut) :
    IsNumber userLogin := by
  obtain ⟨skipped, body, rfl, form⟩ := rules.literal _ _ _ reads
  have outside (c : UInt8) (h : c ∈ text "'\"" ∨ c ∈ text "xXbB") :
      c ∉ spell T.middle ++ userPass ++ spell T.stop := by
    have notNumber : ¬ isNumberChar c :=
      h.elim (of_mem_text (¬ isNumberChar ·) (by decide))
        (of_mem_text (¬ isNumberChar ·) (by decide))
    simp only [List.mem_append, not_or]
    have dirty : c ∉ spell T.middle ++ spell T.stop := fun mem =>
      h.elim (sound.clean c mem).1 (sound.clean c mem).2.2
    exact ⟨⟨fun mem => dirty (List.mem_append_left _ mem),
      fun mem => notNumber (second.chars c mem)⟩, fun mem => dirty (List.mem_append_right _ mem)⟩
  cases form with
  | number number value => exact rules.render_number _ _ value
  | @quoted before content value q quote le =>
    exfalso
    have fits := length_delimited_le (a := []) (u := skipped ++ before) (v := content)
      (w := rest ++ cut) (by simpa using place) List.not_mem_nil (outside q (.inl quote))
    omega
  | @based mark digits value isMark digit le =>
    exfalso
    have eq : [] ++ userLogin ++ (spell T.middle ++ userPass ++ spell T.stop) =
        skipped ++ (0x30 :: mark :: digits) ++ (rest ++ cut) := by simpa using place
    have start : (skipped ++ [0x30]).length < ([] ++ userLogin).length :=
      length_lt_of_notMem (w := digits ++ (rest ++ cut)) (by simpa using eq)
        (outside mark (.inr isMark))
    have fits := length_run_le eq (Nat.zero_le _) (by simp at start ⊢; omega) fun c hc => by
      obtain ⟨d, hd, separator⟩ := sound.middle_head
      rw [List.append_assoc, List.head?_append, hd] at hc
      cases hc
      exact based_stops isMark digit separator
    simp only [List.length_cons] at fits
    omega

/-- The first literal takes at least as much of the text as its value is long. -/
theorem room_of_first (rules : LexicalRules read render) (sound : T.Sound) {rest : Bytes}
    (reads : read (cString (userLogin ++ (spell T.middle ++ userPass ++ spell T.stop))) =
      .token (.literal userLogin) rest) :
    userLogin.length + rest.length ≤
      (cString (userLogin ++ (spell T.middle ++ userPass ++ spell T.stop))).length := by
  obtain ⟨skipped, body, place, form⟩ := rules.literal _ _ _ reads
  have total := congrArg List.length place
  simp only [List.length_append] at total
  cases form with
  | number number value =>
    have first : IsNumber userLogin := rules.render_number _ _ value
    have cut : cString (userLogin ++ (spell T.middle ++ userPass ++ spell T.stop)) =
        userLogin ++ (spell T.middle ++ cString (userPass ++ spell T.stop)) := by
      rw [cString_append first.nonzero, List.append_assoc, cString_append sound.nonzero.2.1]
    rw [cut] at reads ⊢
    rw [(rules.canonical_of_read first (.append sound.middle_head) reads).2, ← List.length_append]
  | quoted quote le =>
    simp only [List.length_append, List.length_cons, List.length_nil] at total
    omega
  | based isMark digit le =>
    simp only [List.length_cons] at total
    omega

/-- The tokens of the template come from canonical arguments only. -/
theorem canonical_of_reads (rules : LexicalRules read render) (sound : T.Sound)
    (reads : Tokenises read (cString (T.sql userLogin userPass)) (T.tokens userLogin userPass)) :
    Canonical render userLogin ∧ Canonical render userPass := by
  set rest := spell T.middle ++ userPass ++ spell T.stop with hrest
  have shape : T.sql userLogin userPass = spell T.start ++ (userLogin ++ rest) := by
    simp [Template.sql, hrest]
  rw [shape, cString_append sound.nonzero.1, Template.tokens,
    tokenises_spell rules sound.start] at reads
  -- What a zero byte in an argument cuts off the statement.
  obtain ⟨cut, whole⟩ : ∃ cut, userLogin ++ rest = cString (userLogin ++ rest) ++ cut :=
    ⟨_, List.takeWhile_append_dropWhile.symm⟩
  cases reads with
  | @token _ rest₁ _ _ reads₁ tail₁ =>
    have room := room_of_first rules sound reads₁
    obtain ⟨rest₂, suffix₂, found⟩ := tail₁.behind rules.suffix
    cases found with
    | @token _ rest₃ _ _ reads₂ tail₂ =>
      -- The second literal is read behind the first argument.
      have second : IsNumber userPass := by
        obtain ⟨u, hu⟩ := suffix₂.trans (rules.suffix _ _ _ reads₁)
        have long : userLogin.length ≤ u.length := by
          have total := congrArg List.length hu
          have shorter := suffix₂.length_le
          rw [← hrest, ← hu] at room
          simp only [List.length_append] at room
          omega
        rw [← hu, List.append_assoc] at whole
        obtain ⟨u', rfl⟩ := List.prefix_of_prefix_length_le (List.prefix_append _ _)
          (whole ▸ List.prefix_append _ _ : u <+: userLogin ++ rest) long
        rw [List.append_assoc, List.append_cancel_left_eq, ← List.append_assoc] at whole
        exact isNumber_of_second rules sound reads₂ whole
      have first : IsNumber userLogin := isNumber_of_first rules sound second reads₁ whole
      -- Without zero bytes the whole statement is sent, and both literals are read in their places.
      have nonzero : 0 ∉ userPass ++ spell T.stop := by simp [second.nonzero, sound.nonzero.2.2]
      have sent : cString (userLogin ++ rest) =
          userLogin ++ (spell T.middle ++ (userPass ++ spell T.stop)) := by
        rw [hrest, cString_append first.nonzero, List.append_assoc,
          cString_append sound.nonzero.2.1, cString_eq_self nonzero]
      rw [sent] at reads₁
      obtain ⟨login, rfl⟩ := rules.canonical_of_read first (.append sound.middle_head) reads₁
      rw [tokenises_spell rules sound.middle] at tail₁
      cases tail₁ with
      | token reads₃ tail₃ =>
        exact ⟨login, (rules.canonical_of_read second (.of_stop sound.stop_head) reads₃).1⟩

/-- A statement of canonical arguments determines them. -/
theorem args_of_sql (rules : LexicalRules read render) (sound : T.Sound) {l p l' p' : Bytes}
    (args : Canonical render l ∧ Canonical render p)
    (args' : Canonical render l' ∧ Canonical render p') (same : T.sql l p = T.sql l' p') :
    l = l' ∧ p = p' := by
  have reads := reads_of_canonical rules sound args.1 args.2
  rw [same] at reads
  have tokens := reads.unique (reads_of_canonical rules sound args'.1 args'.2)
  simp only [Template.tokens, List.append_cancel_left_eq, List.cons.injEq, Token.literal.injEq]
    at tokens
  exact ⟨tokens.1, tokens.2.1⟩

end Reads

/-! ## The two statements -/

def registerTemplate : Template where
  start := [.word (text "insert"), .blank, .word (text "into"), .blank, .word (text "jt_users"),
    .blank, .symbol 0x28, .word (text "user_login"), .symbol 0x2C, .word (text "user_pass"),
    .symbol 0x2C, .word (text "user_registered"), .symbol 0x29, .blank, .word (text "values"),
    .blank, .symbol 0x28]
  middle := [.symbol 0x2C]
  stop := [.symbol 0x2C, .word (text "now"), .symbol 0x28, .symbol 0x29, .symbol 0x29]

def loginTemplate : Template where
  start := [.word (text "select"), .blank, .symbol 0x2A, .blank, .word (text "from"), .blank,
    .word (text "jt_users"), .blank, .word (text "where"), .blank, .word (text "user_login"),
    .blank, .symbol 0x3D, .blank]
  middle := [.blank, .word (text "and"), .blank, .word (text "user_pass"), .blank, .symbol 0x3D,
    .blank]
  stop := []

theorem registerTemplate_sound : registerTemplate.Sound := by
  refine .of_test (by decide +kernel) ⟨0x2C, rfl, by decide⟩ fun c hc => ?_
  cases hc
  decide

theorem loginTemplate_sound : loginTemplate.Sound :=
  .of_test (by decide +kernel) ⟨0x20, rfl, by decide⟩ nofun

theorem registerSql_eq (userLogin userPass : Bytes) :
    CDBManager.registerSql userLogin userPass = registerTemplate.sql userLogin userPass := by
  have start : spell registerTemplate.start =
      text "insert into jt_users (user_login,user_pass,user_registered) values (" := by
    decide +kernel
  have middle : spell registerTemplate.middle = text "," := by decide
  have stop : spell registerTemplate.stop = text ",now())" := by decide
  rw [CDBManager.registerSql, Template.sql, start, middle, stop]

theorem loginSql_eq (userLogin userPass : Bytes) :
    CDBManager.loginSql userLogin userPass = loginTemplate.sql userLogin userPass := by
  have start : spell loginTemplate.start = text "select * from jt_users where user_login = " := by
    decide +kernel
  have middle : spell loginTemplate.middle = text " and user_pass = " := by decide
  rw [CDBManager.loginSql, Template.sql, start, middle]
  exact (List.append_nil _).symm

/-- The statement that is sent, read by MySQL, is the template with the two arguments as literals,
if and only if both arguments are unsigned numbers as the server prints them. On such arguments the
statement determines them. -/
theorem statements_read_iff {read : Bytes → Reading UInt8 Token} {render : Bytes → Option Bytes}
    (rules : LexicalRules read render) :
    (∀ userLogin userPass,
      (Tokenises read (cString (CDBManager.registerSql userLogin userPass))
          (registerTemplate.tokens userLogin userPass) ↔
        Canonical render userLogin ∧ Canonical render userPass) ∧
      (Tokenises read (cString (CDBManager.loginSql userLogin userPass))
          (loginTemplate.tokens userLogin userPass) ↔
        Canonical render userLogin ∧ Canonical render userPass)) ∧
    ∀ l p l' p', Canonical render l → Canonical render p → Canonical render l' →
      Canonical render p' →
      CDBManager.registerSql l p = CDBManager.registerSql l' p' ∨
        CDBManager.loginSql l p = CDBManager.loginSql l' p' → l = l' ∧ p = p' := by
  refine ⟨fun l p => ⟨⟨?_, ?_⟩, ⟨?_, ?_⟩⟩, ?_⟩
  · exact canonical_of_reads rules registerTemplate_sound
  · exact fun h => reads_of_canonical rules registerTemplate_sound h.1 h.2
  · rw [loginSql_eq]
    exact canonical_of_reads rules loginTemplate_sound
  · rw [loginSql_eq]
    exact fun h => reads_of_canonical rules loginTemplate_sound h.1 h.2
  · rintro l p l' p' hl hp hl' hp' (same | same)
    · rw [registerSql_eq, registerSql_eq] at same
      exact args_of_sql rules registerTemplate_sound ⟨hl, hp⟩ ⟨hl', hp'⟩ same
    · rw [loginSql_eq, loginSql_eq] at same
      exact args_of_sql rules loginTemplate_sound ⟨hl, hp⟩ ⟨hl', hp'⟩ same

/-! ## A lexer of plain statements -/

/-- Reads words, symbols, strings without escapes and numerals. -/
def scan : Bytes → Reading UInt8 Token
  | [] => .done
  | c :: t =>
    if c = 0x20 then scan t
    else if c ∈ text "(),=*" then .token (.other [c]) t
    else if isLetter c then
      .token (.other ((c :: t).takeWhile isWordChar)) ((c :: t).dropWhile isWordChar)
    else if c ∈ text "'\"" then
      match t.dropWhile (· ≠ c) with
      | [] => .error
      | _ :: rest => .token (.literal (t.takeWhile (· ≠ c))) rest
    else if isNumeral ((c :: t).takeWhile isNumberChar) then
      .token (.literal ((c :: t).takeWhile isNumberChar)) ((c :: t).dropWhile isNumberChar)
    else .error

/-- It knows the values of numerals only. -/
def renderNumeral (d : Bytes) : Option Bytes := if isNumeral d then some d else none

theorem isNumber_of_isNumeral {d : Bytes} (h : isNumeral d) : IsNumber d := by
  simp only [isNumeral, Bool.and_eq_true, decide_eq_true_eq] at h
  exact isNumber_of_digits h.1.1 h.1.2

/-- A run of characters that the text behind it does not continue. -/
theorem span_run {P : UInt8 → Bool} {run t : Bytes} (all : ∀ c ∈ run, P c)
    (stop : ∀ c ∈ t.head?, ¬ P c) :
    (run ++ t).takeWhile P = run ∧ (run ++ t).dropWhile P = t := by
  rw [List.takeWhile_append_of_pos all, List.dropWhile_append_of_pos all]
  cases t with
  | nil => simp
  | cons c t =>
    have := stop c rfl
    simp [this]

theorem Delimited.stops {t : Bytes} (h : Delimited t) {P : UInt8 → Bool}
    (none : ∀ c ∈ text " ,()", ¬ P c) : ∀ c ∈ t.head?, ¬ P c := fun c hc => none c (h c hc)

theorem scan_word {w t : Bytes} (word : isWord w) (delimited : Delimited t) :
    scan (w ++ t) = .token (.other w) t := by
  simp only [isWord, Bool.and_eq_true] at word
  cases w with
  | nil => simp at word
  | cons c w =>
    have letter : isLetter c := by simpa using word.1
    have plain : c ≠ 0x20 ∧ c ∉ text "(),=*" := by
      refine ⟨?_, fun mem => ?_⟩
      · rintro rfl
        exact absurd letter (by decide)
      · exact absurd letter (of_mem_text (¬ isLetter ·) (by decide) mem)
    obtain ⟨taken, dropped⟩ := span_run (List.all_eq_true.mp word.2)
      (delimited.stops (P := isWordChar) fun _ => of_mem_text (¬ isWordChar ·) (by decide))
    rw [List.cons_append] at taken dropped ⊢
    rw [scan, if_neg plain.1, if_neg plain.2, if_pos letter, taken, dropped]

theorem digit_not_letter {c : UInt8} (digit : isDigit c) : ¬ isLetter c := by
  simp only [isDigit, isLetter, Bool.and_eq_true, Bool.or_eq_true, decide_eq_true_eq,
    UInt8.le_iff_toNat_le] at digit ⊢
  have : (0x30 : UInt8).toNat = 48 := rfl
  have : (0x39 : UInt8).toNat = 57 := rfl
  have : (0x41 : UInt8).toNat = 65 := rfl
  have : (0x61 : UInt8).toNat = 97 := rfl
  omega

theorem scan_number {d t : Bytes} (number : IsNumber d) (delimited : Delimited t) :
    scan (d ++ t) = match renderNumeral d with
      | some value => .token (.literal value) t
      | none => .error := by
  obtain ⟨taken, dropped⟩ := span_run number.chars
    (delimited.stops (P := isNumberChar) fun _ => of_mem_text (¬ isNumberChar ·) (by decide))
  obtain ⟨c, rest, rfl, start⟩ := number.head
  have plain : c ≠ 0x20 ∧ c ∉ text "(),=*" ∧ ¬ isLetter c ∧ c ∉ text "'\"" := by
    rcases start with digit | rfl
    · have other : ∀ d, ¬ isDigit d → c ≠ d := by
        rintro d no rfl
        exact no digit
      refine ⟨other _ (by decide), fun mem => ?_, digit_not_letter digit, fun mem => ?_⟩
      · exact absurd digit (of_mem_text (¬ isDigit ·) (by decide) mem)
      · exact absurd digit (of_mem_text (¬ isDigit ·) (by decide) mem)
    · decide
  rw [List.cons_append] at taken dropped ⊢
  rw [scan, if_neg plain.1, if_neg plain.2.1, if_neg plain.2.2.1, if_neg plain.2.2.2, taken,
    dropped, renderNumeral]
  split <;> rfl

/-- What the lexer reads stands in the text behind blanks, and a literal is written as one. -/
theorem scan_cases {t rest : Bytes} {k : Token} (reads : scan t = .token k rest) :
    ∃ skipped body, t = skipped ++ body ++ rest ∧
      ∀ value, k = .literal value → LiteralText renderNumeral body value := by
  induction t with
  | nil => cases reads
  | cons c t ih =>
    unfold scan at reads
    split at reads
    next =>
      obtain ⟨skipped, body, rfl, form⟩ := ih reads
      exact ⟨c :: skipped, body, rfl, form⟩
    split at reads
    next =>
      cases reads
      exact ⟨[], [c], rfl, nofun⟩
    split at reads
    next =>
      cases reads
      exact ⟨[], _, List.takeWhile_append_dropWhile.symm, nofun⟩
    split at reads
    next quote =>
      split at reads
      next => cases reads
      next d rest' dropped =>
        cases reads
        have closes : d = c := by
          have stops := List.head?_dropWhile_not (· ≠ c) t
          rw [dropped] at stops
          simpa using stops
        subst closes
        have whole : t = t.takeWhile (· ≠ d) ++ d :: rest := by
          conv_lhs => rw [← List.takeWhile_append_dropWhile (p := (· ≠ d)) (l := t), dropped]
        refine ⟨[], d :: t.takeWhile (· ≠ d) ++ [d], ?_, ?_⟩
        · conv_lhs => rw [whole]
          simp
        · rintro value ⟨⟩
          exact @LiteralText.quoted _ [] _ _ _ quote le_rfl
    split at reads
    next numeral =>
      cases reads
      refine ⟨[], _, List.takeWhile_append_dropWhile.symm, ?_⟩
      rintro value ⟨⟩
      exact .number (isNumber_of_isNumeral numeral) (if_pos numeral)
    next => cases reads

theorem scan_rules : LexicalRules scan renderNumeral where
  nothing := rfl
  blank t := by simp [scan]
  symbol c t mem := by
    have : c ≠ 0x20 := by
      rintro rfl
      exact absurd mem (by decide)
    rw [scan, if_neg this, if_pos mem]
  word _ _ := scan_word
  number _ _ := scan_number
  render_number d value h := by
    unfold renderNumeral at h
    split at h
    next numeral =>
      cases h
      exact isNumber_of_isNumeral numeral
    next => cases h
  literal _ value _ reads := by
    obtain ⟨skipped, body, place, form⟩ := scan_cases reads
    exact ⟨skipped, body, place, form value rfl⟩
  suffix _ _ _ reads := by
    obtain ⟨skipped, body, place, -⟩ := scan_cases reads
    exact ⟨skipped ++ body, place.symm⟩

theorem canonical_of_isNumeral {s : Bytes} (h : isNumeral s) : Canonical renderNumeral s :=
  ⟨isNumber_of_isNumeral h, if_pos h⟩

theorem statements_read_numerals :
    Tokenises scan (cString (CDBManager.loginSql (text "13814381438") (text "123456")))
      (loginTemplate.tokens (text "13814381438") (text "123456")) :=
  ((statements_read_iff scan_rules).1 _ _).2.mpr
    ⟨canonical_of_isNumeral (by decide), canonical_of_isNumeral (by decide)⟩

/-- A password with a condition in it changes the statement, and a comma can move from one argument
to the other. -/
theorem arguments_reach_statement :
    ¬ Tokenises scan (cString (CDBManager.loginSql (text "1") (text "0 or 1")))
        (loginTemplate.tokens (text "1") (text "0 or 1")) ∧
      Tokenises scan (cString (CDBManager.loginSql (text "1") (text "0 or 1")))
        (loginTemplate.tokens (text "1") (text "0") ++
          [.other (text "or"), .literal (text "1")]) ∧
      CDBManager.registerSql (text "1,2") (text "3") =
        CDBManager.registerSql (text "1") (text "2,3") := by
  refine ⟨fun reads => ?_, ?_, by decide +kernel⟩
  · rw [loginSql_eq] at reads
    have blank := (canonical_of_reads scan_rules loginTemplate_sound reads).2.1.chars 0x20
      (by decide)
    exact absurd blank (by decide)
  · have sent : cString (CDBManager.loginSql (text "1") (text "0 or 1")) =
        spell loginTemplate.start ++ (text "1" ++ (spell loginTemplate.middle ++
          (text "0" ++ 0x20 :: (text "or" ++ 0x20 :: (text "1" ++ []))))) := by decide +kernel
    have tokens : loginTemplate.tokens (text "1") (text "0") ++
          [.other (text "or"), .literal (text "1")] =
        tokensOf loginTemplate.start ++ .literal (text "1") :: (tokensOf loginTemplate.middle ++
          [.literal (text "0"), .other (text "or"), .literal (text "1")]) := by decide +kernel
    have blank {t : Bytes} : Delimited (0x20 :: t) := by
      rintro c ⟨⟩
      decide
    rw [sent, tokens, tokenises_spell scan_rules loginTemplate_sound.start]
    refine .token (scan_rules.canonical (canonical_of_isNumeral (by decide))
      (.append loginTemplate_sound.middle_head)) ?_
    rw [tokenises_spell scan_rules loginTemplate_sound.middle]
    refine .token (scan_rules.canonical (canonical_of_isNumeral (by decide)) blank) ?_
    rw [Tokenises.congr (scan_rules.blank _)]
    refine .token (scan_rules.word _ _ (by decide) blank) ?_
    rw [Tokenises.congr (scan_rules.blank _)]
    exact .token (scan_rules.canonical (canonical_of_isNumeral (by decide)) nofun)
      (.done scan_rules.nothing)

end JiaTuanServer.Request

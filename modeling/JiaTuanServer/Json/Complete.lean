import JiaTuanServer.Json.Numbers
import JiaTuanServer.Json.Safety
import JiaTuanServer.Json.Strings

/-!
# Every JSON text is read

A text of the grammar is read to the value of its tree, whatever stands behind it, and leaves what
stands behind it. A later member of an object replaces an earlier one of the same name.
-/

namespace JiaTuanServer.Json

open Request JsonText Fuelled

/-! ## The value of a tree -/

section ValueOf

variable (scan : Bytes → Option UInt64)

mutual

/-- The value of a tree, unless the text of a number in it has no value. -/
def valueOf : Tree → Option Value
  | .null => some .null
  | .bool value => some (.bool value)
  | .number n => numberValue scan n
  | .string s => some (stringValue s)
  | .array elements => (elementsOf elements).map .array
  | .object members => (membersOf [] members).map .object

def elementsOf : List Tree → Option (List Value)
  | [] => some []
  | v :: vs => do
    let value ← valueOf v
    let values ← elementsOf vs
    return value :: values

/-- The members so far, and then the others. -/
def membersOf (members : List (Bytes × Value)) : List (Bytes × Tree) → Option (List (Bytes × Value))
  | [] => some members
  | (name, v) :: ms => do
    let value ← valueOf v
    membersOf (setMember name value members) ms

end

end ValueOf

/-! ## Tokens -/

variable {l u rest : Location} {w : Bytes} {token : Token}

theorem isSpace_of_gap (gap : Gap w) : ∀ c ∈ w, isSpace c := by
  intro c mem
  have space : ∀ c ∈ [0x20, 0x09, 0x0A, 0x0D], isSpace c :=
    List.all_iff_forall_prop.mp (by decide)
  exact space c (gap c mem)

theorem readToken_gap (gap : Gap w) (more : l ≠ []) : readToken (w ++ l) = readToken l :=
  readToken_append (isSpace_of_gap gap) more

/-- A token of one character. -/
theorem readToken_single {c : UInt8} {type : TokenType} (visible : ¬ isSpace c) (more : u ≠ [])
    (scan : scanToken c u = .ok (type, true, u)) :
    readToken (c :: u) = .ok (⟨type, c :: u, u⟩, u) := by
  have start : skipSpaces (c :: u) = .ok (c :: u) := skipWhile_stop visible
  rw [readToken, start]
  change (getNextChar (c :: u) >>= _) = _
  rw [getNextChar_cons more]
  change (scanToken c u >>= _) = _
  rw [scan]
  rfl

theorem matchText_append (pattern : Bytes) (more : u ≠ []) :
    matchText pattern (pattern ++ u) = (true, u) := by
  have := List.length_pos_of_ne_nil more
  have long : ¬ (pattern ++ u).length - 1 < pattern.length := by
    rw [List.length_append]
    omega
  rw [matchText, if_neg long, List.take_left, if_pos rfl, List.drop_left]

/-- One of the three names. -/
theorem readToken_literal {c : UInt8} {pattern : Bytes} {type : TokenType} (visible : ¬ isSpace c)
    (more : u ≠ []) (scan : ∀ l, scanToken c l =
      .ok (type, (matchText pattern l).1, (matchText pattern l).2)) :
    readToken (c :: pattern ++ u) = .ok (⟨type, c :: pattern ++ u, u⟩, u) := by
  have start : skipSpaces (c :: pattern ++ u) = .ok (c :: pattern ++ u) := skipWhile_stop visible
  rw [readToken, start]
  change (getNextChar (c :: (pattern ++ u)) >>= _) = _
  rw [getNextChar_cons (by simp [more])]
  change (scanToken c (pattern ++ u) >>= _) = _
  rw [scan, matchText_append pattern more]
  rfl

theorem skipComments_other (other : token.type ≠ .comment) :
    skipComments token rest = .ok (token, rest) := by
  rw [skipComments, if_neg other]
  rfl

theorem skipCommentTokens_eq (run : readToken l = .ok (token, rest))
    (other : token.type ≠ .comment) : skipCommentTokens l = .ok (token, rest) := by
  rw [skipCommentTokens, run]
  exact skipComments_other other

/-- The token of a text behind a gap. -/
theorem skipCommentTokens_text {t : Bytes} {type : TokenType} (gap : Gap w) (more : u ≠ [])
    (run : readToken (t ++ u) = .ok (⟨type, t ++ u, u⟩, u)) (other : type ≠ .comment) :
    skipCommentTokens (w ++ t ++ u) = .ok (⟨type, t ++ u, u⟩, u) := by
  refine skipCommentTokens_eq ?_ other
  rw [List.append_assoc, readToken_gap gap (by simp [more]), run]

theorem stopped_gap {c : UInt8} (gap : Gap w) (other : ¬ isNumberChar c) :
    Stopped isNumberChar (w ++ c :: u) := by
  have space : ∀ c ∈ [0x20, 0x09, 0x0A, 0x0D], ¬ isNumberChar c :=
    List.all_iff_forall_prop.mp (by decide)
  refine .inr fun d head => ?_
  cases w with
  | nil =>
    cases head
    exact other
  | cons e w =>
    cases head
    exact space d (gap d List.mem_cons_self)

/-! ## Values -/

variable {scan : Bytes → Option UInt64} {errors : List ErrorInfo} {fuel bound : ℕ}

/-- What completeness says of a phrase and its text. -/
def Completes (scan : Bytes → Option UInt64) : Phrase → Bytes → Prop
  | .value v, t => ∀ value, valueOf scan v = some value → ∀ w u errors fuel, Gap w → u ≠ [] →
    (∀ n, v = .number n → Stopped isNumberChar u) → (w ++ t ++ u).length ≤ fuel →
    Gives (readValue scan fuel ⟨w ++ t ++ u, errors⟩) (some value, ⟨u, errors⟩)
  | .elements vs, t => ∀ values, elementsOf scan vs = some values → ∀ before u errors fuel bound,
    u ≠ [] → (t ++ 0x5D :: u).length ≤ fuel → (t ++ 0x5D :: u).length ≤ bound →
    Gives (arrayLoop (readValue scan bound) fuel before ⟨t ++ 0x5D :: u, errors⟩)
      (some (.array (before ++ values)), ⟨u, errors⟩)
  | .members ms, t => ∀ before after, membersOf scan before ms = some after →
    ∀ name u errors fuel bound, u ≠ [] → (t ++ 0x7D :: u).length ≤ fuel →
    (t ++ 0x7D :: u).length ≤ bound →
    Gives (objectLoop (readValue scan bound) fuel name before ⟨t ++ 0x7D :: u, errors⟩)
      (some (.object after), ⟨u, errors⟩)

theorem fuel_pos {t : Bytes} (more : u ≠ []) (fuelled : (w ++ t ++ u).length ≤ fuel) :
    ∃ fuel', fuel = fuel' + 1 := by
  have := List.length_pos_of_ne_nil more
  rw [List.length_append] at fuelled
  exact ⟨fuel - 1, by omega⟩

theorem completes_number (n : Number) : Completes scan (.value (.number n)) n.text := by
  intro value eq w u errors fuel gap more stopped fuelled
  obtain ⟨fuel, rfl⟩ := fuel_pos more fuelled
  obtain ⟨c, t, whole, begins⟩ := text_begins n
  have all : ∀ d ∈ t, isNumberChar d := by
    intro d mem
    exact isNumberChar_text d (whole ▸ List.mem_cons_of_mem c mem)
  have run := readToken_number begins all more (stopped n rfl)
  rw [← whole] at run
  rw [valueOf] at eq
  have decoded : decodeNumber scan ⟨.number, n.text ++ u, u⟩ = .ok (.ok value) :=
    decodeNumber_text (Token.text_mk ..) eq
  rw [readValue, skipCommentTokens_text gap more run (by decide)]
  change Gives (liftM (decodeNumber scan _) >>= _) _
  rw [decoded]
  rfl

theorem completes_string {s t : Bytes} (quoted : Quoted s t) :
    Completes scan (.value (.string s)) t := by
  intro value eq w u errors fuel gap more _ fuelled
  obtain ⟨fuel, rfl⟩ := fuel_pos more fuelled
  cases eq
  rw [readValue, skipCommentTokens_text gap more (readToken_quoted quoted more) (by decide)]
  change Gives (liftM (decodeString _) >>= _) _
  rw [decodeString_quoted quoted]
  rfl

theorem completes_literal {v : Tree} {value : Value} {c : UInt8} {pattern : Bytes}
    (type : TokenType) (visible : ¬ isSpace c) (other : type ≠ .comment)
    (token : ∀ l, scanToken c l = .ok (type, (matchText pattern l).1, (matchText pattern l).2))
    (valued : valueOf scan v = some value)
    (read : ∀ (fuel : ℕ) (l u : Location) (errors : List ErrorInfo),
      skipCommentTokens l = .ok (⟨type, c :: pattern ++ u, u⟩, u) →
      Gives (readValue scan (fuel + 1) ⟨l, errors⟩) (some value, ⟨u, errors⟩)) :
    Completes scan (.value v) (c :: pattern) := by
  intro value' eq w u errors fuel gap more _ fuelled
  obtain ⟨fuel, rfl⟩ := fuel_pos more fuelled
  cases valued.symm.trans eq
  exact read fuel _ u errors
    (skipCommentTokens_text gap more (readToken_literal visible more token) other)

/-! ## Arrays -/

/-- The bracket before an array or an object, and then what stands behind it. -/
theorem skipCommentTokens_bracket {c : UInt8} (type : TokenType) (gap : Gap w)
    (visible : ¬ isSpace c) (more : u ≠ []) (scan : ∀ l, scanToken c l = .ok (type, true, l))
    (other : type ≠ .comment) :
    skipCommentTokens (w ++ c :: u) = .ok (⟨type, c :: u, u⟩, u) := by
  refine skipCommentTokens_eq ?_ other
  rw [readToken_gap gap (by simp), readToken_single visible more (scan u)]

/-- Spaces in front of a value make no difference. -/
theorem readValue_gap (spaces : ∀ c ∈ w, isSpace c) (more : l ≠ []) :
    readValue scan fuel ⟨w ++ l, errors⟩ = readValue scan fuel ⟨l, errors⟩ := by
  cases fuel with
  | zero => rfl
  | succ fuel =>
    have same : skipCommentTokens (w ++ l) = skipCommentTokens l := by
      rw [skipCommentTokens, readToken_append spaces more]
      rfl
    rw [readValue, readValue, same]
    rfl

theorem arrayLoop_gap {values : List Value} (spaces : ∀ c ∈ w, isSpace c) (more : l ≠ []) :
    arrayLoop (readValue scan bound) fuel values ⟨w ++ l, errors⟩ =
      arrayLoop (readValue scan bound) fuel values ⟨l, errors⟩ := by
  cases fuel with
  | zero => rfl
  | succ fuel => rw [arrayLoop, arrayLoop, readValue_gap spaces more]

/-- The text of a value begins with a character that is no space and no closing bracket. -/
theorem value_begins {v : Tree} {t : Bytes} (derives : Derives (.value v) t) :
    ∃ c t', t = c :: t' ∧ ¬ isSpace c ∧ c ≠ 0x5D := by
  cases derives with
  | number n =>
    obtain ⟨c, t', whole, begins⟩ := text_begins n
    refine ⟨c, t', whole, fun space => ?_, ?_⟩
    · unfold isSpace at space
      simp only [Bool.or_eq_true, decide_eq_true_eq] at space
      rcases space with ((rfl | rfl) | rfl) | rfl <;> exact absurd begins (by decide)
    · rintro rfl
      exact absurd begins (by decide)
  | string quoted =>
    cases quoted
    exact ⟨_, _, rfl, by decide, by decide⟩
  | _ => exact ⟨_, _, rfl, by decide, by decide⟩

theorem elements_begin {vs : List Tree} {t : Bytes} (derives : Derives (.elements vs) t) :
    ∃ w c t', t = w ++ c :: t' ∧ Gap w ∧ ¬ isSpace c ∧ c ≠ 0x5D := by
  cases derives with
  | @lastElement _ w _ w' gap value _ =>
    obtain ⟨c, t', rfl, begins⟩ := value_begins value
    exact ⟨w, c, t' ++ w', by simp, gap, begins⟩
  | @element _ _ w _ w' u gap value _ _ =>
    obtain ⟨c, t', rfl, begins⟩ := value_begins value
    exact ⟨w, c, t' ++ w' ++ 0x2C :: u, by simp, gap, begins⟩

theorem skipSpaces_gap {c : UInt8} (gap : Gap w) (visible : ¬ isSpace c) :
    skipSpaces (w ++ c :: u) = .ok (c :: u) := by
  rw [skipSpaces, skipWhile_append (isSpace_of_gap gap) (by simp), skipWhile_stop visible]

/-- An array that does not close at once is read by the loop. -/
theorem readArray_elements {c : UInt8} {t : Bytes} (gap : Gap w) (visible : ¬ isSpace c)
    (other : c ≠ 0x5D) :
    readArray (readValue scan bound) fuel ⟨w ++ c :: t, errors⟩ =
      arrayLoop (readValue scan bound) fuel [] ⟨w ++ c :: t, errors⟩ := by
  rw [readArray]
  dsimp only
  rw [skipSpaces_gap gap visible, arrayLoop_gap (isSpace_of_gap gap) (by simp)]
  change (if c = 0x5D then _ else arrayLoop _ fuel [] _) = _
  rw [if_neg other]
  rfl

theorem completes_array {vs : List Tree} {t : Bytes} (derives : Derives (.elements vs) t)
    (ih : Completes scan (.elements vs) t) :
    Completes scan (.value (.array vs)) (0x5B :: t ++ [0x5D]) := by
  intro value eq w u errors fuel gap more _ fuelled
  obtain ⟨fuel, rfl⟩ := fuel_pos more fuelled
  rw [valueOf, Option.map_eq_some_iff] at eq
  obtain ⟨values, eq, rfl⟩ := eq
  obtain ⟨w', c, t', rfl, gap', visible, other⟩ := elements_begin derives
  have place : w ++ (0x5B :: (w' ++ c :: t') ++ [0x5D]) ++ u =
      w ++ 0x5B :: (w' ++ c :: (t' ++ 0x5D :: u)) := by simp
  have enough : (w' ++ c :: t' ++ 0x5D :: u).length ≤ fuel := by
    simp only [List.length_append, List.length_cons, List.length_nil] at fuelled ⊢
    omega
  have loop := ih values eq [] u errors fuel fuel more enough enough
  rw [place, readValue, skipCommentTokens_bracket .arrayBegin gap (by decide) (by simp)
    (fun _ => rfl) (by simp)]
  change Gives (readArray (readValue scan fuel) fuel ⟨w' ++ c :: (t' ++ 0x5D :: u), errors⟩) _
  rw [readArray_elements gap' visible other]
  simpa using loop

theorem completes_emptyArray {w' : Bytes} (gap' : Gap w') :
    Completes scan (.value (.array [])) (0x5B :: w' ++ [0x5D]) := by
  intro value eq w u errors fuel gap more _ fuelled
  obtain ⟨fuel, rfl⟩ := fuel_pos more fuelled
  cases eq
  have place : w ++ (0x5B :: w' ++ [0x5D]) ++ u = w ++ 0x5B :: (w' ++ 0x5D :: u) := by simp
  have close := readToken_single (c := 0x5D) (u := u) (by decide) more rfl
  rw [place, readValue, skipCommentTokens_bracket .arrayBegin gap (by decide) (by simp)
    (fun _ => rfl) (by simp)]
  change Gives (readArray (readValue scan fuel) fuel ⟨w' ++ 0x5D :: u, errors⟩) _
  rw [readArray]
  dsimp only
  rw [skipSpaces_gap gap' (by decide)]
  change Gives (liftM (readToken (0x5D :: u)) >>= _) _
  rw [close]
  rfl

/-- One turn of the loop: a value, and the character behind it. -/
theorem arrayLoop_element {v : Tree} {value : Value} {t w' : Bytes} {c : UInt8}
    {values : List Value} (type : TokenType) (complete : Completes scan (.value v) t)
    (eq : valueOf scan v = some value) (gap : Gap w) (gap' : Gap w') (visible : ¬ isSpace c)
    (noNumber : ¬ isNumberChar c) (more : u ≠ []) (token : scanToken c u = .ok (type, true, u))
    (other : type ≠ .comment) (enough : (w ++ t ++ (w' ++ c :: u)).length ≤ bound) :
    arrayLoop (readValue scan bound) (fuel + 1) values ⟨w ++ t ++ (w' ++ c :: u), errors⟩ =
      if type = .arrayEnd then pure (some (.array (values ++ [value])), ⟨u, errors⟩)
      else arrayLoop (readValue scan bound) fuel (values ++ [value]) ⟨u, errors⟩ := by
  have first := complete value eq w (w' ++ c :: u) errors bound gap (by simp)
    (fun _ _ => stopped_gap gap' noNumber) enough
  have separator : readToken (w' ++ c :: u) = .ok (⟨type, c :: u, u⟩, u) := by
    rw [readToken_gap gap' (by simp), readToken_single visible more token]
  have noBoth : ¬ (type = .arraySeparator ∧ type = .arrayEnd) := by
    rintro ⟨rfl, both⟩
    cases both
  rw [arrayLoop, first.bind_eq]
  dsimp only
  rw [(Gives.lift separator).bind_eq]
  dsimp only
  rw [(Gives.lift (skipComments_other other)).bind_eq]
  dsimp only
  rw [if_neg noBoth]
  rfl

theorem completes_lastElement {v : Tree} {w t w' : Bytes} (gap : Gap w) (gap' : Gap w')
    (complete : Completes scan (.value v) t) :
    Completes scan (.elements [v]) (w ++ t ++ w') := by
  intro values eq before u errors fuel bound more fuelled enough
  obtain ⟨fuel, rfl⟩ : ∃ k, fuel = k + 1 := ⟨fuel - 1, by simp at fuelled; omega⟩
  simp only [elementsOf, Option.bind_eq_bind, Option.bind_some, Option.bind_eq_some_iff,
    Option.pure_def, Option.some.injEq] at eq
  obtain ⟨value, eq, rfl⟩ := eq
  have place : w ++ t ++ w' ++ 0x5D :: u = w ++ t ++ (w' ++ 0x5D :: u) := by simp
  rw [place] at enough ⊢
  rw [arrayLoop_element .arrayEnd complete eq gap gap' (by decide) (by decide) more rfl
    (by simp) enough]
  rfl

theorem completes_element {v : Tree} {vs : List Tree} {w t w' u : Bytes} (gap : Gap w)
    (gap' : Gap w') (complete : Completes scan (.value v) t)
    (ih : Completes scan (.elements vs) u) :
    Completes scan (.elements (v :: vs)) (w ++ t ++ w' ++ 0x2C :: u) := by
  intro values eq before u' errors fuel bound more fuelled enough
  obtain ⟨fuel, rfl⟩ : ∃ k, fuel = k + 1 := ⟨fuel - 1, by simp at fuelled; omega⟩
  simp only [elementsOf, Option.bind_eq_bind, Option.bind_eq_some_iff,
    Option.pure_def, Option.some.injEq] at eq
  obtain ⟨value, eq, values, eqs, rfl⟩ := eq
  have place : w ++ t ++ w' ++ 0x2C :: u ++ 0x5D :: u' =
      w ++ t ++ (w' ++ 0x2C :: (u ++ 0x5D :: u')) := by simp
  rw [place] at fuelled enough ⊢
  have shorter : (u ++ 0x5D :: u').length + 1 ≤
      (w ++ t ++ (w' ++ 0x2C :: (u ++ 0x5D :: u'))).length := by
    simp only [List.length_append, List.length_cons]
    omega
  have rest := ih values eqs (before ++ [value]) u' errors fuel bound more (by omega) (by omega)
  rw [List.append_assoc] at rest
  rw [arrayLoop_element .arraySeparator complete eq gap gap' (by decide) (by decide)
    (by simp) rfl (by simp) enough]
  exact rest

/-! ## Objects -/

/-- The name of a member, and the colon behind it. -/
theorem readToken_name {name k : Bytes} (gap : Gap w) (quoted : Quoted name k) (more : u ≠ []) :
    readToken (w ++ k ++ u) = .ok (⟨.string, k ++ u, u⟩, u) := by
  rw [List.append_assoc, readToken_gap gap (by simp [more]), readToken_quoted quoted more]

theorem readToken_colon (gap : Gap w) (more : u ≠ []) :
    readToken (w ++ 0x3A :: u) = .ok (⟨.memberSeparator, 0x3A :: u, u⟩, u) := by
  rw [readToken_gap gap (by simp), readToken_single (by decide) more rfl]

/-- Behind a name the loop goes on with its member. -/
theorem objectLoop_name {name name₀ k : Bytes} {members : List (Bytes × Value)} (gap : Gap w)
    (quoted : Quoted name k) (more : u ≠ []) :
    objectLoop (readValue scan bound) (fuel + 1) name₀ members ⟨w ++ k ++ u, errors⟩ =
      readMember (readValue scan bound) (objectLoop (readValue scan bound) fuel name) name members
        ⟨u, errors⟩ := by
  have noComment : (.string : TokenType) ≠ .comment := by decide
  rw [objectLoop]
  dsimp only
  rw [(Gives.lift (readToken_name gap quoted more)).bind_eq]
  dsimp only
  rw [(Gives.lift (skipComments_other noComment)).bind_eq]
  dsimp only
  rw [if_neg (by simp), if_neg (by simp), (Gives.lift (decodeString_quoted quoted)).bind_eq]
  rfl

/-- One turn of the loop: a name, its value, and the character behind it. -/
theorem objectLoop_member {name name₀ : Bytes} {v : Tree} {value : Value} {k w₁ w₂ t w₃ : Bytes}
    {c : UInt8} {members : List (Bytes × Value)} (type : TokenType)
    (gap : Gap w) (quoted : Quoted name k) (gap₁ : Gap w₁) (gap₂ : Gap w₂)
    (complete : Completes scan (.value v) t) (eq : valueOf scan v = some value) (gap₃ : Gap w₃)
    (visible : ¬ isSpace c) (noNumber : ¬ isNumberChar c) (more : u ≠ [])
    (token : scanToken c u = .ok (type, true, u))
    (ends : type = .objectEnd ∨ type = .arraySeparator)
    (enough : (w₂ ++ t ++ (w₃ ++ c :: u)).length ≤ bound) :
    objectLoop (readValue scan bound) (fuel + 1) name₀ members
        ⟨w ++ k ++ (w₁ ++ 0x3A :: (w₂ ++ t ++ (w₃ ++ c :: u))), errors⟩ =
      if type = .objectEnd then
        pure (some (.object (setMember name value members)), ⟨u, errors⟩)
      else objectLoop (readValue scan bound) fuel name (setMember name value members)
        ⟨u, errors⟩ := by
  have colon := readToken_colon gap₁ (u := w₂ ++ t ++ (w₃ ++ c :: u)) (by simp)
  have first := complete value eq w₂ (w₃ ++ c :: u) errors bound gap₂ (by simp)
    (fun _ _ => stopped_gap gap₃ noNumber) enough
  have separator : readToken (w₃ ++ c :: u) = .ok (⟨type, c :: u, u⟩, u) := by
    rw [readToken_gap gap₃ (by simp), readToken_single visible more token]
  have known : ¬ (type ≠ .objectEnd ∧ type ≠ .arraySeparator ∧ type ≠ .comment) := by
    rintro ⟨noEnd, noSeparator, -⟩
    exact ends.elim noEnd noSeparator
  have noComment : type ≠ .comment := by
    rintro rfl
    simp at ends
  rw [objectLoop_name gap quoted (by simp), readMember]
  dsimp only
  rw [(Gives.lift colon).bind_eq]
  dsimp only
  rw [if_neg (by simp), show (State.mk _ errors).moveTo _ = State.mk _ errors from rfl,
    first.bind_eq]
  dsimp only
  rw [(Gives.lift separator).bind_eq]
  dsimp only
  rw [if_neg known, (Gives.lift (skipComments_other noComment)).bind_eq]
  rfl

theorem completes_lastMember {name : Bytes} {v : Tree} {k w₁ w₂ t w₃ : Bytes} (gap : Gap w)
    (quoted : Quoted name k) (gap₁ : Gap w₁) (gap₂ : Gap w₂)
    (complete : Completes scan (.value v) t) (gap₃ : Gap w₃) :
    Completes scan (.members [(name, v)]) (w ++ k ++ w₁ ++ 0x3A :: (w₂ ++ t ++ w₃)) := by
  intro before after eq name₀ u errors fuel bound more fuelled enough
  obtain ⟨fuel, rfl⟩ : ∃ k, fuel = k + 1 := ⟨fuel - 1, by simp at fuelled; omega⟩
  simp only [membersOf, Option.bind_eq_bind, Option.bind_eq_some_iff, Option.some.injEq] at eq
  obtain ⟨value, eq, rfl⟩ := eq
  have place : w ++ k ++ w₁ ++ 0x3A :: (w₂ ++ t ++ w₃) ++ 0x7D :: u =
      w ++ k ++ (w₁ ++ 0x3A :: (w₂ ++ t ++ (w₃ ++ 0x7D :: u))) := by simp
  rw [place] at enough ⊢
  have enough' : (w₂ ++ t ++ (w₃ ++ 0x7D :: u)).length ≤ bound := by
    simp only [List.length_append, List.length_cons] at enough ⊢
    omega
  rw [objectLoop_member .objectEnd gap quoted gap₁ gap₂ complete eq gap₃ (by decide) (by decide)
    more rfl (.inl rfl) enough']
  rfl

theorem completes_member {name : Bytes} {v : Tree} {ms : List (Bytes × Tree)}
    {k w₁ w₂ t w₃ u : Bytes} (gap : Gap w) (quoted : Quoted name k) (gap₁ : Gap w₁)
    (gap₂ : Gap w₂) (complete : Completes scan (.value v) t) (gap₃ : Gap w₃)
    (ih : Completes scan (.members ms) u) :
    Completes scan (.members ((name, v) :: ms))
      (w ++ k ++ w₁ ++ 0x3A :: (w₂ ++ t ++ w₃ ++ 0x2C :: u)) := by
  intro before after eq name₀ u' errors fuel bound more fuelled enough
  obtain ⟨fuel, rfl⟩ : ∃ k, fuel = k + 1 := ⟨fuel - 1, by simp at fuelled; omega⟩
  simp only [membersOf, Option.bind_eq_bind, Option.bind_eq_some_iff] at eq
  obtain ⟨value, eq, eqs⟩ := eq
  have place : w ++ k ++ w₁ ++ 0x3A :: (w₂ ++ t ++ w₃ ++ 0x2C :: u) ++ 0x7D :: u' =
      w ++ k ++ (w₁ ++ 0x3A :: (w₂ ++ t ++ (w₃ ++ 0x2C :: (u ++ 0x7D :: u')))) := by simp
  rw [place] at fuelled enough ⊢
  simp only [List.length_append, List.length_cons] at fuelled enough
  have shorter : (u ++ 0x7D :: u').length = u.length + (u'.length + 1) := by simp
  have enough' : (w₂ ++ t ++ (w₃ ++ 0x2C :: (u ++ 0x7D :: u'))).length ≤ bound := by
    simp only [List.length_append, List.length_cons]
    omega
  have rest := ih (setMember name value before) after eqs name u' errors fuel bound more
    (by omega) (by omega)
  rw [objectLoop_member .arraySeparator gap quoted gap₁ gap₂ complete eq gap₃ (by decide)
    (by decide) (by simp) rfl (.inr rfl) enough']
  exact rest

theorem completes_object {ms : List (Bytes × Tree)} {t : Bytes}
    (ih : Completes scan (.members ms) t) :
    Completes scan (.value (.object ms)) (0x7B :: t ++ [0x7D]) := by
  intro value eq w u errors fuel gap more _ fuelled
  obtain ⟨fuel, rfl⟩ := fuel_pos more fuelled
  rw [valueOf, Option.map_eq_some_iff] at eq
  obtain ⟨members, eq, rfl⟩ := eq
  have place : w ++ (0x7B :: t ++ [0x7D]) ++ u = w ++ 0x7B :: (t ++ 0x7D :: u) := by simp
  have enough : (t ++ 0x7D :: u).length ≤ fuel := by
    simp only [List.length_append, List.length_cons, List.length_nil] at fuelled ⊢
    omega
  have loop := ih [] members eq [] u errors fuel fuel more enough enough
  rw [place, readValue, skipCommentTokens_bracket .objectBegin gap (by decide) (by simp)
    (fun _ => rfl) (by simp)]
  exact loop

theorem completes_emptyObject {w' : Bytes} (gap' : Gap w') :
    Completes scan (.value (.object [])) (0x7B :: w' ++ [0x7D]) := by
  intro value eq w u errors fuel gap more _ fuelled
  have long : 2 ≤ fuel := by
    have := List.length_pos_of_ne_nil more
    simp only [List.length_append, List.length_cons, List.length_nil] at fuelled
    omega
  obtain ⟨fuel, rfl⟩ : ∃ k, fuel = k + 2 := ⟨fuel - 2, by omega⟩
  cases eq
  have place : w ++ (0x7B :: w' ++ [0x7D]) ++ u = w ++ 0x7B :: (w' ++ 0x7D :: u) := by simp
  have close : readToken (w' ++ 0x7D :: u) = .ok (⟨.objectEnd, 0x7D :: u, u⟩, u) := by
    rw [readToken_gap gap' (by simp), readToken_single (by decide) more rfl]
  rw [place, readValue, skipCommentTokens_bracket .objectBegin gap (by decide) (by simp)
    (fun _ => rfl) (by simp)]
  change Gives (objectLoop (readValue scan (fuel + 1)) (fuel + 1) [] [] ⟨w' ++ 0x7D :: u, errors⟩) _
  rw [objectLoop]
  refine Gives.bind (Gives.lift close) ?_
  refine Gives.bind (Gives.lift (skipComments_other (by simp))) ?_
  rfl

/-! ## All phrases -/

theorem completes {phrase : Phrase} {t : Bytes} (derives : Derives phrase t) :
    Completes scan phrase t := by
  induction derives with
  | null =>
    refine completes_literal .null (by decide) (by simp) (fun _ => rfl) rfl ?_
    intro fuel l u errors run
    rw [readValue, run]
    rfl
  | true =>
    refine completes_literal .true (by decide) (by simp) (fun _ => rfl) rfl ?_
    intro fuel l u errors run
    rw [readValue, run]
    rfl
  | false =>
    refine completes_literal .false (by decide) (by simp) (fun _ => rfl) rfl ?_
    intro fuel l u errors run
    rw [readValue, run]
    rfl
  | number n => exact completes_number n
  | string quoted => exact completes_string quoted
  | emptyArray gap => exact completes_emptyArray gap
  | array derives ih => exact completes_array derives ih
  | emptyObject gap => exact completes_emptyObject gap
  | object _ ih => exact completes_object ih
  | lastElement gap _ gap' ih => exact completes_lastElement gap gap' ih
  | element gap _ gap' _ ih ihs => exact completes_element gap gap' ih ihs
  | lastMember gap quoted gap₁ gap₂ _ gap₃ ih =>
    exact completes_lastMember gap quoted gap₁ gap₂ ih gap₃
  | member gap quoted gap₁ gap₂ _ gap₃ _ ih ihs =>
    exact completes_member gap quoted gap₁ gap₂ ih gap₃ ihs

/-! ## The whole text -/

section Text

variable {v : Tree} {value : Value} {t rest : Bytes}

/-- Reading a text leaves what stands behind it. -/
theorem readValue_text (derives : Derives (.value v) t) (valued : valueOf scan v = some value)
    (gap : Gap w) (separate : ∀ n, v = .number n → ∀ c ∈ rest.head?, ¬ isNumberChar c)
    (enough : (w ++ t ++ rest).length < fuel) :
    Gives (readValue scan fuel ⟨w ++ t ++ rest ++ [0], []⟩) (some value, ⟨rest ++ [0], []⟩) := by
  have stopped : ∀ n, v = .number n → Stopped isNumberChar (rest ++ [0]) := by
    intro n number
    cases rest with
    | nil => exact .inl rfl
    | cons c rest => exact .inr fun d head => separate n number d head
  have fuelled : (w ++ t ++ (rest ++ [0])).length ≤ fuel := by
    simp only [List.length_append, List.length_singleton] at enough ⊢
    omega
  have place : w ++ t ++ rest ++ [0] = w ++ t ++ (rest ++ [0]) := List.append_assoc ..
  rw [place]
  exact completes derives value valued w (rest ++ [0]) [] fuel gap (by simp) stopped fuelled

theorem parse_text (derives : Derives (.value v) t) (valued : valueOf scan v = some value)
    (gap : Gap w) (separate : ∀ n, v = .number n → ∀ c ∈ rest.head?, ¬ isNumberChar c)
    (enough : (w ++ t ++ rest).length < fuel) :
    Gives (parse scan fuel (w ++ t ++ rest)) (some value, []) := by
  obtain ⟨token, l, rest', run, -⟩ := skipCommentTokens_ok (l := rest ++ [0]) (by simp)
  rw [parse, (readValue_text derives valued gap separate enough).bind_eq]
  exact Gives.bind (Gives.lift run) (Gives.pure _)

end Text

end JiaTuanServer.Json

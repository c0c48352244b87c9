import JiaTuanServer.Json.Complete

/-!
# A text that has been cut

The parser finds no value in a text that ends too early: not in a proper prefix of an array, an
object, a string or a name. A prefix of a number may be a number. The numbers are shorter than
`buffer[32]`.
-/

namespace JiaTuanServer.Json

open Request JsonText Fuelled

variable {scan : Bytes → Option UInt64} {errors : List ErrorInfo} {fuel bound : ℕ}
  {l u rest : Location} {w p : Bytes} {token : Token}

/-! ## Calls without a value -/

/-- The call ends without a value, and without a fault. -/
def Rejects (x : Run (Option Value × State)) : Prop :=
  Ends x (fun r => r.1 = none ∧ r.2.current ≠ []) fun _ => False

/-- The call ends without a fault, and without a value unless everything has been read. -/
def Exhausts (x : Run (Option Value × State)) : Prop :=
  Ends x (fun r => r.2.current ≠ [] ∧ (r.1 = none ∨ ∃ g, Gap g ∧ r.2.current = g ++ [0]))
    fun _ => False

theorem Rejects.exhausts {x : Run (Option Value × State)} (h : Rejects x) : Exhausts x :=
  Ends.mono h (fun _ result => ⟨result.2, .inl result.1⟩) fun _ => id

theorem rejects_recover {s : State} {skipUntilToken : TokenType} (inside : s.current ≠ []) :
    Rejects (do return ← recoverFromError skipUntilToken s) := by
  obtain ⟨rest, run, -, inside'⟩ := recoverLoop_ok skipUntilToken inside
  have recovered : recoverFromError skipUntilToken s = .ok (none, s.moveTo rest) := by
    rw [recoverFromError, run]
    rfl
  rw [recovered]
  exact ⟨rfl, inside'⟩

theorem readToken_end (gap : Gap w) :
    readToken (w ++ [0]) = .ok (⟨.endOfStream, [0], [0]⟩, [0]) := by
  rw [readToken_gap gap (by simp)]
  rfl

theorem skipComments_end :
    skipComments ⟨.endOfStream, [0], [0]⟩ [0] = .ok (⟨.endOfStream, [0], [0]⟩, [0]) :=
  skipComments_other (by simp)

theorem readValue_end (gap : Gap w) (fuelled : 0 < fuel) :
    Rejects (readValue scan fuel ⟨w ++ [0], errors⟩) := by
  obtain ⟨fuel, rfl⟩ := Nat.exists_eq_add_of_lt fuelled
  rw [readValue, skipCommentTokens_eq (readToken_end gap) (by simp)]
  exact ⟨rfl, by simp⟩

/-! ## The loops -/

section Loops

variable {values : List Value} {name : Bytes} {members : List (Bytes × Value)}

theorem arrayLoop_rejects (fuelled : 0 < fuel)
    (first : Rejects (readValue scan bound ⟨l, errors⟩)) :
    Rejects (arrayLoop (readValue scan bound) fuel values ⟨l, errors⟩) := by
  obtain ⟨fuel, rfl⟩ := Nat.exists_eq_add_of_lt fuelled
  rw [arrayLoop]
  apply Ends.bind first
  rintro ⟨value, s⟩ ⟨noValue, inside⟩
  dsimp only at noValue
  rw [noValue]
  exact rejects_recover inside

theorem arrayLoop_exhausts (fuelled : 1 < fuel) (bounded : 0 < bound)
    (first : Exhausts (readValue scan bound ⟨l, errors⟩)) :
    Rejects (arrayLoop (readValue scan bound) fuel values ⟨l, errors⟩) := by
  obtain ⟨fuel, rfl⟩ : ∃ k, fuel = k + 1 := ⟨fuel - 1, by omega⟩
  rw [arrayLoop]
  apply Ends.bind first
  rintro ⟨value, s⟩ ⟨inside, noValue | ⟨g, gap, ends⟩⟩
  · dsimp only at noValue
    rw [noValue]
    exact rejects_recover inside
  · cases value with
    | none => exact rejects_recover inside
    | some value =>
      dsimp only at ends ⊢
      rw [ends, (Gives.lift (readToken_end gap)).bind_eq]
      dsimp only
      rw [(Gives.lift skipComments_end).bind_eq]
      exact arrayLoop_rejects (by omega) (readValue_end .nil bounded)

/-- The document ends, or its next token is no token, where a name is expected. -/
theorem objectLoop_noName (fuelled : 0 < fuel) (run : readToken l = .ok (token, rest))
    (inside : rest ≠ []) (noComment : token.type ≠ .comment) (noEnd : token.type ≠ .objectEnd)
    (noString : token.type ≠ .string) :
    Rejects (objectLoop (readValue scan bound) fuel name members ⟨l, errors⟩) := by
  obtain ⟨fuel, rfl⟩ : ∃ k, fuel = k + 1 := ⟨fuel - 1, by omega⟩
  rw [objectLoop]
  dsimp only
  rw [(Gives.lift run).bind_eq]
  dsimp only
  rw [(Gives.lift (skipComments_other noComment)).bind_eq]
  dsimp only
  rw [if_neg (by simp [noEnd]), if_pos noString]
  exact rejects_recover inside

/-- The document ends between a name and its colon. -/
theorem objectLoop_noColon {k s w' : Bytes} (fuelled : 0 < fuel) (gap : Gap w)
    (quoted : Quoted s k) (gap' : Gap w') :
    Rejects (objectLoop (readValue scan bound) fuel name members
      ⟨w ++ k ++ (w' ++ [0]), errors⟩) := by
  obtain ⟨fuel, rfl⟩ : ∃ k, fuel = k + 1 := ⟨fuel - 1, by omega⟩
  rw [objectLoop_name gap quoted (by simp), readMember]
  dsimp only
  rw [(Gives.lift (readToken_end gap')).bind_eq]
  dsimp only
  rw [if_pos (by simp)]
  exact rejects_recover (by simp)

/-- The document ends in the value of a member, or behind it. -/
theorem objectLoop_exhausts {k s w' : Bytes} (fuelled : 0 < fuel) (gap : Gap w)
    (quoted : Quoted s k) (gap' : Gap w') (more : l ≠ [])
    (first : Exhausts (readValue scan bound ⟨l, errors⟩)) :
    Rejects (objectLoop (readValue scan bound) fuel name members
      ⟨w ++ k ++ (w' ++ 0x3A :: l), errors⟩) := by
  obtain ⟨fuel, rfl⟩ : ∃ k, fuel = k + 1 := ⟨fuel - 1, by omega⟩
  rw [objectLoop_name gap quoted (by simp), readMember]
  dsimp only
  rw [(Gives.lift (readToken_colon gap' more)).bind_eq]
  dsimp only
  rw [if_neg (by simp)]
  apply Ends.bind first
  rintro ⟨value, s⟩ ⟨inside, noValue | ⟨g, gap, ends⟩⟩
  · dsimp only at noValue
    rw [noValue]
    exact rejects_recover inside
  · cases value with
    | none => exact rejects_recover inside
    | some value =>
      dsimp only at ends ⊢
      rw [ends, (Gives.lift (readToken_end gap)).bind_eq]
      dsimp only
      rw [if_pos (by decide)]
      exact rejects_recover (by simp)

end Loops

/-! ## Tokens that have been cut -/

theorem readToken_cut {c : UInt8} (type : TokenType) (visible : ¬ isSpace c) (more : l ≠ [])
    (scan : scanToken c l = .ok (type, false, rest)) :
    readToken (c :: l) = .ok (⟨.error, c :: l, rest⟩, rest) := by
  have start : skipSpaces (c :: l) = .ok (c :: l) := skipWhile_stop visible
  rw [readToken, start]
  change (getNextChar (c :: l) >>= _) = _
  rw [getNextChar_cons more]
  change (scanToken c l >>= _) = _
  rw [scan]
  rfl

theorem readToken_cutLiteral {c : UInt8} {type : TokenType} {pattern q : Bytes}
    (visible : ¬ isSpace c) (part : q <+: pattern) (proper : q ≠ pattern)
    (scan : ∀ l, scanToken c l = .ok (type, (matchText pattern l).1, (matchText pattern l).2)) :
    readToken (c :: q ++ [0]) = .ok (⟨.error, c :: q ++ [0], q ++ [0]⟩, q ++ [0]) := by
  refine readToken_cut type visible (by simp) ?_
  have short : q.length < pattern.length := by
    refine lt_of_le_of_ne part.length_le ?_
    intro same
    exact proper (part.eq_of_length same)
  rw [scan, matchText, if_pos (by simpa using short)]
  rfl

theorem readToken_cutString {s t : Bytes} (quoted : Quoted s t) (part : p <+: t) (proper : p ≠ t)
    (nonempty : p ≠ []) : readToken (p ++ [0]) = .ok (⟨.error, p ++ [0], [0]⟩, [0]) := by
  obtain ⟨body⟩ := quoted
  rename_i text
  obtain rfl | ⟨q, rfl, behind⟩ := List.prefix_cons_iff.mp part
  · exact absurd rfl nonempty
  rcases List.prefix_concat_iff.mp behind with rfl | inside
  · exact absurd rfl proper
  refine readToken_cut .string (by decide) (by simp) ?_
  have unclosed : readString (q ++ [0]) = .ok (false, [0]) :=
    (passes_body body).part 0 q (by decide) inside
  change (readString (q ++ [0]) >>= _) = _
  rw [unclosed]
  rfl

theorem readValue_error {start : Location} (gap : Gap w) (more : l ≠ [])
    (run : readToken l = .ok (⟨.error, start, rest⟩, rest)) (inside : rest ≠ [])
    (fuelled : 0 < fuel) : Rejects (readValue scan fuel ⟨w ++ l, errors⟩) := by
  obtain ⟨fuel, rfl⟩ : ∃ k, fuel = k + 1 := ⟨fuel - 1, by omega⟩
  rw [readValue, skipCommentTokens_eq ((readToken_gap gap more).trans run) (by simp)]
  exact ⟨rfl, inside⟩

/-! ## Phrases -/

section Short

mutual

/-- Every number leaves room for the terminator behind its text. -/
def Short : Tree → Prop
  | .number n => n.text.length < bufferSize
  | .array vs => ShortElements vs
  | .object ms => ShortMembers ms
  | _ => True

def ShortElements : List Tree → Prop
  | [] => True
  | v :: vs => Short v ∧ ShortElements vs

def ShortMembers : List (Bytes × Tree) → Prop
  | [] => True
  | (_, v) :: ms => Short v ∧ ShortMembers ms

end

end Short

/-- What the parser does with a prefix of a phrase: with a proper prefix of a value, and with any
prefix of the elements or members whose closing bracket is missing. -/
def Stops (scan : Bytes → Option UInt64) : Phrase → Bytes → Prop
  | .value v, t => ∀ value, valueOf scan v = some value → Short v → ∀ w p errors fuel, Gap w →
    p <+: t → p ≠ t → (w ++ p ++ [0]).length < fuel →
    Exhausts (readValue scan fuel ⟨w ++ p ++ [0], errors⟩) ∧
      ((∀ n, v ≠ .number n) → Rejects (readValue scan fuel ⟨w ++ p ++ [0], errors⟩))
  | .elements vs, t => ∀ values, elementsOf scan vs = some values → ShortElements vs →
    ∀ before p errors fuel bound, p <+: t → (p ++ [0]).length < fuel → (p ++ [0]).length < bound →
    Rejects (arrayLoop (readValue scan bound) fuel before ⟨p ++ [0], errors⟩)
  | .members ms, t => ∀ before after, membersOf scan before ms = some after → ShortMembers ms →
    ∀ name p errors fuel bound, p <+: t → (p ++ [0]).length < fuel → (p ++ [0]).length < bound →
    Rejects (objectLoop (readValue scan bound) fuel name before ⟨p ++ [0], errors⟩)

/-- Without any of its text a value is not read; it remains to look at its other prefixes. -/
theorem stops_value {v : Tree} {t : Bytes}
    (rejects : ∀ value, valueOf scan v = some value → Short v → ∀ w p errors fuel, Gap w →
      p <+: t → p ≠ t → p ≠ [] → (w ++ p ++ [0]).length < fuel →
      Rejects (readValue scan fuel ⟨w ++ p ++ [0], errors⟩)) : Stops scan (.value v) t := by
  intro value eq short w p errors fuel gap part proper fuelled
  have all : Rejects (readValue scan fuel ⟨w ++ p ++ [0], errors⟩) := by
    by_cases nonempty : p = []
    · rw [nonempty, List.append_nil]
      exact readValue_end gap (by omega)
    · exact rejects value eq short w p errors fuel gap part proper nonempty fuelled
  exact ⟨all.exhausts, fun _ => all⟩

theorem stops_literal {v : Tree} {c : UInt8} {pattern : Bytes} (type : TokenType)
    (visible : ¬ isSpace c)
    (token : ∀ l, scanToken c l = .ok (type, (matchText pattern l).1, (matchText pattern l).2)) :
    Stops scan (.value v) (c :: pattern) := by
  apply stops_value
  intro value _ _ w p errors fuel gap part proper nonempty fuelled
  obtain rfl | ⟨q, rfl, behind⟩ := List.prefix_cons_iff.mp part
  · exact absurd rfl nonempty
  have properPattern : q ≠ pattern := by
    rintro rfl
    exact proper rfl
  rw [List.append_assoc]
  exact readValue_error gap (by simp) (readToken_cutLiteral visible behind properPattern token)
    (by simp) (by omega)

theorem stops_string {s t : Bytes} (quoted : Quoted s t) : Stops scan (.value (.string s)) t := by
  apply stops_value
  intro value _ _ w p errors fuel gap part proper nonempty fuelled
  rw [List.append_assoc]
  exact readValue_error gap (by simp) (readToken_cutString quoted part proper nonempty) (by simp)
    (by omega)

/-- A prefix of a number is read like a number, and then nothing is left. -/
theorem stops_number (n : Number) : Stops scan (.value (.number n)) n.text := by
  intro value _ short w p errors fuel gap part _ fuelled
  refine ⟨?_, fun other => absurd rfl (other n)⟩
  obtain ⟨fuel, rfl⟩ : ∃ k, fuel = k + 1 := ⟨fuel - 1, by omega⟩
  obtain ⟨c, t, whole, begins⟩ := text_begins n
  rw [whole] at part
  obtain rfl | ⟨q, rfl, behind⟩ := List.prefix_cons_iff.mp part
  · rw [List.append_nil]
    exact (readValue_end gap (by omega)).exhausts
  have all : ∀ d ∈ q, isNumberChar d := by
    intro d mem
    exact isNumberChar_text d (whole ▸ List.mem_cons_of_mem c (behind.subset mem))
  have run := readToken_number begins all (u := [0]) (by simp) (.inl rfl)
  have inside : Gap [] := .nil
  rw [List.append_assoc, readValue,
    skipCommentTokens_eq ((readToken_gap gap (by simp)).trans run) (by simp)]
  change Exhausts (liftM (decodeNumber scan ⟨.number, c :: q ++ [0], [0]⟩) >>= _)
  have text : Token.text ⟨.number, c :: q ++ [0], [0]⟩ = c :: q := Token.text_mk ..
  obtain ⟨v, decoded, -⟩ | decoded | ⟨-, length⟩ :=
    decodeNumber_outcome scan ⟨.number, c :: q ++ [0], [0]⟩
  · rw [decoded]
    exact ⟨by simp [finish], .inr ⟨[], inside, rfl⟩⟩
  · rw [decoded]
    exact ⟨by simp [finish], .inl rfl⟩
  · have le := part.length_le
    rw [← whole] at le
    rw [text] at length
    unfold Short at short
    omega

theorem gap_of_part (gap : Gap w) (part : p <+: w) : Gap p :=
  fun c mem => gap c (part.subset mem)

/-- A value between gaps, cut anywhere. -/
theorem readValue_cut {v : Tree} {value : Value} {t w' : Bytes} (stops : Stops scan (.value v) t)
    (complete : Completes scan (.value v) t) (eq : valueOf scan v = some value) (short : Short v)
    (gap : Gap w) (gap' : Gap w') (part : p <+: w ++ t ++ w') (fuelled : (p ++ [0]).length < fuel) :
    Exhausts (readValue scan fuel ⟨p ++ [0], errors⟩) := by
  have behind (q : Bytes) (space : Gap q) (enough : (w ++ t ++ q ++ [0]).length < fuel) :
      Exhausts (readValue scan fuel ⟨w ++ t ++ q ++ [0], errors⟩) := by
    have place : w ++ t ++ q ++ [0] = w ++ t ++ (q ++ [0]) := List.append_assoc ..
    rw [place] at enough ⊢
    have run := complete value eq w (q ++ [0]) errors fuel gap (by simp)
      (fun _ _ => stopped_gap space (by decide)) enough.le
    exact run.ends ⟨by simp, .inr ⟨q, space, rfl⟩⟩
  rcases prefix_of_append part with front | ⟨q, rfl, last⟩
  · rcases prefix_of_append front with first | ⟨q, rfl, inside⟩
    · exact (readValue_end (gap_of_part gap first) (by omega)).exhausts
    · by_cases whole : q = t
      · subst whole
        have none := behind [] .nil
        rw [List.append_nil] at none
        exact none fuelled
      · exact (stops value eq short w q errors fuel gap inside whole fuelled).1
  · exact behind q (gap_of_part gap' last) fuelled

/-- An opening bracket, and then a document that ends before the closing one. -/
theorem readValue_open {t : Bytes} {c close : UInt8} {fuel : ℕ} (type : TokenType)
    (visible : ¬ isSpace c) (token : ∀ l, scanToken c l = .ok (type, true, l))
    (other : type ≠ .comment) (gap : Gap w) (part : p <+: c :: t ++ [close])
    (proper : p ≠ c :: t ++ [close]) (nonempty : p ≠ []) (fuelled : (w ++ p ++ [0]).length < fuel)
    (inside : ∀ q fuel, q <+: t → (q ++ [0]).length < fuel →
      skipCommentTokens (w ++ c :: (q ++ [0])) = .ok (⟨type, c :: (q ++ [0]), q ++ [0]⟩, q ++ [0]) →
      Rejects (readValue scan (fuel + 1) ⟨w ++ c :: (q ++ [0]), errors⟩)) :
    Rejects (readValue scan fuel ⟨w ++ p ++ [0], errors⟩) := by
  obtain rfl | ⟨q, rfl, behind⟩ := List.prefix_cons_iff.mp part
  · exact absurd rfl nonempty
  obtain ⟨fuel, rfl⟩ : ∃ k, fuel = k + 1 := ⟨fuel - 1, by omega⟩
  rcases List.prefix_concat_iff.mp behind with rfl | front
  · exact absurd rfl proper
  have enough : (q ++ [0]).length < fuel := by
    simp only [List.length_append, List.length_cons] at fuelled ⊢
    omega
  rw [List.append_assoc]
  exact inside q fuel front enough
    (skipCommentTokens_bracket type gap visible (by simp) token other)

/-! ## Arrays -/

/-- Whatever is left of the elements, the array does not close at once. -/
theorem readArray_cut {vs : List Tree} {t : Bytes} (derives : Derives (.elements vs) t)
    (part : p <+: t) :
    readArray (readValue scan bound) fuel ⟨p ++ [0], errors⟩ =
      arrayLoop (readValue scan bound) fuel [] ⟨p ++ [0], errors⟩ := by
  obtain ⟨w, c, t', rfl, gap, visible, other⟩ := elements_begin derives
  rcases prefix_of_append part with space | ⟨q, rfl, behind⟩
  · exact readArray_elements (gap_of_part gap space) (by decide) (by decide)
  · obtain rfl | ⟨q', rfl, -⟩ := List.prefix_cons_iff.mp behind
    · rw [List.append_nil]
      exact readArray_elements gap (by decide) (by decide)
    · rw [List.append_assoc]
      exact readArray_elements gap visible other

theorem stops_emptyArray {w' : Bytes} (gap' : Gap w') :
    Stops scan (.value (.array [])) (0x5B :: w' ++ [0x5D]) := by
  apply stops_value
  intro value _ _ w p errors fuel gap part proper nonempty fuelled
  refine readValue_open .arrayBegin (by decide) (fun _ => rfl) (by simp) gap part proper nonempty
    fuelled ?_
  intro q fuel front enough run
  have space := gap_of_part gap' front
  rw [readValue, run]
  change Rejects (readArray (readValue scan fuel) fuel ⟨q ++ [0], errors⟩)
  rw [readArray_elements space (by decide) (by decide)]
  exact arrayLoop_rejects (by omega) (readValue_end space (by omega))

theorem stops_array {vs : List Tree} {t : Bytes} (derives : Derives (.elements vs) t)
    (ih : Stops scan (.elements vs) t) :
    Stops scan (.value (.array vs)) (0x5B :: t ++ [0x5D]) := by
  apply stops_value
  intro value eq short w p errors fuel gap part proper nonempty fuelled
  refine readValue_open .arrayBegin (by decide) (fun _ => rfl) (by simp) gap part proper nonempty
    fuelled ?_
  intro q fuel front enough run
  rw [valueOf, Option.map_eq_some_iff] at eq
  obtain ⟨values, eq, -⟩ := eq
  rw [readValue, run]
  change Rejects (readArray (readValue scan fuel) fuel ⟨q ++ [0], errors⟩)
  rw [readArray_cut derives front]
  exact ih values eq short [] q errors fuel fuel front enough enough

/-- The loop on one element that is cut, or not followed by anything. -/
theorem arrayLoop_cut {v : Tree} {value : Value} {values : List Value} {t w' : Bytes}
    (stops : Stops scan (.value v) t) (complete : Completes scan (.value v) t)
    (eq : valueOf scan v = some value) (short : Short v) (gap : Gap w) (gap' : Gap w')
    (part : p <+: w ++ t ++ w') (fuelled : (p ++ [0]).length < fuel)
    (enough : (p ++ [0]).length < bound) :
    Rejects (arrayLoop (readValue scan bound) fuel values ⟨p ++ [0], errors⟩) := by
  have long : 0 < (p ++ [0]).length := by simp
  exact arrayLoop_exhausts (by omega) (by omega)
    (readValue_cut stops complete eq short gap gap' part enough)

theorem stops_lastElement {v : Tree} {t w' : Bytes} (gap : Gap w) (gap' : Gap w')
    (complete : Completes scan (.value v) t) (stops : Stops scan (.value v) t) :
    Stops scan (.elements [v]) (w ++ t ++ w') := by
  intro values eq short before p errors fuel bound part fuelled enough
  simp only [elementsOf, Option.bind_eq_bind, Option.bind_some, Option.bind_eq_some_iff] at eq
  obtain ⟨value, eq, -⟩ := eq
  exact arrayLoop_cut stops complete eq short.1 gap gap' part fuelled enough

theorem stops_element {v : Tree} {vs : List Tree} {t w' u : Bytes} (gap : Gap w) (gap' : Gap w')
    (complete : Completes scan (.value v) t) (stops : Stops scan (.value v) t)
    (ih : Stops scan (.elements vs) u) :
    Stops scan (.elements (v :: vs)) (w ++ t ++ w' ++ 0x2C :: u) := by
  intro values eq short before p errors fuel bound part fuelled enough
  simp only [elementsOf, Option.bind_eq_bind, Option.bind_eq_some_iff] at eq
  obtain ⟨value, eq, values', eqs, -⟩ := eq
  rcases prefix_of_append part with front | ⟨q, rfl, behind⟩
  · exact arrayLoop_cut stops complete eq short.1 gap gap' front fuelled enough
  obtain rfl | ⟨q', rfl, rest⟩ := List.prefix_cons_iff.mp behind
  · rw [List.append_nil] at fuelled enough ⊢
    exact arrayLoop_cut stops complete eq short.1 gap gap' List.prefix_rfl fuelled enough
  obtain ⟨fuel, rfl⟩ : ∃ k, fuel = k + 1 := ⟨fuel - 1, by omega⟩
  have place : w ++ t ++ w' ++ 0x2C :: q' ++ [0] = w ++ t ++ (w' ++ 0x2C :: (q' ++ [0])) := by simp
  rw [place] at fuelled enough ⊢
  rw [arrayLoop_element .arraySeparator complete eq gap gap' (by decide) (by decide) (by simp) rfl
    (by simp) enough.le]
  have left : (q' ++ [0]).length = q'.length + 1 := by simp
  simp only [List.length_append, List.length_cons] at fuelled enough
  exact ih values' eqs short.2 _ q' errors fuel bound rest (by omega) (by omega)

/-! ## Objects -/

theorem objectLoop_end {name : Bytes} {members : List (Bytes × Value)} (gap : Gap p)
    (fuelled : 0 < fuel) :
    Rejects (objectLoop (readValue scan bound) fuel name members ⟨p ++ [0], errors⟩) :=
  objectLoop_noName fuelled (readToken_end gap) (by simp) (by simp) (by simp) (by simp)

theorem stops_emptyObject {w' : Bytes} (gap' : Gap w') :
    Stops scan (.value (.object [])) (0x7B :: w' ++ [0x7D]) := by
  apply stops_value
  intro value _ _ w p errors fuel gap part proper nonempty fuelled
  refine readValue_open .objectBegin (by decide) (fun _ => rfl) (by simp) gap part proper nonempty
    fuelled ?_
  intro q fuel front enough run
  rw [readValue, run]
  exact objectLoop_end (gap_of_part gap' front) (by omega)

theorem stops_object {ms : List (Bytes × Tree)} {t : Bytes} (ih : Stops scan (.members ms) t) :
    Stops scan (.value (.object ms)) (0x7B :: t ++ [0x7D]) := by
  apply stops_value
  intro value eq short w p errors fuel gap part proper nonempty fuelled
  refine readValue_open .objectBegin (by decide) (fun _ => rfl) (by simp) gap part proper nonempty
    fuelled ?_
  intro q fuel front enough run
  rw [valueOf, Option.map_eq_some_iff] at eq
  obtain ⟨members, eq, -⟩ := eq
  rw [readValue, run]
  exact ih [] members eq short [] q errors fuel fuel front enough enough

/-- The loop on a member that is cut; what remains is a cut behind the colon. -/
theorem objectLoop_cut {name s k w₁ t : Bytes} {members : List (Bytes × Value)} (gap : Gap w)
    (quoted : Quoted s k) (gap₁ : Gap w₁) (part : p <+: w ++ k ++ w₁ ++ 0x3A :: t)
    (fuelled : 0 < fuel)
    (inside : ∀ q, q <+: t → p ++ [0] = w ++ k ++ (w₁ ++ 0x3A :: (q ++ [0])) →
      Rejects (objectLoop (readValue scan bound) fuel name members
        ⟨w ++ k ++ (w₁ ++ 0x3A :: (q ++ [0])), errors⟩)) :
    Rejects (objectLoop (readValue scan bound) fuel name members ⟨p ++ [0], errors⟩) := by
  have behind (q : Bytes) (space : Gap q) :
      Rejects (objectLoop (readValue scan bound) fuel name members
        ⟨w ++ k ++ q ++ [0], errors⟩) := by
    rw [List.append_assoc _ q [0]]
    exact objectLoop_noColon fuelled gap quoted space
  rcases prefix_of_append part with front | ⟨q, rfl, colon⟩
  · rcases prefix_of_append front with name | ⟨q, rfl, space⟩
    · rcases prefix_of_append name with space | ⟨q, rfl, key⟩
      · exact objectLoop_end (gap_of_part gap space) fuelled
      · by_cases nonempty : q = []
        · rw [nonempty, List.append_nil]
          exact objectLoop_end gap fuelled
        by_cases whole : q = k
        · have none := behind [] .nil
          rwa [List.append_nil, ← whole] at none
        · have run := readToken_cutString quoted key whole nonempty
          rw [← readToken_gap gap (by simp), ← List.append_assoc] at run
          exact objectLoop_noName fuelled run (by simp) (by simp) (by simp) (by simp)
    · exact behind q (gap_of_part gap₁ space)
  · obtain rfl | ⟨q', rfl, rest⟩ := List.prefix_cons_iff.mp colon
    · rw [List.append_nil]
      exact behind w₁ gap₁
    · have place : w ++ k ++ w₁ ++ 0x3A :: q' ++ [0] = w ++ k ++ (w₁ ++ 0x3A :: (q' ++ [0])) := by
        simp
      have cut := inside q' rest place
      rwa [place]

theorem stops_lastMember {name : Bytes} {v : Tree} {k w₁ w₂ t w₃ : Bytes} (gap : Gap w)
    (quoted : Quoted name k) (gap₁ : Gap w₁) (gap₂ : Gap w₂) (gap₃ : Gap w₃)
    (complete : Completes scan (.value v) t) (stops : Stops scan (.value v) t) :
    Stops scan (.members [(name, v)]) (w ++ k ++ w₁ ++ 0x3A :: (w₂ ++ t ++ w₃)) := by
  intro before after eq short name₀ p errors fuel bound part fuelled enough
  simp only [membersOf, Option.bind_eq_bind, Option.bind_eq_some_iff] at eq
  obtain ⟨value, eq, -⟩ := eq
  refine objectLoop_cut gap quoted gap₁ part (by omega) ?_
  intro q rest place
  have cut : (q ++ [0]).length < bound := by
    rw [place] at enough
    simp only [List.length_append, List.length_cons] at enough ⊢
    omega
  exact objectLoop_exhausts (by omega) gap quoted gap₁ (by simp)
    (readValue_cut stops complete eq short.1 gap₂ gap₃ rest cut)

theorem stops_member {name : Bytes} {v : Tree} {ms : List (Bytes × Tree)}
    {k w₁ w₂ t w₃ u : Bytes} (gap : Gap w) (quoted : Quoted name k) (gap₁ : Gap w₁)
    (gap₂ : Gap w₂) (gap₃ : Gap w₃) (complete : Completes scan (.value v) t)
    (stops : Stops scan (.value v) t) (ih : Stops scan (.members ms) u) :
    Stops scan (.members ((name, v) :: ms))
      (w ++ k ++ w₁ ++ 0x3A :: (w₂ ++ t ++ w₃ ++ 0x2C :: u)) := by
  intro before after eq short name₀ p errors fuel bound part fuelled enough
  simp only [membersOf, Option.bind_eq_bind, Option.bind_eq_some_iff] at eq
  obtain ⟨value, eq, eqs⟩ := eq
  refine objectLoop_cut gap quoted gap₁ part (by omega) ?_
  intro q rest place
  rw [place] at fuelled enough
  simp only [List.length_append, List.length_cons] at fuelled enough
  have exhausts (q : Bytes) (start : q <+: w₂ ++ t ++ w₃) (cut : (q ++ [0]).length < bound) :
      Rejects (objectLoop (readValue scan bound) fuel name₀ before
        ⟨w ++ k ++ (w₁ ++ 0x3A :: (q ++ [0])), errors⟩) :=
    objectLoop_exhausts (by omega) gap quoted gap₁ (by simp)
      (readValue_cut stops complete eq short.1 gap₂ gap₃ start cut)
  rcases prefix_of_append rest with front | ⟨q', rfl, behind⟩
  · exact exhausts q front (by rw [List.length_append]; simp only [List.length_cons]; omega)
  obtain rfl | ⟨u', rfl, last⟩ := List.prefix_cons_iff.mp behind
  · rw [List.append_nil] at enough ⊢
    exact exhausts _ List.prefix_rfl
      (by simp only [List.length_append, List.length_cons] at enough ⊢; omega)
  obtain ⟨fuel, rfl⟩ : ∃ k, fuel = k + 1 := ⟨fuel - 1, by omega⟩
  have value' : w₂ ++ t ++ w₃ ++ 0x2C :: u' ++ [0] = w₂ ++ t ++ (w₃ ++ 0x2C :: (u' ++ [0])) := by
    simp
  have near : (w₂ ++ t ++ (w₃ ++ 0x2C :: (u' ++ [0]))).length ≤ bound := by
    simp only [List.length_append, List.length_cons] at enough ⊢
    omega
  rw [value', objectLoop_member .arraySeparator gap quoted gap₁ gap₂ complete eq gap₃ (by decide)
    (by decide) (by simp) rfl (.inr rfl) near]
  have left : (u' ++ [0]).length = u'.length + 1 := by simp
  simp only [List.length_append, List.length_cons] at fuelled enough
  exact ih _ after eqs short.2 name u' errors fuel bound last (by omega) (by omega)

/-! ## All phrases -/

theorem stops {phrase : Phrase} {t : Bytes} (derives : Derives phrase t) : Stops scan phrase t := by
  induction derives with
  | null => exact stops_literal .null (by decide) fun _ => rfl
  | true => exact stops_literal .true (by decide) fun _ => rfl
  | false => exact stops_literal .false (by decide) fun _ => rfl
  | number n => exact stops_number n
  | string quoted => exact stops_string quoted
  | emptyArray gap => exact stops_emptyArray gap
  | array derives ih => exact stops_array derives ih
  | emptyObject gap => exact stops_emptyObject gap
  | object _ ih => exact stops_object ih
  | lastElement gap value gap' ih => exact stops_lastElement gap gap' (completes value) ih
  | element gap value gap' _ ih ihs => exact stops_element gap gap' (completes value) ih ihs
  | lastMember gap quoted gap₁ gap₂ value gap₃ ih =>
    exact stops_lastMember gap quoted gap₁ gap₂ gap₃ (completes value) ih
  | member gap quoted gap₁ gap₂ value gap₃ _ ih ihs =>
    exact stops_member gap quoted gap₁ gap₂ gap₃ (completes value) ih ihs

/-! ## The whole text -/

section Text

variable {v : Tree} {value : Value} {t : Bytes}

theorem parse_part (derives : Derives (.value v) t) (valued : valueOf scan v = some value)
    (short : Short v) (noNumber : ∀ n, v ≠ .number n) (gap : Gap w) (part : p <+: t)
    (proper : p ≠ t) (enough : (w ++ p).length + 1 < fuel) :
    ∃ e, (parse scan fuel (w ++ p)).run = .ok (some (none, [e])) ∧
      e.Within (w ++ p ++ [0]) := by
  have fuelled : (w ++ p ++ [0]).length < fuel := by
    rw [List.length_append, List.length_singleton]
    exact enough
  have rejects := (stops derives value valued short w p [] fuel gap part proper fuelled).2 noNumber
  obtain ⟨⟨result, s⟩, run, noValue, inside⟩ | ⟨-, -, impossible⟩ := rejects.cases
  swap
  · exact impossible.elim
  obtain ⟨token, l, rest, comments, -⟩ := skipCommentTokens_ok inside
  have ends : Gives (parse scan fuel (w ++ p)) (none, s.errors) := by
    have first : Gives (readValue scan fuel ⟨w ++ p ++ [0], []⟩) (none, s) := by
      dsimp only at noValue
      rw [← noValue]
      exact run
    rw [parse, first.bind_eq]
    exact Gives.bind (Gives.lift comments) (Gives.pure _)
  have parsed : Ends (parse scan fuel (w ++ p)) _ _ := parse_ends scan (by omega)
  unfold Ends at parsed
  rw [show (parse scan fuel (w ++ p)).run = _ from ends] at parsed
  obtain ⟨v, eq, -⟩ | ⟨e, eq, within⟩ := parsed
  · cases eq
  · obtain ⟨-, one⟩ := Prod.mk.inj eq
    rw [one] at ends
    exact ⟨e, ends, within⟩

end Text

end JiaTuanServer.Json

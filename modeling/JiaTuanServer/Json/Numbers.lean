import JiaTuanServer.Json.DecodeSafety
import JiaTuanServer.Library.JsonText

/-!
# Reading numbers

An integer is read digit by digit as long as it stays below ten times the threshold; the larger ones
and those with a fraction or an exponent go through `sscanf`.
-/

namespace JiaTuanServer.Json

open Request JsonText

variable {u : Location} {t : Bytes} {n : Number}

/-! ## The value of a number -/

/-- The integers that are read without `sscanf`. -/
def integerValue (i : ℤ) : Option Value :=
  if -2147483640 < i ∧ i ≤ 2147483647 then some (.int i)
  else if 2147483647 < i ∧ i < 4294967290 then some (.uint i.toNat)
  else none

def toInt (n : Number) : ℤ := if n.negative then -n.magnitude else n.magnitude

/-- The value that the parser gives to a number, unless its text overflows the buffer. -/
def numberValue (scan : Bytes → Option UInt64) (n : Number) : Option Value :=
  match if n.IsInteger then integerValue (toInt n) else none with
  | some v => some v
  | none => if n.text.length = bufferSize then none else (scan n.text).map .real

/-! ## The characters -/

theorem digit_eq (d : Fin 10) : isDigit (digit d) ∧ isNumberChar (digit d) ∧
    digit d ∉ text ".eE+" ∧ digit d ≠ 0x2D ∧ (digit d - 0x30).toNat = d ∧
    ¬ (digit d < 0x30 ∨ 0x39 < digit d) := by
  revert d
  decide

theorem isNumberChar_text : ∀ c ∈ n.text, isNumberChar c := by
  have digits (ds : List (Fin 10)) : ∀ c ∈ ds.map digit, isNumberChar c := by
    intro c mem
    obtain ⟨d, -, rfl⟩ := List.mem_map.mp mem
    exact (digit_eq d).2.1
  have sign (e : Exponent) : ∀ c ∈ e.signText, isNumberChar c := by
    intro c mem
    unfold Exponent.signText at mem
    split at mem
    · cases mem
    · rw [List.mem_singleton.mp mem]
      split <;> decide
  have exponent (e : Exponent) : ∀ c ∈ e.text, isNumberChar c := by
    intro c mem
    rcases List.mem_cons.mp mem with rfl | mem
    · split <;> decide
    · rcases List.mem_append.mp mem with mem | mem
      · exact sign e c mem
      · exact digits _ c mem
  intro c mem
  rcases List.mem_append.mp mem with mem | mem
  · rcases List.mem_append.mp mem with mem | mem
    · unfold Number.sign at mem
      split at mem
      · rw [List.mem_singleton.mp mem]
        decide
      · cases mem
    · exact digits _ c mem
  · rcases List.mem_append.mp mem with mem | mem
    · split at mem
      · cases mem
      · rcases List.mem_cons.mp mem with rfl | mem
        · decide
        · exact digits _ c mem
    · split at mem
      · cases mem
      · exact exponent _ c mem

/-- A number begins with a digit or a minus. -/
theorem text_begins (n : Number) : ∃ c rest, n.text = c :: rest ∧ (isDigit c || c = 0x2D) := by
  obtain ⟨negative, whole, fraction, exponent, ne⟩ := n
  cases whole with
  | nil => exact absurd rfl ne
  | cons d ds =>
    cases negative with
    | true => exact ⟨0x2D, _, rfl, by decide⟩
    | false => exact ⟨digit d, _, rfl, by simp [(digit_eq d).1]⟩

/-! ## The token -/

theorem skipWhile_all {p : UInt8 → Bool} (all : ∀ c ∈ t, p c) (more : u ≠ [])
    (stopped : Stopped p u) : skipWhile p (t ++ u) = .ok u := by
  rw [skipWhile_append all more]
  rcases u with _ | ⟨c, _ | ⟨d, rest⟩⟩
  · exact absurd rfl more
  · rfl
  · refine skipWhile_stop ?_
    rcases stopped with one | stopped
    · simp at one
    · exact stopped c rfl

theorem scanToken_number {c : UInt8} {l : Location} (begins : isDigit c || c = 0x2D) :
    scanToken c l = (do
      let current ← readNumber l
      pure (.number, true, current)) := by
  unfold scanToken
  split
  case h_13 => rw [if_pos begins]
  all_goals exact absurd begins (by decide)

theorem readToken_number {c : UInt8} (begins : isDigit c || c = 0x2D)
    (all : ∀ d ∈ t, isNumberChar d) (more : u ≠ []) (stopped : Stopped isNumberChar u) :
    readToken (c :: t ++ u) = .ok (⟨.number, c :: t ++ u, u⟩, u) := by
  have notSpace : ¬ isSpace c := by
    intro space
    unfold isSpace at space
    simp only [Bool.or_eq_true, decide_eq_true_eq] at space
    rcases space with ((rfl | rfl) | rfl) | rfl <;> revert begins <;> decide
  have start : skipSpaces (c :: (t ++ u)) = .ok (c :: (t ++ u)) := skipWhile_stop notSpace
  rw [readToken, List.cons_append, start]
  change (getNextChar (c :: (t ++ u)) >>= _) = _
  rw [getNextChar_cons (by simp [more])]
  change (scanToken c (t ++ u) >>= _) = _
  rw [scanToken_number begins, readNumber, skipWhile_all all more stopped]
  rfl

/-! ## Decoding -/

theorem le_valueFrom (value : ℕ) (ds : List (Fin 10)) : value ≤ Number.valueFrom value ds := by
  induction ds generalizing value with
  | nil => exact le_rfl
  | cons d ds ih =>
    have := ih (value * 10 + d.val)
    change value ≤ Number.valueFrom (value * 10 + d.val) ds
    omega

/-- The digits are read to the end exactly if they come to less than ten times the threshold. -/
theorem readDigits_eq {threshold value : ℕ} (ds : List (Fin 10)) (small : value < 10 * threshold) :
    readDigits threshold value (ds.map digit) =
      if Number.valueFrom value ds < 10 * threshold then .value (Number.valueFrom value ds)
      else .tooLarge := by
  induction ds generalizing value with
  | nil =>
    change Digits.value value = if value < _ then Digits.value value else _
    rw [if_pos small]
  | cons d ds ih =>
    obtain ⟨-, -, -, -, minus, inRange⟩ := digit_eq d
    have grows := le_valueFrom (value * 10 + d.val) ds
    rw [List.map_cons, readDigits, if_neg inRange, minus]
    change _ = if Number.valueFrom (value * 10 + d.val) ds < _ then
      Digits.value (Number.valueFrom (value * 10 + d.val) ds) else _
    by_cases large : threshold ≤ value
    · rw [if_pos large, if_neg (by omega)]
    · rw [if_neg large]
      exact ih (by have := d.isLt; omega)

theorem isDouble_eq (n : Number) : isDouble n.text = ! n.IsInteger := by
  have digits (ds : List (Fin 10)) : (ds.map digit).any (· ∈ text ".eE+") = false := by
    simp only [List.any_eq_false, List.mem_map]
    rintro c ⟨d, -, rfl⟩
    simp [(digit_eq d).2.2.1]
  have noMinus (ds : List (Fin 10)) : 0x2D ∉ ds.map digit := by
    intro mem
    obtain ⟨d, -, eq⟩ := List.mem_map.mp mem
    exact (digit_eq d).2.2.2.1 eq
  have sign : n.sign.any (· ∈ text ".eE+") = false := by
    unfold Number.sign
    split <;> decide
  have front : 0x2D ∉ (n.sign ++ n.whole.map digit).drop 1 := by
    unfold Number.sign
    split
    · exact noMinus n.whole
    · intro mem
      exact noMinus n.whole (List.drop_subset 1 _ mem)
  unfold isDouble Number.text
  rw [List.any_append, List.any_append, sign, digits]
  by_cases integer : n.IsInteger
  · have tail : n.tail = [] := by simp [Number.tail, integer.1, integer.2]
    rw [List.drop_one] at front
    simp [tail, front, integer]
  · have marked : n.tail.any (· ∈ text ".eE+") = true := by
      unfold Number.tail
      by_cases fraction : n.fraction = []
      · cases exponent : n.exponent with
        | none => exact absurd ⟨fraction, exponent⟩ integer
        | some e =>
          have letter : (if e.upper then 0x45 else 0x65 : UInt8) ∈ text ".eE+" := by
            split <;> decide
          simp [fraction, Exponent.text, letter]
      · rw [if_neg fraction]
        rfl
    simp [marked, integer]

theorem head_text (n : Number) : n.text.head? = some 0x2D ↔ n.negative := by
  obtain ⟨negative, whole, fraction, exponent, ne⟩ := n
  cases negative with
  | true => exact iff_of_true rfl rfl
  | false =>
    cases whole with
    | nil => exact absurd rfl ne
    | cons d ds =>
      have other := (digit_eq d).2.2.2.1
      simpa [Number.text, Number.sign] using other

variable {scan : Bytes → Option UInt64} {token : Token}

theorem decodeDouble_text {v : Value} (room : token.text.length ≠ bufferSize)
    (real : (scan token.text).map .real = some v) : decodeDouble scan token = .ok (.ok v) := by
  unfold decodeDouble
  dsimp only
  rw [if_neg (by omega)]
  cases scanned : scan token.text with
  | none => simp [scanned] at real
  | some bits =>
    simp only [scanned, Option.map_some, Option.some.injEq] at real
    rw [← real]
    rfl

/-- The integers whose digits the loop reads to the end. -/
theorem decodeNumber_integer (whole : token.text = n.text) (integer : n.IsInteger) :
    decodeNumber scan token = match integerValue (toInt n) with
      | some v => .ok (.ok v)
      | none => decodeDouble scan token := by
  have tail : n.tail = [] := by simp [Number.tail, integer.1, integer.2]
  have noDouble : isDouble n.text = false := by simp [isDouble_eq, integer]
  have digits : (if n.negative then n.text.drop 1 else n.text) = n.whole.map digit := by
    unfold Number.text Number.sign
    rw [tail, List.append_nil]
    split <;> rfl
  unfold decodeNumber
  simp only [whole, noDouble, head_text, digits]
  have magnitude : Number.valueFrom 0 n.whole = n.magnitude := rfl
  unfold integerValue toInt
  cases negative : n.negative with
  | true =>
    have limit : 10 * (minIntMagnitude / 10) = 2147483640 := rfl
    simp only [Bool.false_eq_true, if_false, if_true]
    rw [readDigits_eq n.whole (by decide), magnitude, limit]
    by_cases fits : n.magnitude < 2147483640
    · rw [if_pos fits, if_pos (by omega)]
      rfl
    · rw [if_neg fits, if_neg (by omega), if_neg (by omega)]
  | false =>
    have limit : 10 * (maxUInt / 10) = 4294967290 := rfl
    have int : maxInt = 2147483647 := rfl
    simp only [Bool.false_eq_true, if_false]
    rw [readDigits_eq n.whole (by decide), magnitude, limit]
    by_cases fits : n.magnitude < 4294967290
    · rw [if_pos fits]
      by_cases small : n.magnitude ≤ maxInt
      · rw [int] at small
        rw [if_pos (by omega)]
        simp [int, small]
        rfl
      · rw [int] at small
        rw [if_neg (by omega), if_pos (by omega)]
        simp [int, small]
        rfl
    · rw [if_neg fits, if_neg (by omega), if_neg (by omega)]

/-- The token of a number decodes to the number's value. -/
theorem decodeNumber_text {v : Value} (whole : token.text = n.text)
    (value : numberValue scan n = some v) : decodeNumber scan token = .ok (.ok v) := by
  have double (real : (if n.text.length = bufferSize then none
      else (scan n.text).map Value.real) = some v) : decodeDouble scan token = .ok (.ok v) := by
    split at real
    · cases real
    · rename_i room
      rw [← whole] at room real
      exact decodeDouble_text room real
  unfold numberValue at value
  by_cases integer : n.IsInteger
  · rw [decodeNumber_integer whole integer]
    rw [if_pos integer] at value
    cases small : integerValue (toInt n) with
    | some v' =>
      rw [small] at value
      cases value
      rfl
    | none =>
      rw [small] at value
      exact double value
  · rw [if_neg integer] at value
    have isDouble : isDouble token.text = true := by simp [whole, isDouble_eq, integer]
    unfold decodeNumber
    simp only [isDouble, if_true]
    exact double value

end JiaTuanServer.Json

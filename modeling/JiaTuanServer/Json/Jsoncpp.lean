import JiaTuanServer.Json.Incomplete
import JiaTuanServer.Request.Handler

/-!
# What the server takes from jsoncpp

The modelled `Json::Reader` as the parser of the callback, and the texts that it reads to their
values: a text of the grammar whose root is an object is read from the start of a chunk, whatever
follows it, and no proper part of it is (`jsoncpp_complete`, `jsoncpp_incomplete`).
-/

namespace JiaTuanServer.Json

open Request JsonText

/-! ## Texts without a zero byte -/

section Nonzero

variable {s t w : Bytes}

theorem nonzero_gap (gap : Gap w) : 0 ∉ w := fun mem => absurd (gap 0 mem) (by decide)

theorem nonzero_unit {n : ℕ} (unit : CodeUnit n t) : 0 ∉ t := by
  obtain ⟨digits, -, hex, rfl⟩ := unit
  have nonzero {value n : ℕ} {digits : Bytes} (hex : HexDigits value n digits) : 0 ∉ digits := by
    induction hex with
    | nil => exact List.not_mem_nil
    | cons digit _ ih =>
      have known := hexDigitValue_eq digit
      rw [List.mem_cons, not_or]
      refine ⟨?_, ih⟩
      rintro rfl
      cases known
  simpa using nonzero hex

theorem nonzero_quoted (quoted : Quoted s t) : 0 ∉ t := by
  obtain ⟨body⟩ := quoted
  have inside {s text : Bytes} (body : Body s text) : 0 ∉ text := by
    induction body with
    | nil => exact List.not_mem_nil
    | cons spells _ ih =>
      rw [List.mem_append, not_or]
      refine ⟨?_, ih⟩
      cases spells with
      | byte visible _ _ =>
        rw [List.mem_singleton]
        rintro rfl
        exact absurd visible (by decide)
      | escape known =>
        have letters : ∀ p ∈ escapes, p.1 ≠ 0 := List.all_iff_forall_prop.mp (by decide)
        have letter := letters _ known
        simpa using Ne.symm letter
      | unicode unit => exact nonzero_unit unit
      | surrogates _ first second =>
        rw [List.mem_append, not_or]
        exact ⟨nonzero_unit first, nonzero_unit second⟩
  simpa using inside body

theorem nonzero_derives {phrase : Phrase} (derives : Derives phrase t) : 0 ∉ t := by
  induction derives with
  | null | true | false => decide
  | number n => exact fun mem => absurd (isNumberChar_text 0 mem) (by decide)
  | string quoted => exact nonzero_quoted quoted
  | emptyArray gap | emptyObject gap => simpa using nonzero_gap gap
  | array _ ih | object _ ih => simpa using ih
  | lastElement gap _ gap' ih => simp [nonzero_gap gap, nonzero_gap gap', ih]
  | element gap _ gap' _ ih ihs => simp [nonzero_gap gap, nonzero_gap gap', ih, ihs]
  | lastMember gap quoted gap₁ gap₂ _ gap₃ ih =>
    simp [nonzero_gap gap, nonzero_quoted quoted, nonzero_gap gap₁, nonzero_gap gap₂,
      nonzero_gap gap₃, ih]
  | member gap quoted gap₁ gap₂ _ gap₃ _ ih ihs =>
    simp [nonzero_gap gap, nonzero_quoted quoted, nonzero_gap gap₁, nonzero_gap gap₂,
      nonzero_gap gap₃, ih, ihs]

end Nonzero

section Parser

variable (scan : Bytes → Option UInt64) (doubleToString : UInt64 → Bytes)
  (overrun : Bytes → Option Value)

/-- `Json::Reader` and `Json::FastWriter`. What `parse` yields after a number has overrun
`buffer[32]` is not known: it is what `overrun` says. -/
def jsoncpp : Jsoncpp where
  parse sdata :=
    match (parse scan (sdata.length + 2) sdata).run with
    | .ok (some (value, _)) => value
    | _ => overrun sdata
  doubleToString := doubleToString

/-- jsoncpp on texts without real numbers. -/
def withoutReals : Jsoncpp := jsoncpp (fun _ => none) (fun _ => []) fun _ => none

variable {scan doubleToString overrun}

theorem jsoncpp_parse {sdata : Bytes} {value : Option Value} {errors : List ErrorInfo}
    (run : (parse scan (sdata.length + 2) sdata).run = .ok (some (value, errors))) :
    (jsoncpp scan doubleToString overrun).parse sdata = value := by
  simp only [jsoncpp, run]

/-- A text that is a value and no number is read to this value, whatever follows it. -/
theorem jsoncpp_text {v : Tree} {value : Value} {w t : Bytes} (rest : Bytes)
    (derives : Derives (.value v) t) (valued : valueOf scan v = some value)
    (noNumber : ∀ n, v ≠ .number n) (gap : Gap w) :
    (jsoncpp scan doubleToString overrun).parse (w ++ t ++ rest) = some value :=
  jsoncpp_parse (parse_text derives valued gap (fun n eq => absurd eq (noNumber n)) (by omega))

/-- The same for a text and nothing else. -/
theorem withoutReals_text {v : Tree} {value : Value} {t d : Bytes} (derives : Derives (.value v) t)
    (valued : valueOf (fun _ => none) v = some value) (noNumber : ∀ n, v ≠ .number n)
    (whole : d = t) : withoutReals.parse d = some value := by
  have read : withoutReals.parse ([] ++ t ++ []) = some value :=
    jsoncpp_text [] derives valued noNumber .nil
  rwa [List.nil_append, List.append_nil, ← whole] at read

/-- The texts of objects, with space in front, whose numbers leave room in the buffer. -/
inductive Document (scan : Bytes → Option UInt64) : Bytes → Value → Prop where
  | intro {w t : Bytes} {ms : List (Bytes × Tree)} {value : Value} :
    Gap w → Derives (.value (.object ms)) t → valueOf scan (.object ms) = some value →
    Short (.object ms) → Document scan (w ++ t) value

variable {d p : Bytes} {value : Value}

theorem document_of_text {ms : List (Bytes × Tree)} {t : Bytes}
    (derives : Derives (.value (.object ms)) t) (valued : valueOf scan (.object ms) = some value)
    (short : Short (.object ms)) (whole : d = t) : Document scan d value := by
  rw [whole]
  exact .intro .nil derives valued short

theorem document_ne_nil (document : Document scan d value) : d ≠ [] := by
  obtain ⟨gap, derives, -, -⟩ := document
  intro none
  obtain ⟨c, t, rfl, -⟩ := value_begins derives
  simp at none

theorem document_nonzero (document : Document scan d value) : 0 ∉ d := by
  obtain ⟨gap, derives, -, -⟩ := document
  rw [List.mem_append, not_or]
  exact ⟨nonzero_gap gap, nonzero_derives derives⟩

theorem jsoncpp_complete (rest : Bytes) (document : Document scan d value) :
    (jsoncpp scan doubleToString overrun).parse (d ++ rest) = some value := by
  obtain ⟨gap, derives, valued, -⟩ := document
  exact jsoncpp_text rest derives valued (by simp) gap

/-- No part of a document is read to a value: a number in it may be cut, but stays short. -/
theorem jsoncpp_incomplete (document : Document scan d value) (part : p <+: d) (proper : p ≠ d) :
    (jsoncpp scan doubleToString overrun).parse p = none := by
  obtain ⟨gap, derives, valued, short⟩ := document
  rcases prefix_of_append part with space | ⟨q, rfl, inside⟩
  · obtain ⟨c, t, rfl, -⟩ := value_begins derives
    have enough : (p ++ []).length + 1 < p.length + 2 := by simp
    obtain ⟨e, run, -⟩ := parse_part derives valued short (by simp) (gap_of_part gap space)
      List.nil_prefix (by simp) enough
    rw [List.append_nil] at run
    exact jsoncpp_parse run
  · have notWhole : q ≠ _ := fun whole => proper (congrArg _ whole)
    obtain ⟨e, run, -⟩ := parse_part derives valued short (by simp) gap inside notWhole
      (Nat.lt_succ_self _)
    exact jsoncpp_parse run

end Parser

end JiaTuanServer.Json

import Mathlib.Data.Int.Notation
import Mathlib.Data.List.Basic
import Mathlib.Data.List.TakeWhile
import Mathlib.Data.Nat.Notation
import Mathlib.Tactic.Common

/-!
# jsoncpp values

`Json::Value` as far as the server uses it: indexing by member name, conversion to a string,
assignment to a member, and `Json::FastWriter`. Indexing and conversion are partial in the C++
code: the first asserts that the value is null or an object, the second throws for numbers, arrays
and objects. Either takes the process down, so each is a function into `Except Fault`.
-/

namespace JiaTuanServer.Request

abbrev Bytes := List UInt8

/-- The bytes of an ASCII literal. -/
def text (s : String) : Bytes := s.toList.map fun c => UInt8.ofNat c.toNat

/-- What `char *` code reads of a buffer: the bytes before the first zero. -/
def cString (s : Bytes) : Bytes := s.takeWhile (· ≠ 0)

theorem cString_append {a b : Bytes} (nonzero : 0 ∉ a) : cString (a ++ b) = a ++ cString b := by
  refine List.takeWhile_append_of_pos fun c mem => ?_
  simp only [ne_eq, decide_not, Bool.not_eq_true', decide_eq_false_iff_not]
  rintro rfl
  exact nonzero mem

theorem cString_eq_self {a : Bytes} (nonzero : 0 ∉ a) : cString a = a := by
  rw [← List.append_nil a, cString_append nonzero]
  rfl

theorem cString_eq_self_iff {a : Bytes} : cString a = a ↔ 0 ∉ a := by
  constructor
  · intro whole mem
    rw [← whole] at mem
    simpa using List.mem_takeWhile_imp mem
  · exact cString_eq_self

/-- Zeros behind a buffer are not read. -/
theorem cString_zeros (a : Bytes) (n : ℕ) : cString (a ++ List.replicate n 0) = cString a := by
  have none : cString (List.replicate n 0) = [] := by
    cases n <;> rfl
  induction a with
  | nil => exact none
  | cons c a ih =>
    simp only [cString, List.cons_append, List.takeWhile_cons] at ih ⊢
    rw [ih]

/-- The ways in which a callback fails to run to its end. -/
inductive Fault where
  /-- A failed `JSON_ASSERT`. -/
  | assertion
  /-- A `std::runtime_error` that nobody catches. -/
  | exception (what : String)
  /-- A call of `exit`. -/
  | exit (status : ℕ)
  /-- A write past the end of an array. -/
  | overflow
  /-- A read past the end of an array. -/
  | overread
  deriving DecidableEq, Repr

/-- `Json::Value`. A real is the bit pattern of its `double`; an object lists the entries of its
`std::map` in key order. -/
inductive Value where
  | null
  | int (value : ℤ)
  | uint (value : ℕ)
  | real (bits : UInt64)
  | string (value : Bytes)
  | bool (value : Bool)
  | array (values : List Value)
  | object (members : List (Bytes × Value))
  deriving Repr

instance byteOrder : Std.IsLinearOrder UInt8 where
  le_refl := UInt8.le_refl
  le_trans _ _ _ := UInt8.le_trans
  le_antisymm _ _ := UInt8.le_antisymm
  le_total := UInt8.le_total

instance byteOrder_lt : Std.LawfulOrderLT UInt8 where
  lt_iff a b := by
    rw [← UInt8.not_le, and_iff_right_of_imp]
    exact fun h => (UInt8.le_total a b).resolve_right h

namespace Value

def isNull : Value → Bool
  | null => true
  | _ => false

@[simp] theorem isNull_iff {v : Value} : v.isNull = true ↔ v = null := by cases v <;> simp [isNull]

/-! ## Members -/

variable {key other : Bytes} {members : List (Bytes × Value)} {v x : Value}

/-- The entry at `lower_bound`. -/
def lowerBound (key : Bytes) (members : List (Bytes × Value)) : Option (Bytes × Value) :=
  members.find? fun m => !decide (m.1 < key)

/-- `insert` of a null value, in front of the entry at `lower_bound`. -/
def insertNull (key : Bytes) (members : List (Bytes × Value)) : List (Bytes × Value) :=
  members.takeWhile (fun m => m.1 < key) ++ (key, null) :: members.dropWhile fun m => m.1 < key

/-- `resolveReference` on a map: the value of the member, and the map, which now has that member. -/
def resolveMember (key : Bytes) (members : List (Bytes × Value)) :
    Value × List (Bytes × Value) :=
  match lowerBound key members with
  | some m => if m.1 = key then (m.2, members) else (null, insertNull key members)
  | none => (null, insertNull key members)

/-- `operator[](const char *)`: the value of the member, and what the indexed value has become. -/
def resolveReference (key : Bytes) : Value → Except Fault (Value × Value)
  | null => pure ((resolveMember key []).map id object)
  | object members => pure ((resolveMember key members).map id object)
  | _ => throw .assertion

/-- `value[key] = x` -/
def assign (v : Value) (key : Bytes) (x : Value) : Except Fault Value := do
  match ← v.resolveReference key with
  | (_, object members) => pure (object (members.map fun m => if m.1 = key then (key, x) else m))
  | (_, _) => throw .assertion

/-- The value of a member; null if there is none. -/
def member (key : Bytes) : Value → Value
  | object members => (resolveMember key members).1
  | _ => null

/-- `type_ == nullValue || type_ == objectValue` -/
def isNullOrObject : Value → Bool
  | null | object _ => true
  | _ => false

/-- No entry lies under `key`. -/
def Missing (key : Bytes) (members : List (Bytes × Value)) : Prop :=
  ∀ m, lowerBound key members = some m → m.1 ≠ key

theorem resolveMember_cases (key : Bytes) (members : List (Bytes × Value)) :
    (∃ m, lowerBound key members = some m ∧ m.1 = key ∧
      resolveMember key members = (m.2, members)) ∨
      (Missing key members ∧ resolveMember key members = (null, insertNull key members)) := by
  unfold resolveMember Missing
  cases found : lowerBound key members with
  | none => exact .inr ⟨fun _ h => absurd h nofun, rfl⟩
  | some m =>
    by_cases same : m.1 = key
    · exact .inl ⟨m, rfl, same, if_pos same⟩
    · refine .inr ⟨?_, if_neg same⟩
      intro m' h
      cases h
      exact same

theorem resolveMember_missing (missing : Missing key members) :
    (resolveMember key members).1 = null := by
  obtain ⟨m, found, same, -⟩ | ⟨-, eq⟩ := resolveMember_cases key members
  · exact absurd same (missing m found)
  · rw [eq]

/-- Two maps that agree from the bound on agree on the member. -/
theorem resolveMember_congr {members' : List (Bytes × Value)}
    (same : lowerBound key members = lowerBound key members') :
    (resolveMember key members).1 = (resolveMember key members').1 := by
  unfold resolveMember
  rw [same]
  split
  · split <;> rfl
  · rfl

/-- A null in front of greater keys changes the value of no member. -/
theorem resolveMember_cons_null {after : List (Bytes × Value)}
    (above : ∀ m ∈ after.head?, key < m.1) :
    (resolveMember other ((key, null) :: after)).1 = (resolveMember other after).1 := by
  by_cases lt : key < other
  · exact resolveMember_congr (by simp [lowerBound, lt])
  have stops : (resolveMember other ((key, null) :: after)).1 = null := by
    have bound : lowerBound other ((key, null) :: after) = some (key, null) := by
      simp [lowerBound, lt]
    simp only [resolveMember, bound]
    split <;> rfl
  rw [stops, resolveMember_missing]
  intro m found
  cases after with
  | nil => cases found
  | cons head rest =>
    have greater : other < head.1 := List.lt_of_le_of_lt lt (above head rfl)
    have bound : lowerBound other (head :: rest) = some head := by
      simp [lowerBound, List.lt_asymm greater]
    obtain rfl := Option.some.inj (bound.symm.trans found)
    rintro rfl
    exact List.lt_irrefl _ greater

/-- A missing key is inserted in front of a greater one. -/
theorem Missing.above (missing : Missing key members) :
    ∀ m ∈ (members.dropWhile fun m => m.1 < key).head?, key < m.1 := by
  have bound : (members.dropWhile fun m => m.1 < key).head? = lowerBound key members :=
    (List.find?_not_eq_head?_dropWhile ..).symm
  intro m found
  rw [bound] at found
  have notLt : ¬ m.1 < key := by simpa using List.find?_some found
  rcases List.le_iff_lt_or_eq.mp notLt with lt | eq
  · exact lt
  · exact absurd eq.symm (missing m found)

/-- What lies under another key does not change when `key`, which was missing, is inserted. -/
theorem resolveMember_insertNull (missing : Missing key members) :
    (resolveMember other (insertNull key members)).1 = (resolveMember other members).1 := by
  unfold insertNull
  have above := missing.above
  conv_rhs =>
    rw [← List.takeWhile_append_dropWhile (p := fun m => decide (m.1 < key)) (l := members)]
  generalize (members.dropWhile fun m => decide (m.1 < key)) = after at above ⊢
  generalize (members.takeWhile fun m => decide (m.1 < key)) = before
  have split (rest : List (Bytes × Value)) :
      lowerBound other (before ++ rest) = (lowerBound other before).or (lowerBound other rest) :=
    List.find?_append
  cases stops : lowerBound other before with
  | some m =>
    exact resolveMember_congr (by rw [split, split, stops, Option.some_or, Option.some_or])
  | none =>
    have skip (rest : List (Bytes × Value)) :
        (resolveMember other (before ++ rest)).1 = (resolveMember other rest).1 :=
      resolveMember_congr (by rw [split, stops, Option.none_or])
    rw [skip, skip, resolveMember_cons_null above]

/-- Indexing succeeds on null and objects, gives the member, and changes no member. -/
theorem resolveReference_ok (key : Bytes) (h : v.isNullOrObject) :
    ∃ v', v.resolveReference key = .ok (v.member key, v') ∧ v'.isNullOrObject ∧
      ∀ other, v'.member other = v.member other := by
  have onMap (members : List (Bytes × Value)) : ∀ other,
      (object (resolveMember key members).2).member other = (object members).member other := by
    intro other
    obtain ⟨m, -, -, eq⟩ | ⟨missing, eq⟩ := resolveMember_cases key members
    · rw [eq]
    · rw [eq]
      exact resolveMember_insertNull missing
  have empty (other : Bytes) : (object []).member other = null := rfl
  cases v with
  | null => exact ⟨_, rfl, rfl, fun other => (onMap [] other).trans (empty other)⟩
  | object members => exact ⟨_, rfl, rfl, onMap members⟩
  | _ => cases h

theorem resolveReference_error (key : Bytes) (h : ¬ v.isNullOrObject) :
    v.resolveReference key = .error .assertion := by
  cases v with
  | null | object => exact absurd rfl h
  | _ => rfl

theorem member_head : (object ((key, v) :: members)).member key = v := by
  simp [member, resolveMember, lowerBound, List.lt_irrefl]

/-- A first entry with a smaller key is passed over. -/
theorem member_tail (lt : other < key) :
    (object ((other, v) :: members)).member key = (object members).member key :=
  resolveMember_congr (by simp [lowerBound, lt])

theorem assign_null (key : Bytes) (x : Value) : null.assign key x = .ok (object [(key, x)]) := by
  simp [assign, resolveReference, resolveMember, lowerBound, insertNull, bind, Except.bind, pure,
    Except.pure]

/-- A second member with a greater key goes behind the first. -/
theorem assign_behind {y : Value} (lt : key < other) :
    (object [(key, y)]).assign other x = .ok (object [(key, y), (other, x)]) := by
  have ne : key ≠ other := by
    rintro rfl
    exact List.lt_irrefl _ lt
  simp [assign, resolveReference, resolveMember, lowerBound, insertNull, lt, ne, bind, Except.bind,
    pure, Except.pure]

/-! ## Conversion to a string -/

def asString : Value → Except Fault Bytes
  | null => pure []
  | string value => pure (cString value)
  | bool value => pure (if value then text "true" else text "false")
  | int _ | uint _ | real _ | array _ | object _ =>
    throw (.exception "Type is not convertible to string")

/-- The values that `asString` does not throw on. -/
def hasString : Value → Bool
  | null | string _ | bool _ => true
  | _ => false

theorem asString_ok (h : v.hasString) : ∃ s, v.asString = .ok s := by
  cases v with
  | null | string | bool => exact ⟨_, rfl⟩
  | _ => cases h

theorem asString_error (h : ¬ v.hasString) : ∃ e, v.asString = .error e := by
  cases v with
  | null | string | bool => exact absurd rfl h
  | _ => exact ⟨_, rfl⟩

/-! ## `FastWriter` -/

/-- The digits of a number, most significant first. -/
def uintToString (value : ℕ) : Bytes :=
  (Nat.toDigits 10 value).map fun c => UInt8.ofNat c.toNat

def intToString (value : ℤ) : Bytes :=
  if value < 0 then text "-" ++ uintToString value.natAbs else uintToString value.natAbs

def isControlCharacter (c : UInt8) : Bool := 0 < c && c ≤ 0x1F

/-- The escape sequence of a byte inside a quoted string; the byte itself if it needs none. -/
def escape (c : UInt8) : Bytes :=
  if c = 0x22 then text "\\\""
  else if c = 0x5C then text "\\\\"
  else if c = 0x08 then text "\\b"
  else if c = 0x0C then text "\\f"
  else if c = 0x0A then text "\\n"
  else if c = 0x0D then text "\\r"
  else if c = 0x09 then text "\\t"
  else if isControlCharacter c then
    text "\\u00" ++ [hexDigit (c / 16), hexDigit (c % 16)]
  else [c]
where
  hexDigit (d : UInt8) : UInt8 := if d < 10 then 0x30 + d else 0x37 + d

/-- The scan of `valueToQuotedString`, which quotes a string without special characters as it is. -/
def needsEscape (value : Bytes) : Bool :=
  value.any fun c => c ∈ [0x22, 0x5C, 0x08, 0x0C, 0x0A, 0x0D, 0x09] || isControlCharacter c

def valueToQuotedString (value : Bytes) : Bytes :=
  if needsEscape value then text "\"" ++ value.flatMap escape ++ text "\""
  else text "\"" ++ value ++ text "\""

/-- The elements of an array or an object, with commas between them. -/
def separated (items : List Bytes) : Bytes := (items.intersperse (text ",")).flatten

section Writer

-- `sprintf` with `%#.16g`, and the cut of trailing zeros behind it.
variable (doubleToString : UInt64 → Bytes)

mutual

def writeValue : Value → Bytes
  | null => text "null"
  | int value => intToString value
  | uint value => uintToString value
  | real bits => doubleToString bits
  | string value => valueToQuotedString (cString value)
  | bool value => if value then text "true" else text "false"
  | array values => text "[" ++ separated (writeElements values) ++ text "]"
  | object members => text "\x7b" ++ separated (writeMembers members) ++ text "\x7d"

def writeElements : List Value → List Bytes
  | [] => []
  | v :: rest => writeValue v :: writeElements rest

def writeMembers : List (Bytes × Value) → List Bytes
  | [] => []
  | (name, v) :: rest =>
    (valueToQuotedString name ++ text ":" ++ writeValue v) :: writeMembers rest

end

/-- `FastWriter::write` -/
def write (root : Value) : Bytes := root.writeValue doubleToString ++ text "\n"

end Writer

/-- Walking a string without special characters writes it out as it is. -/
theorem flatMap_escape {value : Bytes} (plain : ¬ needsEscape value) :
    value.flatMap escape = value := by
  have single : ∀ c ∈ value, escape c = [c] := by
    intro c hc
    have clean := plain
    simp only [needsEscape, List.any_eq_true, not_exists, not_and, Bool.not_eq_true] at clean
    have := clean c hc
    simp at this
    simp [escape, this]
  calc value.flatMap escape = value.flatMap fun c => [c] := List.flatMap_congr single
    _ = value := List.flatMap_singleton' value

/-- Both branches of `valueToQuotedString` write the same. -/
theorem valueToQuotedString_eq (value : Bytes) :
    valueToQuotedString value = text "\"" ++ value.flatMap escape ++ text "\"" := by
  unfold valueToQuotedString
  split
  · rfl
  next plain => rw [flatMap_escape plain]

end Value

end JiaTuanServer.Request

import Mathlib.Data.Nat.Notation
import Mathlib.Tactic.Common

/-!
# JSON texts

The grammar of JSON as a relation between trees and the bytes that spell them. Strings are byte
strings: a character stands for its UTF-8 encoding, whether it is written as it is or as an escape.
Numbers keep their digits, and objects their members in the order of the text.
-/

namespace JsonText

/-! ## Numbers -/

structure Exponent where
  upper : Bool
  /-- No sign, or whether it is a minus. -/
  sign : Option Bool
  digits : List (Fin 10)

structure Number where
  negative : Bool
  whole : List (Fin 10)
  fraction : List (Fin 10)
  exponent : Option Exponent
  whole_ne_nil : whole ≠ []

def digit (d : Fin 10) : UInt8 := UInt8.ofNat (48 + d)

def Exponent.signText (e : Exponent) : List UInt8 :=
  match e.sign with
  | none => []
  | some minus => [if minus then 0x2D else 0x2B]

def Exponent.text (e : Exponent) : List UInt8 :=
  (if e.upper then 0x45 else 0x65) :: (e.signText ++ e.digits.map digit)

namespace Number

variable (n : Number)

def sign : List UInt8 := if n.negative then [0x2D] else []

/-- The fraction and the exponent. -/
def tail : List UInt8 :=
  (if n.fraction = [] then [] else 0x2E :: n.fraction.map digit) ++
    match n.exponent with
    | none => []
    | some e => e.text

def text : List UInt8 := n.sign ++ n.whole.map digit ++ n.tail

def IsInteger : Prop := n.fraction = [] ∧ n.exponent = none

instance : Decidable n.IsInteger :=
  match n with
  | ⟨_, _, [], none, _⟩ => isTrue ⟨rfl, rfl⟩
  | ⟨_, _, _ :: _, _, _⟩ => isFalse nofun
  | ⟨_, _, [], some _, _⟩ => isFalse nofun

/-- The value of a sequence of digits behind the digits of `value`. -/
def valueFrom (value : ℕ) (digits : List (Fin 10)) : ℕ :=
  digits.foldl (fun value d => value * 10 + d.val) value

def magnitude : ℕ := valueFrom 0 n.whole

end Number

/-! ## Strings -/

/-- The letters of the short escapes, and what they stand for. -/
def escapes : List (UInt8 × UInt8) :=
  [(0x22, 0x22), (0x5C, 0x5C), (0x2F, 0x2F), (0x62, 0x08), (0x66, 0x0C), (0x6E, 0x0A),
    (0x72, 0x0D), (0x74, 0x09)]

/-- The hexadecimal digit, in either case. -/
inductive HexDigit : ℕ → UInt8 → Prop where
  | decimal {v : ℕ} : v < 10 → HexDigit v (UInt8.ofNat (48 + v))
  | upper {v : ℕ} : v < 6 → HexDigit (10 + v) (UInt8.ofNat (65 + v))
  | lower {v : ℕ} : v < 6 → HexDigit (10 + v) (UInt8.ofNat (97 + v))

/-- The digits of a number, each with its value, behind the digits of `value`. -/
inductive HexDigits : ℕ → ℕ → List UInt8 → Prop where
  | nil {value : ℕ} : HexDigits value value []
  | cons {value v n : ℕ} {c : UInt8} {t : List UInt8} :
    HexDigit v c → HexDigits (value * 16 + v) n t → HexDigits value n (c :: t)

/-- `\u` and four digits. -/
def CodeUnit (n : ℕ) (t : List UInt8) : Prop :=
  ∃ digits, digits.length = 4 ∧ HexDigits 0 n digits ∧ t = 0x5C :: 0x75 :: digits

/-- The ways to write the next bytes of a string. -/
inductive Spells : List UInt8 → List UInt8 → Prop where
  | byte {c : UInt8} : 0x20 ≤ c → c ≠ 0x22 → c ≠ 0x5C → Spells [c] [c]
  | escape {letter c : UInt8} : (letter, c) ∈ escapes → Spells [c] [0x5C, letter]
  | unicode {c : Char} {t : List UInt8} : CodeUnit c.toNat t → Spells (String.utf8EncodeChar c) t
  | surrogates {c : Char} {t u : List UInt8} : 0x10000 ≤ c.toNat →
    CodeUnit (0xD800 + (c.toNat - 0x10000) / 0x400) t →
    CodeUnit (0xDC00 + (c.toNat - 0x10000) % 0x400) u → Spells (String.utf8EncodeChar c) (t ++ u)

inductive Body : List UInt8 → List UInt8 → Prop where
  | nil : Body [] []
  | cons {s t s' t' : List UInt8} : Spells s t → Body s' t' → Body (s ++ s') (t ++ t')

/-- A string in its quotes. -/
inductive Quoted : List UInt8 → List UInt8 → Prop where
  | intro {s body : List UInt8} : Body s body → Quoted s (0x22 :: body ++ [0x22])

/-- Bytes that can stand for themselves. -/
theorem Body.plain {s : List UInt8} (all : ∀ c ∈ s, 0x20 ≤ c ∧ c ≠ 0x22 ∧ c ≠ 0x5C) :
    Body s s := by
  induction s with
  | nil => exact .nil
  | cons c s ih =>
    obtain ⟨visible, quote, backslash⟩ := all c List.mem_cons_self
    exact .cons (.byte visible quote backslash) (ih fun d mem => all d (List.mem_cons_of_mem c mem))

theorem Quoted.plain {s : List UInt8} (all : ∀ c ∈ s, 0x20 ≤ c ∧ c ≠ 0x22 ∧ c ≠ 0x5C) :
    Quoted s (0x22 :: s ++ [0x22]) :=
  .intro (Body.plain all)

/-! ## Trees -/

inductive Tree where
  | null
  | bool (value : Bool)
  | number (n : Number)
  | string (s : List UInt8)
  | array (elements : List Tree)
  | object (members : List (List UInt8 × Tree))

/-- Space between the tokens. -/
def Gap (w : List UInt8) : Prop := ∀ c ∈ w, c ∈ [0x20, 0x09, 0x0A, 0x0D]

instance (w : List UInt8) : Decidable (Gap w) := List.decidableBAll _ w

theorem Gap.nil : Gap [] := fun _ mem => absurd mem List.not_mem_nil

/-- What a piece of text stands for. -/
inductive Phrase where
  | value (v : Tree)
  | elements (vs : List Tree)
  | members (ms : List (List UInt8 × Tree))

inductive Derives : Phrase → List UInt8 → Prop where
  | null : Derives (.value .null) [0x6E, 0x75, 0x6C, 0x6C]
  | true : Derives (.value (.bool true)) [0x74, 0x72, 0x75, 0x65]
  | false : Derives (.value (.bool false)) [0x66, 0x61, 0x6C, 0x73, 0x65]
  | number (n : Number) : Derives (.value (.number n)) n.text
  | string {s t : List UInt8} : Quoted s t → Derives (.value (.string s)) t
  | emptyArray {w : List UInt8} : Gap w → Derives (.value (.array [])) (0x5B :: w ++ [0x5D])
  | array {vs : List Tree} {t : List UInt8} :
    Derives (.elements vs) t → Derives (.value (.array vs)) (0x5B :: t ++ [0x5D])
  | emptyObject {w : List UInt8} : Gap w → Derives (.value (.object [])) (0x7B :: w ++ [0x7D])
  | object {ms : List (List UInt8 × Tree)} {t : List UInt8} :
    Derives (.members ms) t → Derives (.value (.object ms)) (0x7B :: t ++ [0x7D])
  | lastElement {v : Tree} {w t w' : List UInt8} :
    Gap w → Derives (.value v) t → Gap w' → Derives (.elements [v]) (w ++ t ++ w')
  | element {v : Tree} {vs : List Tree} {w t w' u : List UInt8} :
    Gap w → Derives (.value v) t → Gap w' → Derives (.elements vs) u →
    Derives (.elements (v :: vs)) (w ++ t ++ w' ++ 0x2C :: u)
  | lastMember {name : List UInt8} {v : Tree} {w k w₁ w₂ t w₃ : List UInt8} :
    Gap w → Quoted name k → Gap w₁ → Gap w₂ → Derives (.value v) t → Gap w₃ →
    Derives (.members [(name, v)]) (w ++ k ++ w₁ ++ 0x3A :: (w₂ ++ t ++ w₃))
  | member {name : List UInt8} {v : Tree} {ms : List (List UInt8 × Tree)}
    {w k w₁ w₂ t w₃ u : List UInt8} :
    Gap w → Quoted name k → Gap w₁ → Gap w₂ → Derives (.value v) t → Gap w₃ →
    Derives (.members ms) u →
    Derives (.members ((name, v) :: ms)) (w ++ k ++ w₁ ++ 0x3A :: (w₂ ++ t ++ w₃ ++ 0x2C :: u))

end JsonText

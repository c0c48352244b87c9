import Mathlib.Data.List.Basic
import Mathlib.Tactic.Common

/-!
# Tokens of a text

A lexer as a function that reads the first token of a text and leaves the rest, and the token list
of a whole text as a relation. A text built by concatenation has one token list at most; where its
tokens start and end is a matter of positions, for which the last section counts characters.
-/

namespace Tokens

variable {α τ : Type*}

/-- What a lexer finds at the start of a text. -/
inductive Reading (α τ : Type*) where
  | done
  | token (t : τ) (rest : List α)
  | error

/-- `read`, applied again and again, yields these tokens and then the end of the text. -/
inductive Tokenises (read : List α → Reading α τ) : List α → List τ → Prop where
  | done {text} : read text = .done → Tokenises read text []
  | token {text rest t ts} : read text = .token t rest → Tokenises read rest ts →
      Tokenises read text (t :: ts)

variable {read : List α → Reading α τ} {text text' rest : List α} {t t' : τ} {ts ts' : List τ}

theorem Tokenises.congr (same : read text = read text') :
    Tokenises read text ts ↔ Tokenises read text' ts := by
  constructor
  · intro h
    cases h with
    | done h => exact .done (same ▸ h)
    | token h rest => exact .token (same ▸ h) rest
  · intro h
    cases h with
    | done h => exact .done (same.symm ▸ h)
    | token h rest => exact .token (same.symm ▸ h) rest

/-- A text whose first token is known. -/
theorem tokenises_cons (reads : read text = .token t rest) :
    Tokenises read text (t' :: ts) ↔ t' = t ∧ Tokenises read rest ts := by
  constructor
  · intro h
    cases h with
    | token h tail =>
      cases reads.symm.trans h
      exact ⟨rfl, tail⟩
  · rintro ⟨rfl, tail⟩
    exact .token reads tail

theorem tokenises_nil (reads : read text = .done) : Tokenises read text [] := .done reads

/-- A text has one token list at most. -/
theorem Tokenises.unique (h : Tokenises read text ts) (h' : Tokenises read text ts') :
    ts = ts' := by
  induction h generalizing ts' with
  | done h =>
    cases h' with
    | done => rfl
    | token h' => cases h.symm.trans h'
  | token h _ ih =>
    cases h' with
    | done h' => cases h'.symm.trans h
    | token h' tail =>
      cases h.symm.trans h'
      rw [ih tail]

/-- Behind some first tokens, the lexer has reached a suffix of the text. -/
theorem Tokenises.behind (suffix : ∀ text t rest, read text = .token t rest → rest <:+ text)
    (h : Tokenises read text (ts ++ ts')) : ∃ rest, rest <:+ text ∧ Tokenises read rest ts' := by
  induction ts generalizing text with
  | nil => exact ⟨text, List.suffix_rfl, h⟩
  | cons t ts ih =>
    cases h with
    | token reads tail =>
      obtain ⟨rest, le, found⟩ := ih tail
      exact ⟨rest, le.trans (suffix _ _ _ reads), found⟩

/-! ## Positions -/

section Positions

variable {a b c u v w run : List α} {x y : α}

/-- In `a ++ b ++ c = u ++ x :: w`, an `x` that does not occur in `a` comes behind it. -/
theorem length_le_of_notMem (eq : a ++ b = u ++ x :: w) (notMem : x ∉ a) : a.length ≤ u.length := by
  by_contra lt
  have hx : (a ++ b)[u.length]? = some x := by
    rw [eq]
    simp
  rw [List.getElem?_append_left (by omega)] at hx
  exact notMem (List.mem_of_getElem? hx)

/-- An `x` that does not occur in `b` comes before it. -/
theorem length_lt_of_notMem (eq : a ++ b = u ++ x :: w) (notMem : x ∉ b) : u.length < a.length := by
  by_contra ge
  have hx : (a ++ b)[u.length]? = some x := by
    rw [eq]
    simp
  rw [List.getElem?_append_right (by omega)] at hx
  exact notMem (List.mem_of_getElem? hx)

/-- What stands between two delimiters fits between the texts without them. -/
theorem length_delimited_le (eq : a ++ b ++ c = u ++ x :: v ++ y :: w) (before : x ∉ a)
    (behind : y ∉ c) : v.length + 2 ≤ b.length := by
  have first : a.length ≤ u.length :=
    length_le_of_notMem (b := b ++ c) (w := v ++ y :: w) (by simpa using eq) before
  have last : (u ++ x :: v).length < (a ++ b).length := length_lt_of_notMem eq behind
  simp only [List.length_append, List.length_cons] at last
  omega

/-- A run that starts in `b` and never meets the character behind `b` ends in `b`. -/
theorem length_run_le (eq : a ++ b ++ c = u ++ run ++ w) (first : a.length ≤ u.length)
    (start : u.length < a.length + b.length) (stop : ∀ x ∈ c.head?, x ∉ run) :
    run.length ≤ b.length := by
  by_contra gt
  cases c with
  | nil =>
    have := congrArg List.length eq
    simp only [List.length_append, List.length_nil] at this
    omega
  | cons x c =>
    have hx : (a ++ b ++ x :: c)[a.length + b.length]? = some x := by
      rw [List.getElem?_append_right (by simp)]
      simp
    rw [eq, List.getElem?_append_left (by simp; omega), List.getElem?_append_right (by omega)] at hx
    exact stop x rfl (List.mem_of_getElem? hx)

end Positions

end Tokens

import Mathlib.Data.BitVec
import Mathlib.Data.List.Range

/-!
# Column parity

Words of `w` bits below each other make `w` columns, and their exclusive or is the parity of each
column. Within `w` consecutive bits of the text, read row by row, no two bits are in one column. So
two texts that differ only within such a window differ in the parity of some column
(`parity_ne_of_burst`): the bits of one column never cancel.
-/

namespace Column

variable {w : ℕ}

/-- The exclusive or of the first `k` words. -/
def parity (f : ℕ → BitVec w) (k : ℕ) : BitVec w :=
  (List.range k).foldl (fun c i => c ^^^ f i) 0

/-- Bit `p` of the text, the most significant bit of each word first. -/
def bit (f : ℕ → BitVec w) (p : ℕ) : Bool := (f (p / w)).getMsbD (p % w)

variable {f g : ℕ → BitVec w} {k : ℕ}

@[simp] theorem parity_zero : parity f 0 = 0 := rfl

@[simp] theorem parity_succ (k : ℕ) : parity f (k + 1) = parity f k ^^^ f k := by
  simp [parity, List.range_succ]

/-- Parity is linear. -/
theorem parity_xor (f g : ℕ → BitVec w) (k : ℕ) :
    parity (fun i => f i ^^^ g i) k = parity f k ^^^ parity g k := by
  induction k with
  | zero => simp
  | succ k ih =>
    rw [parity_succ, parity_succ, parity_succ, ih]
    ac_rfl

/-- A column with no bit set. -/
theorem getMsbD_parity_eq_false {j : ℕ} (clear : ∀ i < k, (f i).getMsbD j = false) :
    (parity f k).getMsbD j = false := by
  induction k with
  | zero => simp
  | succ k ih =>
    rw [parity_succ, BitVec.getMsbD_xor, ih fun i hi => clear i (by omega), clear k (by omega)]
    rfl

/-- A column with one bit set. -/
theorem getMsbD_parity_eq_true {i j : ℕ} (hi : i < k) (set : (f i).getMsbD j = true)
    (others : ∀ l < k, l ≠ i → (f l).getMsbD j = false) : (parity f k).getMsbD j = true := by
  induction k with
  | zero => omega
  | succ k ih =>
    rw [parity_succ, BitVec.getMsbD_xor]
    by_cases last : i = k
    · subst last
      rw [getMsbD_parity_eq_false fun l hl => others l (by omega) (by omega), set]
      rfl
    · rw [ih (by omega) fun l hl => others l (by omega), others k (by omega) (by omega)]
      rfl

/-- Two positions of a window in the same column are the same position. -/
theorem eq_of_window {start p q : ℕ} (hp : start ≤ p ∧ p < start + w)
    (hq : start ≤ q ∧ q < start + w) (column : p % w = q % w) : p = q := by
  have rows : p / w = q / w := by
    by_contra other
    have wide (a b : ℕ) (lt : a / w < b / w) (same : a % w = b % w) : a + w ≤ b := by
      have more : w * (a / w + 1) ≤ w * (b / w) := Nat.mul_le_mul_left w lt
      have ha := Nat.div_add_mod a w
      have hb := Nat.div_add_mod b w
      rw [Nat.mul_succ] at more
      omega
    rcases Nat.lt_or_gt_of_ne other with lt | lt
    · have far := wide p q lt column
      omega
    · have far := wide q p lt column.symm
      omega
  rw [← Nat.div_add_mod p w, ← Nat.div_add_mod q w, rows, column]

/-- Two texts of `k` words that differ, but only within `w` consecutive bits. -/
theorem parity_ne_of_burst (start : ℕ) (differ : ∃ p < w * k, bit f p ≠ bit g p)
    (burst : ∀ p < w * k, bit f p ≠ bit g p → start ≤ p ∧ p < start + w) :
    parity f k ≠ parity g k := by
  intro same
  obtain ⟨p, hp, hne⟩ := differ
  have pos : 0 < w := Nat.pos_of_mul_pos_right (Nat.zero_lt_of_lt hp)
  have row : p / w < k := Nat.div_lt_of_lt_mul hp
  -- the difference has the single bit `p` in the column of `p`
  have set : (f (p / w) ^^^ g (p / w)).getMsbD (p % w) = true := by
    rw [BitVec.getMsbD_xor]
    exact (Bool.xor_iff_ne).mpr hne
  have others : ∀ l < k, l ≠ p / w → (f l ^^^ g l).getMsbD (p % w) = false := by
    intro l hl other
    have at_column : (w * l + p % w) % w = p % w := by
      rw [Nat.mul_add_mod, Nat.mod_mod]
    have at_row : (w * l + p % w) / w = l := by
      rw [Nat.mul_add_div pos, Nat.div_eq_of_lt (Nat.mod_lt p pos), Nat.add_zero]
    have inside : w * l + p % w < w * k := by
      have more : w * (l + 1) ≤ w * k := Nat.mul_le_mul_left w hl
      have lt := Nat.mod_lt p pos
      rw [Nat.mul_succ] at more
      omega
    by_contra set
    have hbits : bit f (w * l + p % w) ≠ bit g (w * l + p % w) := by
      rw [bit, bit, at_row, at_column]
      simpa [BitVec.getMsbD_xor] using set
    have position := eq_of_window (burst _ inside hbits) (burst p hp hne) at_column
    exact other (by rw [← at_row, position])
  have odd : (parity (fun i => f i ^^^ g i) k).getMsbD (p % w) = true :=
    getMsbD_parity_eq_true row set others
  rw [parity_xor, same, BitVec.xor_self] at odd
  simp at odd

end Column

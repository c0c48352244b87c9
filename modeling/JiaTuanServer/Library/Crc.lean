import Mathlib.Data.BitVec
import Mathlib.Data.List.GetD
import Mathlib.Logic.Function.Iterate

/-!
# Cyclic redundancy checks, most significant bit first

A register of `w` bits with a polynomial takes in a message bit by bit: `feed`. A shift of the
register is linear in exclusive or, and injective when the polynomial is odd. So up to `w` bits can
be taken in at once (`feed_eq`), which is what makes table-driven and word-wise forms agree with
the bit-serial one, and two messages that differ within `w` consecutive bits never leave the same
register (`feed_ne_of_burst`).
-/

namespace Crc

variable {w : ℕ}

/-- One shift of the register. -/
def shift (poly c : BitVec w) : BitVec w := if c.msb then (c <<< 1) ^^^ poly else c <<< 1

/-- The bit `b` in the top place. -/
def top (b : Bool) : BitVec w := if b then BitVec.intMin w else 0

/-- The register takes in a message. -/
def feed (poly c : BitVec w) (bs : List Bool) : BitVec w :=
  bs.foldl (fun c b => shift poly (c ^^^ top b)) c

/-- At most `w` bits, from the top place down. -/
def pack : List Bool → BitVec w
  | [] => 0
  | b :: bs => top b ^^^ (pack bs >>> 1)

/-- The bits of a word, the most significant one first. -/
def bits (x : BitVec w) : List Bool := (List.range w).map x.getMsbD

variable {poly c d : BitVec w} {bs bs' : List Bool}

@[simp] theorem feed_nil : feed poly c [] = c := rfl

@[simp] theorem feed_append : feed poly c (bs ++ bs') = feed poly (feed poly c bs) bs' :=
  List.foldl_append

@[simp] theorem length_bits (x : BitVec w) : (bits x).length = w := by simp [bits]

theorem getMsbD_top (b : Bool) (i : ℕ) :
    (top b : BitVec w).getMsbD i = (decide (0 < w ∧ i = 0) && b) := by
  cases b <;> simp [top, BitVec.getMsbD_intMin]

theorem getMsbD_pack (bs : List Bool) (i : ℕ) :
    (pack bs : BitVec w).getMsbD i = (decide (i < w) && bs.getD i false) := by
  induction bs generalizing i with
  | nil => simp [pack]
  | cons b bs ih =>
    cases i with
    | zero => simp [pack, getMsbD_top, BitVec.getMsbD_ushiftRight]
    | succ i =>
      simp only [pack, BitVec.getMsbD_xor, getMsbD_top, BitVec.getMsbD_ushiftRight, ih,
        List.getD_cons_succ]
      grind

theorem pack_bits (x : BitVec w) : pack (bits x) = x := by
  apply BitVec.eq_of_getMsbD_eq
  intro i hi
  simp [getMsbD_pack, bits, hi, List.getD_eq_getElem?_getD]

theorem pack_injective (h : bs.length = bs'.length) (short : bs.length ≤ w)
    (same : (pack bs : BitVec w) = pack bs') : bs = bs' := by
  apply List.ext_getElem h
  intro i hi hi'
  have bit := congrArg (fun x => x.getMsbD i) same
  have lt : i < w := by omega
  simpa [getMsbD_pack, lt, hi, hi'] using bit

theorem bits_append {v : ℕ} (x : BitVec w) (y : BitVec v) : bits (x ++ y) = bits x ++ bits y := by
  apply List.ext_getElem (by simp)
  intro i hi hi'
  simp only [bits, List.getElem_map, List.getElem_range, BitVec.getMsbD_append,
    List.getElem_append, List.length_map, List.length_range]
  grind

theorem shift_xor (poly c d : BitVec w) : shift poly (c ^^^ d) = shift poly c ^^^ shift poly d := by
  unfold shift
  rw [BitVec.msb_xor, BitVec.shiftLeft_xor_distrib]
  cases c.msb <;> cases d.msb <;> simp
  · ac_rfl
  · ac_rfl
  · -- the two polynomials cancel
    calc c <<< 1 ^^^ d <<< 1 = c <<< 1 ^^^ d <<< 1 ^^^ (poly ^^^ poly) := by simp
      _ = c <<< 1 ^^^ poly ^^^ (d <<< 1 ^^^ poly) := by ac_rfl

theorem shift_iterate_xor (poly c d : BitVec w) (k : ℕ) :
    (shift poly)^[k] (c ^^^ d) = (shift poly)^[k] c ^^^ (shift poly)^[k] d := by
  induction k generalizing c d with
  | zero => rfl
  | succ k ih => simp only [Function.iterate_succ_apply, shift_xor, ih]

/-- Below the top place a shift only moves the bits up. -/
theorem shift_ushiftRight (poly x : BitVec w) (m : ℕ) (low : x.getMsbD (w - 1 - m) = false) :
    shift poly (x >>> (m + 1)) = x >>> m := by
  have clear : (x >>> (m + 1)).msb = false := by simp [BitVec.msb_ushiftRight]
  rw [shift, clear, if_neg (by simp)]
  apply BitVec.eq_of_getMsbD_eq
  intro i hi
  simp only [BitVec.getMsbD_shiftLeft, BitVec.getMsbD_ushiftRight]
  by_cases last : i + 1 < w
  · grind
  · have e : i = w - 1 := by omega
    subst e
    grind

theorem shift_iterate_ushiftRight (poly x : BitVec w) (k : ℕ) :
    (shift poly)^[k] (x <<< k >>> k) = x <<< k := by
  have each (j : ℕ) (hj : j ≤ k) : (shift poly)^[j] (x <<< k >>> k) = x <<< k >>> (k - j) := by
    induction j with
    | zero => rfl
    | succ j ih =>
      have split : k - j = k - (j + 1) + 1 := by omega
      rw [Function.iterate_succ_apply', ih (by omega), split, shift_ushiftRight]
      simp only [BitVec.getMsbD_shiftLeft]
      exact BitVec.getMsbD_of_ge _ _ (by omega)
  simpa using each k le_rfl

/-- The register takes in up to `w` bits at once. -/
theorem feed_eq (poly c : BitVec w) (short : bs.length ≤ w) :
    feed poly c bs = (shift poly)^[bs.length] (c ^^^ pack bs) := by
  induction bs generalizing c with
  | nil => simp [pack]
  | cons b bs ih =>
    have short' : bs.length < w := short
    have low : (pack bs : BitVec w).getMsbD (w - 1 - 0) = false := by
      rw [getMsbD_pack, List.getD_eq_getElem?_getD, List.getElem?_eq_none (by omega)]
      simp
    calc feed poly c (b :: bs) = feed poly (shift poly (c ^^^ top b)) bs := rfl
      _ = (shift poly)^[bs.length] (shift poly (c ^^^ top b) ^^^ pack bs) := ih _ short'.le
      _ = (shift poly)^[bs.length] (shift poly (c ^^^ top b) ^^^ shift poly (pack bs >>> 1)) := by
        rw [shift_ushiftRight poly _ 0 low, BitVec.ushiftRight_zero]
      _ = (shift poly)^[bs.length] (shift poly (c ^^^ pack (b :: bs))) := by
        rw [← shift_xor, pack, BitVec.xor_assoc]
      _ = (shift poly)^[(b :: bs).length] (c ^^^ pack (b :: bs)) :=
        (Function.iterate_succ_apply _ _ _).symm

/-- A word of the register's width. -/
theorem feed_bits (poly c x : BitVec w) : feed poly c (bits x) = (shift poly)^[w] (c ^^^ x) := by
  rw [feed_eq poly c (by simp), length_bits, pack_bits]

theorem pack_bits_of_le {v : ℕ} (hv : v ≤ w) (x : BitVec v) :
    pack (bits x) = x.setWidth w <<< (w - v) := by
  apply BitVec.eq_of_getMsbD_eq
  intro i hi
  simp only [getMsbD_pack, BitVec.getMsbD_shiftLeft, BitVec.getMsbD_setWidth, bits]
  by_cases lt : i < v
  · grind
  · grind

/-- The table-driven form: a digit of `v` bits is combined with the top `v` bits of the register,
and only these go through `v` shifts. -/
theorem feed_digit {v : ℕ} (hv : v ≤ w) (poly c : BitVec w) (x : BitVec v) :
    feed poly c (bits x) = c <<< v ^^^
      (shift poly)^[v] (((c >>> (w - v)).setWidth v ^^^ x).setWidth w <<< (w - v)) := by
  have parts : c ^^^ x.setWidth w <<< (w - v) =
      (c <<< v >>> v) ^^^ ((c >>> (w - v)).setWidth v ^^^ x).setWidth w <<< (w - v) := by
    apply BitVec.eq_of_getMsbD_eq
    intro i hi
    simp only [BitVec.getMsbD_xor, BitVec.getMsbD_shiftLeft, BitVec.getMsbD_ushiftRight,
      BitVec.getMsbD_setWidth]
    by_cases lt : i < v
    · grind
    · grind
  rw [feed_eq poly c (by simpa using hv), length_bits, pack_bits_of_le hv, parts,
    shift_iterate_xor, shift_iterate_ushiftRight]

theorem shift_injective (odd : poly.getLsbD 0 = true) : Function.Injective (shift poly) := by
  intro c d same
  have zero : shift poly (c ^^^ d) = 0 := by rw [shift_xor, same, BitVec.xor_self]; rfl
  have clear : (c ^^^ d).msb = false := by
    -- a shifted register is even, so an odd polynomial would show in its lowest bit
    by_contra set
    rw [shift, if_pos (by simpa using set)] at zero
    have bit := congrArg (fun x => x.getLsbD 0) zero
    simp [odd] at bit
  have bits (i : ℕ) : (c ^^^ d).getMsbD i = false := by
    cases i with
    | zero => rw [← BitVec.msb_eq_getMsbD_zero, clear]
    | succ i =>
      have bit := congrArg (fun x => x.getMsbD i) zero
      simp only [shift, clear, Bool.false_eq_true, if_false, BitVec.getMsbD_shiftLeft] at bit
      simpa [Nat.add_comm] using bit
  have same : c ^^^ d = 0 := BitVec.eq_of_getMsbD_eq fun i _ => by simpa using bits i
  exact BitVec.xor_eq_zero_iff.mp same

theorem feed_injective_left (odd : poly.getLsbD 0 = true) (bs : List Bool)
    (same : feed poly c bs = feed poly d bs) : c = d := by
  induction bs generalizing c d with
  | nil => exact same
  | cons b bs ih => exact (BitVec.xor_left_inj _).mp (shift_injective odd (ih same))

theorem feed_injective_right (odd : poly.getLsbD 0 = true) (length : bs.length = bs'.length)
    (short : bs.length ≤ w) (same : feed poly c bs = feed poly c bs') : bs = bs' := by
  rw [feed_eq poly c short, feed_eq poly c (length ▸ short), length] at same
  have packed := (shift_injective odd).iterate bs'.length same
  exact pack_injective length short ((BitVec.xor_right_inj c).mp packed)

/-- Two messages that differ, but only within `w` consecutive bits, leave different registers. -/
theorem feed_ne_of_burst (odd : poly.getLsbD 0 = true) (length : bs.length = bs'.length)
    (differ : bs ≠ bs') (start : ℕ)
    (burst : ∀ i, bs[i]? ≠ bs'[i]? → start ≤ i ∧ i < start + w) :
    feed poly c bs ≠ feed poly c bs' := by
  have before : bs.take start = bs'.take start := by
    apply List.ext_getElem?
    intro i
    grind
  have after : (bs.drop start).drop w = (bs'.drop start).drop w := by
    apply List.ext_getElem?
    intro i
    grind
  have split (l : List Bool) :
      l = l.take start ++ ((l.drop start).take w ++ (l.drop start).drop w) := by simp
  intro same
  rw [split bs, split bs', before, after] at same
  simp only [feed_append] at same
  have middle := feed_injective_right odd (by simp [length]) (by simp)
    (feed_injective_left odd _ same)
  apply differ
  rw [split bs, split bs', before, middle, after]

end Crc

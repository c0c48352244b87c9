import JiaTuanServer.Library.Loop
import JiaTuanServer.PublicFunction.AsciiStrToBcd

/-!
# Where the loop of AsciiStrToBcd reads, writes and ends

The bound is an `int`, the counter an `unsigned char` that only takes the even values 0 to 254. So
the loop ends when the rounded bound is at most 254, and never when it is 256 or more: it then goes
on reading past any input, while the output index wraps (`asciiStrToBcd_returns_iff`,
`withinBuffers_iff`).

The bound is rounded up to an even number, so the last iteration on an odd number of characters
consumes the character after them (`asciiStrToBcd_sameBytes_iff`).
-/

namespace JiaTuanServer.PublicFunction

open List

/-- `if (len % 2 != 0) len++` -/
def rounded (len : ℤ) : ℤ := if len.tmod 2 ≠ 0 then len + 1 else len

namespace Packing

/-- The variables before the first test. -/
def start (outbuf : Memory) : Packing := { k := 0, m := 0, b := 0, outbuf := outbuf }

/-- The test and one iteration of the loop up to `len`. -/
def packing (input : Memory) (len : ℤ) : Loop Packing where
  test s := decide ((s.k.toNat : ℤ) < len)
  body := step input

/-- The offsets an iteration reads the input at. -/
def reads (s : Packing) : List ℕ := [s.b, s.b + 1]

/-- The offset an iteration writes the output at. -/
def writes (s : Packing) : ℕ := s.m.toNat

/-- An iteration depends on the input at `reads` only. -/
theorem step_congr {input input' : Memory} {s : Packing}
    (same : ∀ p ∈ s.reads, input p = input' p) : s.step input = s.step input' := by
  have high : input s.b = input' s.b := same _ (by simp [reads])
  have low : input (s.b + 1) = input' (s.b + 1) := same _ (by simp [reads])
  simp only [step, high, low]

/-- An iteration changes the output at `writes` only. -/
theorem step_outbuf (input : Memory) {s : Packing} {i : ℕ} (other : i ≠ s.writes) :
    (s.step input).outbuf i = s.outbuf i :=
  Function.update_of_ne other _ _

theorem loop_eq_run (input : Memory) (len : ℤ) (fuel : ℕ) (s : Packing) :
    loop input len fuel s = (packing input len).run fuel s := by
  induction fuel generalizing s with
  | zero => rfl
  | succ fuel ih => simp only [loop, Loop.run, packing, decide_eq_true_eq, ih]

/-- The counter, the output index and the input pointer before test number `t`. -/
theorem counters (input outbuf : Memory) (len : ℤ) (t : ℕ) :
    let s := (packing input len).after (start outbuf) t
    s.k = BitVec.ofNat 8 (2 * t) ∧ s.m = BitVec.ofNat 8 t ∧ s.b = 2 * t := by
  induction t with
  | zero => exact ⟨rfl, rfl, rfl⟩
  | succ t ih =>
    obtain ⟨k, m, b⟩ := ih
    simp only [Loop.after_succ, packing, step] at k m b ⊢
    refine ⟨?_, ?_, ?_⟩
    · rw [k, Nat.mul_succ, BitVec.ofNat_add, BitVec.add_assoc]
      rfl
    · rw [m, BitVec.ofNat_add]
      rfl
    · rw [b]
      omega

end Packing

open Packing

theorem asciiStrToBcd_eq_run (fuel : ℕ) (outbuf b : Memory) (len : ℤ) :
    asciiStrToBcd fuel outbuf b len =
      ((packing b (rounded len)).run fuel (start outbuf)).map Packing.outbuf := by
  rw [← loop_eq_run]
  rfl

theorem rounded_natCast (len : ℕ) : rounded len = (2 * ((len + 1) / 2) : ℕ) := by
  rw [rounded, roundUp_eq, Nat.cast_mul]
  rfl

/-- The loop on `len` characters ends after one iteration for each byte of the output, reads the
input within the characters rounded up to pairs, and writes each byte of the output once. -/
structure WithinBuffers (outbuf b : Memory) (len : ℕ) : Prop where
  ends : (packing b (rounded len)).EndsAfter (start outbuf) ((len + 1) / 2)
  reads : ∀ t < (len + 1) / 2,
    ∀ p ∈ ((packing b (rounded len)).after (start outbuf) t).reads, p < len + len % 2
  writes : (range ((len + 1) / 2)).map
    (fun t => ((packing b (rounded len)).after (start outbuf) t).writes) ~ range ((len + 1) / 2)

section Bounds

variable (outbuf b : Memory) {len : ℕ}

theorem test_after (t : ℕ) :
    (packing b (rounded len)).test ((packing b (rounded len)).after (start outbuf) t) = true ↔
      2 * t % 256 < 2 * ((len + 1) / 2) := by
  obtain ⟨counter, -, -⟩ := counters b outbuf (rounded len) t
  have test : (packing b (rounded len)).test ((packing b (rounded len)).after (start outbuf) t) =
      decide ((((packing b (rounded len)).after (start outbuf) t).k.toNat : ℤ) < rounded len) := rfl
  rw [test, counter, rounded_natCast, decide_eq_true_eq, BitVec.toNat_ofNat]
  omega

theorem withinBuffers_of_short (short : len ≤ 254) : WithinBuffers outbuf b len where
  ends := by
    refine ⟨fun t ht => (test_after outbuf b t).mpr (by omega), ?_⟩
    rw [← Bool.not_eq_true, test_after]
    omega
  reads t ht p hp := by
    obtain ⟨-, -, pointer⟩ := counters b outbuf (rounded len) t
    simp only [Packing.reads, pointer, mem_cons, not_mem_nil, or_false] at hp
    omega
  writes := by
    have inOrder : (range ((len + 1) / 2)).map
        (fun t => ((packing b (rounded len)).after (start outbuf) t).writes) =
        (range ((len + 1) / 2)).map id := by
      apply map_congr_left
      intro t ht
      obtain ⟨-, index, -⟩ := counters b outbuf (rounded len) t
      have lt := mem_range.mp ht
      rw [Packing.writes, index, BitVec.toNat_ofNat, id, Nat.mod_eq_of_lt (by omega)]
    rw [inOrder, map_id]

/-- From 255 characters on the bound is 256 or more, which the counter never reaches. -/
theorem test_of_long (long : 255 ≤ len) (t : ℕ) :
    (packing b (rounded len)).test ((packing b (rounded len)).after (start outbuf) t) = true :=
  (test_after outbuf b t).mpr (by omega)

theorem not_withinBuffers_of_long (long : 255 ≤ len) : ¬ WithinBuffers outbuf b len := by
  intro within
  have stops := within.ends.stops
  rw [test_of_long outbuf b long] at stops
  cases stops

theorem asciiStrToBcd_long (long : 255 ≤ len) (fuel : ℕ) :
    asciiStrToBcd fuel outbuf b len = none := by
  rw [asciiStrToBcd_eq_run, Loop.run_eq_none (test_of_long outbuf b long), Option.map_none]

/-- AsciiStrToBcd returns exactly up to 254 characters. -/
theorem asciiStrToBcd_returns_iff :
    (∃ fuel out, asciiStrToBcd fuel outbuf b len = some out) ↔ len ≤ 254 := by
  constructor
  · rintro ⟨fuel, out, returns⟩
    by_contra long
    rw [asciiStrToBcd_long outbuf b (by omega)] at returns
    cases returns
  · intro short
    have ends := (withinBuffers_of_short outbuf b short).ends.run (Nat.lt_succ_self _)
    exact ⟨_, _, by rw [asciiStrToBcd_eq_run, ends, Option.map_some]⟩

end Bounds

/-- AsciiStrToBcd ends within its buffers exactly up to 254 characters. -/
theorem withinBuffers_iff (outbuf b : Memory) (len : ℕ) :
    WithinBuffers outbuf b len ↔ len ≤ 254 := by
  constructor
  · intro within
    by_contra long
    exact not_withinBuffers_of_long outbuf b (by omega) within
  · exact withinBuffers_of_short outbuf b

/-- 256 characters, all of them `0`. -/
theorem withinBuffers_not_256 : ¬ WithinBuffers (fun _ => 0) (fun _ => 0x30) 256 :=
  not_withinBuffers_of_long _ _ (by omega)

/-! ## The character after the last -/

/-- Two pairs with the same first character make the same byte exactly when the second ones have
the same value. -/
theorem tohex_or_left_inj (c d d' : Byte) :
    tohex c <<< 4 ||| tohex d = tohex c <<< 4 ||| tohex d' ↔ tohex d = tohex d' := by
  refine ⟨fun same => BitVec.eq_of_toNat_eq ?_, fun same => by rw [same]⟩
  have values := congrArg BitVec.toNat same
  rw [tohex_or, tohex_or] at values
  omega

/-- On the same `len` characters, at most 254, the bytes written are the same exactly when `len` is
even or the characters that follow have the same value as digits. -/
theorem asciiStrToBcd_sameBytes_iff (outbuf outbuf' b b' : Memory) (len fuel : ℕ)
    (short : len ≤ 254) (enough : (len + 1) / 2 < fuel) (agree : ∀ t < len, b t = b' t) :
    ∃ out out', asciiStrToBcd fuel outbuf b len = some out ∧
      asciiStrToBcd fuel outbuf' b' len = some out' ∧
      ((∀ i < (len + 1) / 2, out i = out' i) ↔ len % 2 = 0 ∨ tohex (b len) = tohex (b' len)) := by
  refine ⟨_, _, asciiStrToBcd_rounds outbuf b short enough,
    asciiStrToBcd_rounds outbuf' b' short enough, ?_⟩
  -- a byte whose two characters are among the first `len`
  have inside (i : ℕ) (hi : 2 * i + 1 < len) : packedByte b i = packedByte b' i := by
    rw [packedByte, packedByte, agree _ (by omega), agree _ hi]
  constructor
  · intro same
    by_cases even : len % 2 = 0
    · exact .inl even
    · have last := same (len / 2) (by omega)
      rw [packed, packed, if_pos (by omega), if_pos (by omega), packedByte, packedByte,
        show 2 * (len / 2) + 1 = len by omega, agree _ (by omega), tohex_or_left_inj] at last
      exact .inr last
  · intro following i hi
    rw [packed, packed, if_pos hi, if_pos hi]
    by_cases last : 2 * i + 1 < len
    · exact inside i last
    · obtain even | value := following
      · omega
      · rw [packedByte, packedByte, show 2 * i + 1 = len by omega, agree _ (by omega), value]

/-- The characters `12a`, followed by `D` or by `=`. -/
theorem asciiStrToBcd_sameBytes_threeDigits :
    let b : Memory := fun t => [0x31, 0x32, 0x61, 0x44].getD t 0
    let b' : Memory := fun t => [0x31, 0x32, 0x61, 0x3D].getD t 0
    ∃ out out', asciiStrToBcd 3 (fun _ => 0) b (3 : ℕ) = some out ∧
      asciiStrToBcd 3 (fun _ => 0) b' (3 : ℕ) = some out' ∧ ∀ i < 2, out i = out' i := by
  intro b b'
  obtain ⟨out, out', runs, runs', same⟩ := asciiStrToBcd_sameBytes_iff (fun _ => 0) (fun _ => 0)
    b b' 3 3 (by decide) (by decide) (by decide)
  exact ⟨out, out', runs, runs', same.mpr (.inr (by decide))⟩

/-- The one character `1`, followed by `2` or by `3`, makes `0x12` or `0x13`. -/
theorem asciiStrToBcd_reads_following :
    let b : Memory := fun t => [0x31, 0x32].getD t 0
    let b' : Memory := fun t => [0x31, 0x33].getD t 0
    (∀ t < 1, b t = b' t) ∧
    ∃ out out', asciiStrToBcd 2 (fun _ => 0) b (1 : ℕ) = some out ∧
      asciiStrToBcd 2 (fun _ => 0) b' (1 : ℕ) = some out' ∧ out 0 = 0x12 ∧ out' 0 = 0x13 := by
  intro b b'
  refine ⟨by decide, _, _, asciiStrToBcd_rounds _ b ?_ ?_, asciiStrToBcd_rounds _ b' ?_ ?_, ?_⟩ <;>
    decide

end JiaTuanServer.PublicFunction

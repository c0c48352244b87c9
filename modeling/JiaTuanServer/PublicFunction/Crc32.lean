import JiaTuanServer.PublicFunction.Basic
import Mathlib.Tactic.IntervalCases

/-!
# GenerateCRC32 of public_function.cpp

The routine takes the buffer in words of four bytes, most significant first, shifts each word
through the register bit by bit, and before it reads the last word overwrites the bytes `0xCD` in
it with zeros. A buffer of `4 * len` bytes fits into memory, so no index wraps.
-/

namespace JiaTuanServer.PublicFunction

/-- `byte_int` -/
def byteInt (bytes : Memory) : BitVec 64 :=
  ((bytes 3).setWidth 32 &&& 0xFF#32).setWidth 64 |||
    (((bytes 2).setWidth 32 <<< 8) &&& 0xFF00#32).setWidth 64 |||
    (((bytes 1).setWidth 32 <<< 16) &&& 0xFF0000#32).setWidth 64 |||
    (((bytes 0).setWidth 32 <<< 24) &&& 0xFF000000#32).setWidth 64

/-- `if (DataBuf[a] == 0xcd) DataBuf[a] = 0x00;` -/
def zeroCd (dataBuf : Memory) (a : ℕ) : Memory :=
  if dataBuf a = 0xCD then Function.update dataBuf a 0 else dataBuf

/-- The body of the inner loop, on `crc` and `temp`. -/
def crcBit (s : BitVec 32 × BitVec 32) : BitVec 32 × BitVec 32 :=
  (if (s.1 ^^^ s.2) &&& 0x80000000#32 ≠ 0 then 0x04C11DB7#32 ^^^ (s.1 <<< 1) else s.1 <<< 1,
    s.2 <<< 1)

/-- The body of the outer loop, on `crc` and the buffer. -/
def crcWord (len : ℕ) (s : BitVec 32 × Memory) (i : ℕ) : BitVec 32 × Memory :=
  let dataBuf :=
    if i = len - 1 then
      zeroCd (zeroCd (zeroCd (zeroCd s.2 (i * 4)) (i * 4 + 1)) (i * 4 + 2)) (i * 4 + 3)
    else s.2
  let temp := (byteInt fun j => dataBuf (i * 4 + j)).setWidth 32
  ((crcBit^[32] (s.1, temp)).1, dataBuf)

/-- `GenerateCRC32(DataBuf, len)`: the value returned and the buffer afterwards. -/
def generateCRC32 (dataBuf : Memory) (len : ℕ) : BitVec 64 × Memory :=
  let s := (List.range len).foldl (crcWord len) (0xFFFFFFFF#32, dataBuf)
  (s.1.setWidth 64, s.2)

/-! ## The reference -/

def mpegPolynomial : BitVec 32 := 0x04C11DB7

/-- The entry of the byte table of CRC-32/MPEG-2. -/
def mpegTable (x : Byte) : BitVec 32 := (Crc.shift mpegPolynomial)^[8] (x.setWidth 32 <<< 24)

/-- CRC-32/MPEG-2, a byte at a time from the table. -/
def crc32Mpeg2 (bytes : List Byte) : BitVec 32 :=
  bytes.foldl (fun crc byte => (crc <<< 8) ^^^ mpegTable ((crc >>> 24).setWidth 8 ^^^ byte))
    0xFFFFFFFF

/-- The check value of CRC-32/MPEG-2: the digits from 1 to 9. -/
example : crc32Mpeg2 [0x31, 0x32, 0x33, 0x34, 0x35, 0x36, 0x37, 0x38, 0x39] = 0x0376E6E7 := by
  decide +kernel

/-- The buffer with each byte `0xCD` among the last four replaced by zero. -/
def cleared (dataBuf : Memory) (len : ℕ) : Memory := fun a =>
  if 4 * len - 4 ≤ a ∧ a < 4 * len ∧ dataBuf a = 0xCD then 0 else dataBuf a

/-! ## One word -/

theorem msb_iff (x : BitVec 32) : x &&& 0x80000000#32 ≠ 0 ↔ x.msb = true := by
  have top : (0x80000000#32) = BitVec.twoPow 32 31 := by decide
  rw [top, BitVec.and_twoPow, BitVec.msb_eq_getLsbD_last]
  split <;> simp_all

/-- The inner loop shifts the register and the word together. -/
theorem crcBit_iterate (crc temp : BitVec 32) (k : ℕ) :
    crcBit^[k] (crc, temp) =
      ((Crc.shift mpegPolynomial)^[k] (crc ^^^ temp) ^^^ temp <<< k, temp <<< k) := by
  induction k with
  | zero =>
    rw [Function.iterate_zero_apply, Function.iterate_zero_apply, BitVec.shiftLeft_zero,
      BitVec.xor_assoc, BitVec.xor_self, BitVec.xor_zero]
  | succ k ih =>
    rw [Function.iterate_succ_apply', Function.iterate_succ_apply', ih]
    generalize (Crc.shift mpegPolynomial)^[k] (crc ^^^ temp) = c
    have both : c ^^^ temp <<< k ^^^ temp <<< k = c := by
      rw [BitVec.xor_assoc, BitVec.xor_self, BitVec.xor_zero]
    simp only [crcBit, both, msb_iff, BitVec.shiftLeft_add, BitVec.shiftLeft_xor_distrib,
      Crc.shift, Prod.mk.injEq, and_true]
    split
    · simp only [mpegPolynomial]
      ac_rfl
    · rfl

theorem crcBit_word (crc temp : BitVec 32) :
    (crcBit^[32] (crc, temp)).1 = Crc.feed mpegPolynomial crc (Crc.bits temp) := by
  rw [crcBit_iterate, Crc.feed_bits]
  simp

theorem byteInt_eq (bytes : Memory) :
    (byteInt bytes).setWidth 32 = bytes 0 ++ bytes 1 ++ bytes 2 ++ bytes 3 := by
  apply BitVec.eq_of_getLsbD_eq
  intro i hi
  simp only [byteInt, BitVec.getLsbD_setWidth, BitVec.getLsbD_or, BitVec.getLsbD_and,
    BitVec.getLsbD_shiftLeft, BitVec.getLsbD_append]
  interval_cases i <;> simp

theorem bits_byteInt (bytes : Memory) :
    Crc.bits ((byteInt bytes).setWidth 32) = messageBits bytes 4 := by
  rw [byteInt_eq, Crc.bits_append, Crc.bits_append, Crc.bits_append]
  simp [messageBits, List.range_succ]

/-! ## The whole buffer -/

theorem zeroCd_apply (dataBuf : Memory) (a x : ℕ) :
    zeroCd dataBuf a x = if x = a ∧ dataBuf x = 0xCD then 0 else dataBuf x := by
  unfold zeroCd
  by_cases hx : x = a
  · subst hx
    split <;> simp_all
  · split <;> simp [hx]

/-- What the routine does to the buffer before it reads the last word. -/
theorem zeroCd_lastWord (dataBuf : Memory) (i : ℕ) :
    zeroCd (zeroCd (zeroCd (zeroCd dataBuf (4 * i)) (4 * i + 1)) (4 * i + 2)) (4 * i + 3) =
      cleared dataBuf (i + 1) := by
  funext x
  simp only [zeroCd_apply, cleared]
  grind

/-- Before the last word nothing is replaced. -/
theorem cleared_of_lt (dataBuf : Memory) {len a : ℕ} (ha : a < 4 * len - 4) :
    cleared dataBuf len a = dataBuf a := by
  unfold cleared
  rw [if_neg]
  omega

/-- One word of the cleared buffer. -/
theorem crcWord_eq (dataBuf : Memory) (crc : BitVec 32) {len i : ℕ} (hi : i < len) :
    crcWord len (crc, dataBuf) i =
      (Crc.feed mpegPolynomial crc (messageBits (fun j => cleared dataBuf len (4 * i + j)) 4),
        if i + 1 = len then cleared dataBuf len else dataBuf) := by
  by_cases last : i + 1 = len
  · subst last
    simp only [crcWord, Nat.add_sub_cancel, if_true, zeroCd_lastWord, crcBit_word, bits_byteInt,
      Nat.mul_comm i 4]
  · have earlier : i ≠ len - 1 := by omega
    have same : messageBits (fun j => cleared dataBuf len (4 * i + j)) 4 =
        messageBits (fun j => dataBuf (4 * i + j)) 4 := by
      apply messageBits_congr
      intro j hj
      exact cleared_of_lt dataBuf (by omega)
    simp only [crcWord, if_neg earlier, if_neg last, crcBit_word, bits_byteInt, same,
      Nat.mul_comm i 4]

/-- The first `i` words. -/
theorem crcWord_foldl (dataBuf : Memory) (crc : BitVec 32) {len i : ℕ} (hi : i ≤ len) :
    (List.range i).foldl (crcWord len) (crc, dataBuf) =
      (Crc.feed mpegPolynomial crc (messageBits (cleared dataBuf len) (4 * i)),
        if i = len then cleared dataBuf len else dataBuf) := by
  induction i with
  | zero =>
    by_cases empty : 0 = len
    · subst empty
      have same : cleared dataBuf 0 = dataBuf := by
        funext a
        simp [cleared]
      simp [messageBits, same]
    · simp [messageBits, empty]
  | succ i ih =>
    have hne : i ≠ len := by omega
    rw [List.range_succ, List.foldl_append, ih (by omega), if_neg hne, List.foldl_cons,
      List.foldl_nil, crcWord_eq dataBuf _ (by omega), Nat.mul_succ, messageBits_append,
      Crc.feed_append]

theorem crc32Mpeg2_eq (dataBuf : Memory) (k : ℕ) :
    crc32Mpeg2 ((List.range k).map dataBuf) =
      Crc.feed mpegPolynomial 0xFFFFFFFF (messageBits dataBuf k) := by
  have each (bytes : List Byte) (crc : BitVec 32) :
      bytes.foldl (fun (crc : BitVec 32) byte =>
        (crc <<< 8) ^^^ mpegTable ((crc >>> 24).setWidth 8 ^^^ byte)) crc =
        Crc.feed mpegPolynomial crc (bytes.flatMap Crc.bits) := by
    induction bytes generalizing crc with
    | nil => rfl
    | cons byte bytes ih =>
      rw [List.foldl_cons, ih, List.flatMap_cons, Crc.feed_append,
        Crc.feed_digit (by omega) mpegPolynomial crc byte]
      rfl
  rw [crc32Mpeg2, each, messageBits, List.flatMap_map]

theorem generateCRC32_eq (dataBuf : Memory) (len : ℕ) :
    generateCRC32 dataBuf len =
      ((Crc.feed mpegPolynomial 0xFFFFFFFF
        (messageBits (cleared dataBuf len) (4 * len))).setWidth 64, cleared dataBuf len) := by
  simp [generateCRC32, crcWord_foldl dataBuf _ (le_refl len)]

/-- `GenerateCRC32` returns the CRC-32/MPEG-2 of the buffer in which each byte `0xCD` of the last
word is replaced by zero, and leaves that buffer. -/
theorem generateCRC32_standard (dataBuf : Memory) (len : ℕ) :
    (generateCRC32 dataBuf len).1 =
      (crc32Mpeg2 ((List.range (4 * len)).map (cleared dataBuf len))).setWidth 64 ∧
    (generateCRC32 dataBuf len).1.toNat < 2 ^ 32 ∧
    (generateCRC32 dataBuf len).2 = cleared dataBuf len := by
  rw [generateCRC32_eq, crc32Mpeg2_eq]
  refine ⟨rfl, ?_, rfl⟩
  rw [BitVec.toNat_setWidth_of_le (by omega)]
  exact BitVec.isLt _

/-! ## Burst errors -/

/-- Two buffers that still differ after the replacement in the last word, but only within 32
consecutive bits, have different check values. -/
theorem generateCRC32_burst (a b : Memory) (len start : ℕ)
    (differ : ∃ p < 32 * len, bitAt (cleared a len) p ≠ bitAt (cleared b len) p)
    (burst : ∀ p < 32 * len, bitAt (cleared a len) p ≠ bitAt (cleared b len) p →
      start ≤ p ∧ p < start + 32) :
    (generateCRC32 a len).1 ≠ (generateCRC32 b len).1 := by
  have bit (m : Memory) (p : ℕ) :
      (messageBits m (4 * len))[p]? = if p < 32 * len then some (bitAt m p) else none := by
    rw [messageBits_eq, List.getElem?_map, show 8 * (4 * len) = 32 * len by omega]
    split <;> simp_all
  intro same
  rw [generateCRC32_eq, generateCRC32_eq] at same
  have registers := congrArg (BitVec.setWidth 32) same
  simp only [BitVec.setWidth_setWidth_of_le _ (show 32 ≤ 64 by omega), BitVec.setWidth_eq]
    at registers
  refine Crc.feed_ne_of_burst (by decide) ?_ (fun e => ?_) start (fun p hp => ?_) registers
  · simp [messageBits_eq]
  · obtain ⟨p, hp, hne⟩ := differ
    apply hne
    have both := congrArg (fun l => l[p]?) e
    simpa [bit, hp] using both
  · by_cases lt : p < 32 * len
    · exact burst p lt (by simpa [bit, lt] using hp)
    · simp [bit, lt] at hp

/-- Two buffers of two words of `0xCD`, but for the last bit of the first one. -/
theorem generateCRC32_burst_oneBit :
    (generateCRC32 (fun _ => 0xCD) 2).1 ≠
      (generateCRC32 (Function.update (fun _ => 0xCD) 3 0xCC) 2).1 := by
  refine generateCRC32_burst _ _ 2 31 ⟨31, ?_⟩ ?_ <;> decide +kernel

/-- A last byte `0xCD` is taken for zero; and where it replaces only part of a burst by zeros, the
burst that is left can be longer than 32 bits and go undetected. -/
theorem generateCRC32_misses_cd :
    (∃ (a b : Memory) (len start : ℕ), 1 ≤ len ∧ (∃ p < 32 * len, bitAt a p ≠ bitAt b p) ∧
      (∀ p < 32 * len, bitAt a p ≠ bitAt b p → start ≤ p ∧ p < start + 32) ∧
      (generateCRC32 a len).1 = (generateCRC32 b len).1) ∧
    ∃ (a b : Memory) (len start : ℕ),
      (∃ p < 32 * len, bitAt (cleared a len) p ≠ bitAt (cleared b len) p) ∧
      (∀ p < 32 * len, bitAt a p ≠ bitAt b p → start ≤ p ∧ p < start + 32) ∧
      (generateCRC32 a len).1 = (generateCRC32 b len).1 := by
  let cd (i : ℕ) : Memory := Function.update (fun _ => 0) i 0xCD
  let polynomial : Memory := fun a => [0, 0, 0, 1, 0x04, 0xC1, 0x1D, 0xB7].getD a 0
  refine ⟨⟨cd 3, fun _ => 0, 1, 0, le_rfl, ⟨24, ?_⟩, ?_, ?_⟩,
    cd 7, polynomial, 2, 31, ⟨31, ?_⟩, ?_, ?_⟩ <;> decide +kernel

end JiaTuanServer.PublicFunction

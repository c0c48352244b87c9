import JiaTuanServer.PublicFunction.Basic

/-!
# AsciiStrToBcd of public_function.cpp

Two characters make one byte. The loop counter and the output index are `unsigned char`, and the
counter is advanced twice an iteration, so the loop is run with fuel: `none` is a loop that has not
ended yet. Up to 254 characters nothing wraps, and `packedState` is where the loop stands after
each iteration.
-/

namespace JiaTuanServer.PublicFunction

def tohex (b : Byte) : Byte :=
  if b > 0x2F ∧ b < 0x3A then b - 0x30
  else if b = 0x61 ∨ b = 0x41 then 0xA
  else if b = 0x62 ∨ b = 0x42 then 0xB
  else if b = 0x63 ∨ b = 0x43 then 0xC
  -- the third character is '='
  else if b = 0x64 ∨ b = 0x44 ∨ b = 0x3D then 0xD
  else if b = 0x65 ∨ b = 0x45 then 0xE
  else if b = 0x66 ∨ b = 0x46 then 0xF
  else 0

/-- The variables of the loop; `b` is how far the input pointer has been advanced. -/
structure Packing where
  k : Byte
  m : Byte
  b : ℕ
  outbuf : Memory

/-- One iteration, with the two increments of `k`. -/
def Packing.step (input : Memory) (s : Packing) : Packing :=
  let i := tohex (input s.b) <<< 4
  let i := i ||| tohex (input (s.b + 1))
  { k := s.k + 1 + 1, m := s.m + 1, b := s.b + 2
    outbuf := Function.update s.outbuf s.m.toNat i }

/-- The loop, from a state before its test. -/
def Packing.loop (input : Memory) (len : ℤ) : ℕ → Packing → Option Packing
  | 0, _ => none
  | fuel + 1, s => if (s.k.toNat : ℤ) < len then loop input len fuel (s.step input) else some s

/-- `AsciiStrToBcd(outbuf, b, len)`: the output buffer afterwards. -/
def asciiStrToBcd (fuel : ℕ) (outbuf b : Memory) (len : ℤ) : Option Memory :=
  let len := if len.tmod 2 ≠ 0 then len + 1 else len
  (Packing.loop b len fuel { k := 0, m := 0, b := 0, outbuf := outbuf }).map Packing.outbuf

/-! ## Hexadecimal digits -/

/-- `0` to `9`, `A` to `F` or `a` to `f`. -/
def IsHexDigit (c : Byte) : Prop :=
  48 ≤ c.toNat ∧ c.toNat ≤ 57 ∨ 65 ≤ c.toNat ∧ c.toNat ≤ 70 ∨ 97 ≤ c.toNat ∧ c.toNat ≤ 102

instance (c : Byte) : Decidable (IsHexDigit c) := inferInstanceAs (Decidable (_ ∨ _))

/-- The value of a hexadecimal digit. -/
def hexValue (c : Byte) : ℕ :=
  if c.toNat ≤ 57 then c.toNat - 48 else if c.toNat ≤ 70 then c.toNat - 55 else c.toNat - 87

/-- The upper-case digit of a value. -/
def hexDigit (v : ℕ) : Byte := BitVec.ofNat 8 (if v < 10 then 48 + v else 55 + v)

/-- `c` in upper case. -/
def upperCase (c : Byte) : Byte := if 97 ≤ c.toNat ∧ c.toNat ≤ 122 then c - 32 else c

/-- The first `n` bytes in upper-case hexadecimal. -/
def renderHex (bytes : Memory) (n : ℕ) : List Byte :=
  (List.range n).flatMap fun i =>
    [hexDigit ((bytes i).toNat / 16), hexDigit ((bytes i).toNat % 16)]

theorem tohex_digit : ∀ c : Byte, IsHexDigit c →
    (tohex c).toNat = hexValue c ∧ hexValue c < 16 ∧ hexDigit (hexValue c) = upperCase c := by
  decide +kernel

theorem tohex_lt : ∀ c : Byte, (tohex c).toNat < 16 := by decide +kernel

/-- The two halves of a byte do not overlap. -/
theorem tohex_or (c d : Byte) :
    (tohex c <<< 4 ||| tohex d).toNat = 16 * (tohex c).toNat + (tohex d).toNat := by
  have high := tohex_lt c
  have low := tohex_lt d
  have fits : (tohex c).toNat <<< 4 < 2 ^ 8 := by
    rw [Nat.shiftLeft_eq]
    omega
  rw [BitVec.toNat_or, BitVec.toNat_shiftLeft, Nat.mod_eq_of_lt fits,
    ← Nat.shiftLeft_add_eq_or_of_lt (by omega), Nat.shiftLeft_eq]
  omega

/-- A byte made of two digits. -/
theorem tohex_pack {c d : Byte} (hc : IsHexDigit c) (hd : IsHexDigit d) :
    (tohex c <<< 4 ||| tohex d).toNat = 16 * hexValue c + hexValue d := by
  rw [tohex_or, (tohex_digit c hc).1, (tohex_digit d hd).1]

/-! ## The loop -/

/-- The byte that iteration `t` writes. -/
def packedByte (input : Memory) (t : ℕ) : Byte :=
  tohex (input (2 * t)) <<< 4 ||| tohex (input (2 * t + 1))

/-- The output buffer with its first `n` bytes packed. -/
def packed (outbuf input : Memory) (n : ℕ) : Memory := fun i =>
  if i < n then packedByte input i else outbuf i

/-- The loop after `t` iterations. -/
def packedState (outbuf input : Memory) (t : ℕ) : Packing where
  k := BitVec.ofNat 8 (2 * t)
  m := BitVec.ofNat 8 t
  b := 2 * t
  outbuf := packed outbuf input t

theorem packedState_step (outbuf input : Memory) {t : ℕ} (ht : t < 256) :
    (packedState outbuf input t).step input = packedState outbuf input (t + 1) := by
  have index : (BitVec.ofNat 8 t).toNat = t := by simp; omega
  simp only [packedState, Packing.step, index, Packing.mk.injEq]
  refine ⟨?_, ?_, by omega, ?_⟩
  · rw [Nat.mul_succ, BitVec.ofNat_add, BitVec.add_assoc]
    rfl
  · rw [BitVec.ofNat_add]
    rfl
  · funext i
    simp only [Function.update_apply, packed, packedByte]
    grind

/-- A loop that still has iterations to do. -/
theorem Packing.loop_packed (outbuf input : Memory) {n t : ℕ} (hn : n ≤ 127) (ht : t ≤ n)
    {fuel : ℕ} (enough : n - t < fuel) :
    loop input (2 * n) fuel (packedState outbuf input t) =
      some (packedState outbuf input n) := by
  induction fuel generalizing t with
  | zero => omega
  | succ fuel ih =>
    have counter : ((packedState outbuf input t).k.toNat : ℤ) = 2 * t := by
      simp only [packedState, BitVec.toNat_ofNat]
      omega
    rw [loop, counter]
    by_cases last : t = n
    · subst last
      rw [if_neg (by omega)]
    · rw [if_pos (by omega), packedState_step _ _ (by omega)]
      exact ih (by omega) (by omega)

theorem packedState_zero (outbuf input : Memory) :
    packedState outbuf input 0 = { k := 0, m := 0, b := 0, outbuf := outbuf } := by
  have nothing : packed outbuf input 0 = outbuf := by
    funext i
    simp [packed]
  simp [packedState, nothing]

/-- The bound of the loop is rounded up to an even number. -/
theorem roundUp_eq (len : ℕ) :
    (if (len : ℤ).tmod 2 ≠ 0 then (len : ℤ) + 1 else len) = 2 * ((len + 1) / 2 : ℕ) := by
  rw [Int.tmod_eq_emod_of_nonneg (by omega)]
  split <;> omega

/-- Up to 254 characters, even or odd, every pair makes a byte. -/
theorem asciiStrToBcd_rounds (outbuf input : Memory) {len fuel : ℕ} (short : len ≤ 254)
    (enough : (len + 1) / 2 < fuel) :
    asciiStrToBcd fuel outbuf input len = some (packed outbuf input ((len + 1) / 2)) := by
  simp only [asciiStrToBcd, roundUp_eq]
  rw [← packedState_zero outbuf input, Packing.loop_packed outbuf input (by omega)
    (Nat.zero_le _) (by omega)]
  rfl

theorem asciiStrToBcd_eq (outbuf input : Memory) {len fuel : ℕ} (even : len % 2 = 0)
    (short : len ≤ 254) (enough : len / 2 < fuel) :
    asciiStrToBcd fuel outbuf input len = some (packed outbuf input (len / 2)) := by
  have half : (len + 1) / 2 = len / 2 := by omega
  rw [asciiStrToBcd_rounds outbuf input short (by omega), half]

/-! ## What the bytes say -/

theorem range_pairs {α : Type*} (f : ℕ → α) (n : ℕ) :
    (List.range (2 * n)).map f = (List.range n).flatMap fun i => [f (2 * i), f (2 * i + 1)] := by
  induction n with
  | zero => rfl
  | succ n ih =>
    rw [Nat.mul_succ, List.range_succ, List.range_succ, List.range_succ, List.flatMap_append, ← ih]
    simp

theorem renderHex_congr {bytes bytes' : Memory} {n : ℕ} (same : ∀ i < n, bytes i = bytes' i) :
    renderHex bytes n = renderHex bytes' n := by
  unfold renderHex
  apply List.flatMap_congr
  intro i hi
  rw [same i (List.mem_range.mp hi)]

/-- Rendering the packed digits gives them back in upper case. -/
theorem renderHex_packed (outbuf : Memory) {input : Memory} {n : ℕ}
    (digits : ∀ t < 2 * n, IsHexDigit (input t)) :
    renderHex (packed outbuf input n) n =
      (List.range (2 * n)).map fun t => upperCase (input t) := by
  rw [range_pairs, renderHex]
  apply List.flatMap_congr
  intro i hi
  have lt := List.mem_range.mp hi
  have high := digits (2 * i) (by omega)
  have low := digits (2 * i + 1) (by omega)
  obtain ⟨-, -, highDigit⟩ := tohex_digit _ high
  obtain ⟨-, lowLt, lowDigit⟩ := tohex_digit _ low
  have value : (packed outbuf input n i).toNat =
      16 * hexValue (input (2 * i)) + hexValue (input (2 * i + 1)) := by
    rw [packed, if_pos lt]
    exact tohex_pack high low
  have upper : (packed outbuf input n i).toNat / 16 = hexValue (input (2 * i)) := by omega
  have lower : (packed outbuf input n i).toNat % 16 = hexValue (input (2 * i + 1)) := by omega
  rw [upper, lower, highDigit, lowDigit]

/-- `AsciiStrToBcd` on an even number of hexadecimal digits, at most 254: each pair of digits makes
one byte, nothing else is written, and the bytes determine the digits up to letter case. -/
theorem asciiStrToBcd_packs (outbuf b : Memory) (len fuel : ℕ) (even : len % 2 = 0)
    (short : len ≤ 254) (enough : len / 2 < fuel) (digits : ∀ t < len, IsHexDigit (b t)) :
    ∃ out, asciiStrToBcd fuel outbuf b len = some out ∧
      (∀ i < len / 2, (out i).toNat = 16 * hexValue (b (2 * i)) + hexValue (b (2 * i + 1))) ∧
      (∀ i, len / 2 ≤ i → out i = outbuf i) ∧
      renderHex out (len / 2) = (List.range len).map (fun t => upperCase (b t)) ∧
      ∀ outbuf' b' out', (∀ t < len, IsHexDigit (b' t)) →
        asciiStrToBcd fuel outbuf' b' len = some out' → (∀ i < len / 2, out i = out' i) →
        ∀ t < len, upperCase (b t) = upperCase (b' t) := by
  obtain ⟨n, rfl⟩ : ∃ n, len = 2 * n := ⟨len / 2, by omega⟩
  have runs (outbuf b : Memory) :
      asciiStrToBcd fuel outbuf b (2 * n : ℕ) = some (packed outbuf b n) := by
    rw [asciiStrToBcd_eq outbuf b even short enough, Nat.mul_div_cancel_left n (by omega)]
  rw [Nat.mul_div_cancel_left n (by omega)]
  refine ⟨packed outbuf b n, runs outbuf b, fun i hi => ?_, fun i hi => ?_,
    renderHex_packed outbuf digits, fun outbuf' b' out' digits' runs' same t ht => ?_⟩
  · rw [packed, if_pos hi]
    exact tohex_pack (digits _ (by omega)) (digits _ (by omega))
  · rw [packed, if_neg (by omega)]
  · obtain rfl : packed outbuf' b' n = out' := Option.some.inj ((runs outbuf' b').symm.trans runs')
    have texts := renderHex_congr same
    rw [renderHex_packed outbuf digits, renderHex_packed outbuf' digits'] at texts
    exact List.map_inj_left.mp texts t (List.mem_range.mpr ht)

/-- The digits `1`, `a`, `F` and `0` make the bytes `0x1A` and `0xF0`. -/
theorem asciiStrToBcd_packs_fourDigits :
    let b : Memory := fun t => [0x31, 0x61, 0x46, 0x30].getD t 0
    ∃ out, asciiStrToBcd 3 (fun _ => 0) b (4 : ℕ) = some out ∧ out 0 = 0x1A ∧ out 1 = 0xF0 ∧
      out 2 = 0 ∧ renderHex out 2 = [0x31, 0x41, 0x46, 0x30] := by
  intro b
  obtain ⟨out, runs, values, others, rendered, -⟩ :=
    asciiStrToBcd_packs (fun _ => 0) b 4 3 rfl (by decide) (by decide) (by decide)
  refine ⟨out, runs, ?_, ?_, others 2 le_rfl, rendered.trans (by decide)⟩
  · exact BitVec.eq_of_toNat_eq (values 0 (by omega))
  · exact BitVec.eq_of_toNat_eq (values 1 (by omega))

end JiaTuanServer.PublicFunction

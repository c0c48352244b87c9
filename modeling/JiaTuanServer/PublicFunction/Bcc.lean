import JiaTuanServer.Library.ColumnParity
import JiaTuanServer.PublicFunction.Basic

/-!
# get_bcc_data of public_function.cpp

The check byte is the exclusive or of the bytes, the parity of the eight columns of bits.
-/

namespace JiaTuanServer.PublicFunction

/-- `get_bcc_data(data, len)` -/
def getBccData (data : Memory) (len : ℤ) : Byte :=
  (List.range len.toNat).foldl (fun bcc i => bcc ^^^ data i) 0

theorem getBccData_eq_parity (data : Memory) (len : ℕ) :
    getBccData data len = Column.parity data len := rfl

/-- The check bytes of two messages of `len` bytes that differ, but only within 8 consecutive
bits. -/
theorem getBccData_burst (a b : Memory) (len start : ℕ)
    (differ : ∃ p < 8 * len, bitAt a p ≠ bitAt b p)
    (burst : ∀ p < 8 * len, bitAt a p ≠ bitAt b p → start ≤ p ∧ p < start + 8) :
    getBccData a len ≠ getBccData b len := by
  rw [getBccData_eq_parity, getBccData_eq_parity]
  exact Column.parity_ne_of_burst start differ burst

/-- Three zero bytes, and the same with the bits 6 to 13 set, in the first and the second byte. -/
theorem getBccData_burst_twoBytes :
    getBccData (fun _ => 0) (3 : ℕ) ≠
      getBccData (fun i => [0x03, 0xFC].getD i 0) (3 : ℕ) := by
  refine getBccData_burst _ _ 3 6 ⟨6, ?_⟩ ?_ <;> decide

end JiaTuanServer.PublicFunction

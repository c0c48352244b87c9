import JiaTuanServer.Library.Crc

/-!
# Buffers of bytes

The routines of public_function.cpp take pointers to `unsigned char`. What such a pointer points to
is a function from the offset; the bits of a buffer are numbered with the most significant bit of
each byte first.
-/

namespace JiaTuanServer.PublicFunction

/-- `unsigned char` -/
abbrev Byte := BitVec 8

/-- What a pointer points to, by offset. -/
abbrev Memory := ℕ → Byte

/-- The first `k` bytes, bit by bit, the most significant bit first. -/
def messageBits (dataBuf : Memory) (k : ℕ) : List Bool :=
  (List.range k).flatMap fun a => Crc.bits (dataBuf a)

/-- Bit `p` of the buffer, the most significant bit of each byte first. -/
def bitAt (dataBuf : Memory) (p : ℕ) : Bool := (dataBuf (p / 8)).getMsbD (p % 8)

theorem messageBits_append (dataBuf : Memory) (k l : ℕ) :
    messageBits dataBuf (k + l) =
      messageBits dataBuf k ++ messageBits (fun j => dataBuf (k + j)) l := by
  simp [messageBits, List.range_add, List.flatMap_map]

theorem messageBits_congr {f g : Memory} {k : ℕ} (same : ∀ a < k, f a = g a) :
    messageBits f k = messageBits g k := by
  unfold messageBits
  apply List.flatMap_congr
  intro a ha
  rw [same a (List.mem_range.mp ha)]

theorem messageBits_eq (dataBuf : Memory) (k : ℕ) :
    messageBits dataBuf k = (List.range (8 * k)).map (bitAt dataBuf) := by
  induction k with
  | zero => rfl
  | succ k ih =>
    have byte : messageBits (fun j => dataBuf (k + j)) 1 =
        (List.range 8).map fun j => bitAt dataBuf (8 * k + j) := by
      simp only [messageBits, Crc.bits, List.range_one, List.flatMap_singleton, Nat.add_zero]
      apply List.map_congr_left
      intro j hj
      have lt := List.mem_range.mp hj
      rw [bitAt, show (8 * k + j) / 8 = k by omega, show (8 * k + j) % 8 = j by omega]
    rw [messageBits_append, ih, byte, Nat.mul_succ, List.range_add, List.map_append, List.map_map]
    rfl

end JiaTuanServer.PublicFunction

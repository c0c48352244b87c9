import Mathlib.Algebra.GroupWithZero.Nat
import JiaTuanServer.Library.Memory
import JiaTuanServer.Request.Json

/-!
# The chains of an evbuffer

libevent keeps the bytes of an evbuffer in chains. A chain is one allocation: `off` bytes of data
from `misalign` on, and free space behind them. That the data lie inside the allocation is a field
of the chain, so a copy that would leave it does not yield a chain.

The chains here are neither pinned nor immutable; no caller in this server makes such chains.
-/

namespace JiaTuanServer.Libevent

open Memory
open Request (Bytes)

/-- What a call can run into. -/
inductive Fault where
  /-- A failed `EVUTIL_ASSERT`. -/
  | assertion
  /-- A null pointer is followed. -/
  | null
  /-- A copy past the end of a chain or of the caller's array. -/
  | overrun
  deriving DecidableEq, Repr

/-- `EVBUFFER_CHAIN_SIZE`, the size of `struct evbuffer_chain`. -/
def evbufferChainSize : ℕ := 48

/-- `EVBUFFER_CHAIN_MAX` -/
def evbufferChainMax : ℕ := 9223372036854775807

/-- `MIN_BUFFER_SIZE` -/
def minBufferSize : ℕ := 1024

/-- `mm_malloc` during a call: memory of the size asked for, with anything in it, or none. -/
structure Malloc where
  memory : ℕ → Option Bytes
  size : ∀ n m, memory n = some m → m.length = n

structure EvbufferChain where
  /-- The `buffer_len` bytes at `buffer`. -/
  buffer : Bytes
  misalign : ℕ
  off : ℕ
  fits : misalign + off ≤ buffer.length
  small : buffer.length ≤ evbufferChainMax
  deriving DecidableEq

namespace EvbufferChain

def bufferLen (chain : EvbufferChain) : ℕ := chain.buffer.length

/-- The bytes stored in the chain. -/
def data (chain : EvbufferChain) : Bytes := load chain.buffer chain.misalign chain.off

/-- `CHAIN_SPACE_LEN` -/
def spaceLen (chain : EvbufferChain) : ℕ := chain.bufferLen - (chain.misalign + chain.off)

/-- `memcpy(chain->buffer + offset, bytes, ...)` -/
def memcpy (chain : EvbufferChain) (offset : ℕ) (bytes : Bytes) : Except Fault EvbufferChain :=
  if inside : offset + bytes.length ≤ chain.buffer.length then
    pure
      { chain with
        buffer := store chain.buffer offset bytes
        fits := by
          rw [length_store inside]
          exact chain.fits
        small := by
          rw [length_store inside]
          exact chain.small }
  else throw .overrun

/-- `chain->off += n` -/
def extend (chain : EvbufferChain) (n : ℕ) : Except Fault EvbufferChain :=
  if inside : chain.misalign + (chain.off + n) ≤ chain.buffer.length then
    pure { chain with off := chain.off + n, fits := inside }
  else throw .overrun

/-- Bytes into the space behind the data. -/
def append (chain : EvbufferChain) (bytes : Bytes) : Except Fault EvbufferChain := do
  let chain ← chain.memcpy (chain.misalign + chain.off) bytes
  chain.extend bytes.length

theorem length_data (chain : EvbufferChain) : chain.data.length = chain.off :=
  length_load chain.fits

/-- `chain->misalign = 0` for a chain without data. -/
def rewind (chain : EvbufferChain) : EvbufferChain :=
  { chain with
    misalign := 0
    fits := by
      have := chain.fits
      omega }

/-- `evbuffer_chain_align` -/
def align (chain : EvbufferChain) : EvbufferChain :=
  have inside : 0 + chain.data.length ≤ chain.buffer.length := by
    have := chain.fits
    rw [chain.length_data]
    omega
  { chain with
    buffer := store chain.buffer 0 chain.data
    misalign := 0
    fits := by
      rw [length_store inside, ← chain.length_data]
      exact inside
    small := by
      rw [length_store inside]
      exact chain.small }

/-- `chain->misalign += n` and `chain->off -= n` -/
def advance (chain : EvbufferChain) (n : ℕ) : Except Fault EvbufferChain :=
  if inside : n ≤ chain.off then
    pure
      { chain with
        misalign := chain.misalign + n
        off := chain.off - n
        fits := by
          have := chain.fits
          omega }
  else throw .assertion

/-- `MAX_TO_REALIGN_IN_EXPAND` -/
def maxToRealignInExpand : ℕ := 2048

/-- `evbuffer_chain_should_realign` -/
def shouldRealign (chain : EvbufferChain) (datalen : ℕ) : Bool :=
  chain.bufferLen - chain.off ≥ datalen && chain.off < chain.bufferLen / 2 &&
    chain.off ≤ maxToRealignInExpand

/-! ## What the copies do -/

variable {chain chain' : EvbufferChain} {bytes : Bytes} {n : ℕ}

@[simp] theorem data_eq_nil_iff : chain.data = [] ↔ chain.off = 0 := by
  rw [← List.length_eq_zero_iff, length_data]

/-- Bytes copied into the space become data when `off` moves behind them. -/
theorem fill_ok (room : bytes.length ≤ chain.spaceLen) :
    ∃ chain₁ chain₂, chain.memcpy (chain.misalign + chain.off) bytes = .ok chain₁ ∧
      chain₁.spaceLen = chain.spaceLen ∧ chain₁.extend bytes.length = .ok chain₂ ∧
      chain₂.data = chain.data ++ bytes ∧ chain₂.off = chain.off + bytes.length := by
  have fits := chain.fits
  have inside : chain.misalign + chain.off + bytes.length ≤ chain.buffer.length := by
    simp only [spaceLen, bufferLen] at room
    omega
  have kept := length_store inside
  have fits₁ : chain.misalign + chain.off ≤
      (store chain.buffer (chain.misalign + chain.off) bytes).length := by omega
  have small : (store chain.buffer (chain.misalign + chain.off) bytes).length ≤
      evbufferChainMax := by
    rw [kept]
    exact chain.small
  have fits₂ : chain.misalign + (chain.off + bytes.length) ≤
      (store chain.buffer (chain.misalign + chain.off) bytes).length := by omega
  refine ⟨⟨_, chain.misalign, chain.off, fits₁, small⟩,
    ⟨_, chain.misalign, chain.off + bytes.length, fits₂, small⟩, dif_pos inside, ?_, dif_pos fits₂,
    load_store_behind inside, rfl⟩
  change (store chain.buffer (chain.misalign + chain.off) bytes).length - _ = _
  rw [kept]
  rfl

/-- As much as there is space for can be appended. -/
theorem append_ok (room : bytes.length ≤ chain.spaceLen) :
    ∃ chain', chain.append bytes = .ok chain' ∧ chain'.data = chain.data ++ bytes ∧
      chain'.off = chain.off + bytes.length := by
  obtain ⟨chain₁, chain₂, copied, -, extended, data, off⟩ := fill_ok room
  refine ⟨chain₂, ?_, data, off⟩
  rw [append, copied]
  exact extended

theorem memcpy_nil (chain : EvbufferChain) :
    chain.memcpy (chain.misalign + chain.off) [] = .ok chain := by
  have inside : chain.misalign + chain.off + ([] : Bytes).length ≤ chain.buffer.length := chain.fits
  rw [memcpy, dif_pos inside]
  simp only [store_nil]
  rfl

theorem data_align (chain : EvbufferChain) : chain.align.data = chain.data := by
  have front := load_store_front chain.buffer chain.data
  rw [chain.length_data] at front
  exact front

theorem spaceLen_align (chain : EvbufferChain) :
    chain.align.spaceLen = chain.bufferLen - chain.off := by
  have inside : 0 + chain.data.length ≤ chain.buffer.length := by
    have := chain.fits
    rw [chain.length_data]
    omega
  change (store chain.buffer 0 chain.data).length - (0 + chain.off) = _
  rw [length_store inside, Nat.zero_add]
  rfl

theorem advance_ok (inside : n ≤ chain.off) :
    ∃ chain', chain.advance n = .ok chain' ∧ chain'.data = chain.data.drop n ∧
      chain'.off = chain.off - n :=
  have fits : chain.misalign + n + (chain.off - n) ≤ chain.buffer.length := by
    have := chain.fits
    omega
  ⟨⟨chain.buffer, chain.misalign + n, chain.off - n, fits, chain.small⟩, dif_pos inside,
    load_add _ _ _ _, rfl⟩

end EvbufferChain

/-! ## evbuffer_chain_new -/

/-- `while (to_alloc < size) to_alloc <<= 1`, for as many turns as a `size_t` has bits. -/
def enlarge (size : ℕ) : ℕ → ℕ → ℕ
  | 0, toAlloc => toAlloc
  | turns + 1, toAlloc => if toAlloc < size then enlarge size turns (toAlloc * 2) else toAlloc

theorem le_enlarge {size turns toAlloc : ℕ} (enough : size ≤ toAlloc * 2 ^ turns) :
    size ≤ enlarge size turns toAlloc := by
  induction turns generalizing toAlloc with
  | zero => simpa [enlarge] using enough
  | succ turns ih =>
    rw [enlarge]
    split
    · apply ih
      rw [Nat.pow_succ'] at enough
      rwa [Nat.mul_assoc]
    · omega

theorem enlarge_le {size turns toAlloc bound : ℕ} (le : toAlloc ≤ bound)
    (twice : 2 * size ≤ bound) : enlarge size turns toAlloc ≤ bound := by
  induction turns generalizing toAlloc with
  | zero => exact le
  | succ turns ih =>
    rw [enlarge]
    split
    · apply ih
      omega
    · exact le

/-- What is allocated for a chain, with its header. -/
def toAlloc (size : ℕ) : ℕ :=
  if size < evbufferChainMax / 2 then enlarge size 64 minBufferSize else size

theorem le_toAlloc (size : ℕ) : size ≤ toAlloc size := by
  rw [toAlloc]
  split
  · apply le_enlarge
    unfold evbufferChainMax at *
    unfold minBufferSize
    omega
  · exact le_rfl

theorem toAlloc_le {size : ℕ} (le : size ≤ evbufferChainMax) : toAlloc size ≤ evbufferChainMax := by
  rw [toAlloc]
  split
  · apply enlarge_le
    · decide
    · omega
  · exact le

/-- `evbuffer_chain_new` -/
def evbufferChainNew (malloc : Malloc) (size : ℕ) : Option EvbufferChain :=
  if large : size > evbufferChainMax - evbufferChainSize then none
  else
    match found : malloc.memory (toAlloc (size + evbufferChainSize)) with
    | none => none
    | some memory => some
      { buffer := memory.drop evbufferChainSize
        misalign := 0
        off := 0
        fits := Nat.zero_le _
        small := by
          have length := malloc.size _ _ found
          have le : toAlloc (size + evbufferChainSize) ≤ evbufferChainMax := by
            apply toAlloc_le
            unfold evbufferChainMax evbufferChainSize at *
            omega
          rw [List.length_drop]
          omega }

/-- A new chain has no data and the space asked for. -/
theorem evbufferChainNew_some {malloc : Malloc} {size : ℕ} {chain : EvbufferChain}
    (made : evbufferChainNew malloc size = some chain) :
    chain.off = 0 ∧ size ≤ chain.spaceLen := by
  unfold evbufferChainNew at made
  split at made
  · cases made
  · split at made
    · cases made
    · rename_i memory found
      cases made
      have length := malloc.size _ _ found
      have enough := le_toAlloc (size + evbufferChainSize)
      refine ⟨rfl, ?_⟩
      simp only [EvbufferChain.spaceLen, EvbufferChain.bufferLen, List.length_drop]
      omega

end JiaTuanServer.Libevent

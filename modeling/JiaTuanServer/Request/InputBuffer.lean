import Mathlib.Algebra.GroupWithZero.Nat
import JiaTuanServer.Library.Machine
import JiaTuanServer.Request.Segmentation

/-!
# The input buffer

libevent keeps what a socket delivered in a chain of memory blocks. `evbuffer_read` appends at most
`EVBUFFER_MAX_READ` bytes, and the callback empties the buffer into `data[BUF_MAX_SIZE]`
(`takeInput_eq`: what `receive` says of the bytes is what the blocks and the loops over them do).

Because every callback leaves the buffer empty, a callback never finds more than one read, and the
two limits being equal the copy stays inside `data`. But `data` is then read up to a zero byte: a
read of the full size leaves none behind the bytes, and a zero among the bytes ends the text early
(`requestText_iff`).

The chains of an input buffer are not pinned and its start is not frozen; both belong to other uses
of an evbuffer. `Libevent.Evbuffer` has all of an evbuffer's fields, and the input of a connection
built on it does what this one does (`Connection.reads_refine_receiving`).
-/

namespace JiaTuanServer.Request

open Transition

/-- The bytes of each chain at `buffer + misalign`, and `total_len`. -/
structure Evbuffer where
  chains : List Bytes
  totalLen : ℕ
  sound : totalLen = chains.flatten.length

namespace Evbuffer

/-- No chains, as after `ZERO_CHAIN`. -/
def empty : Evbuffer := ⟨[], 0, rfl⟩

/-- The bytes in the buffer. -/
def content (buf : Evbuffer) : Bytes := buf.chains.flatten

/-! ## evbuffer_read -/

/-- `EVBUFFER_MAX_READ` -/
def evbufferMaxRead : ℤ := 4096

/-- How many bytes are asked for: `n` is what the socket reports as readable. -/
def readSize (n howmuch : ℤ) : ℤ :=
  let n := if n ≤ 0 ∨ n > evbufferMaxRead then evbufferMaxRead else n
  if howmuch < 0 ∨ howmuch > n then n else howmuch

/-- Bytes into the free space of the last chain. -/
def fill : List Bytes → Bytes → List Bytes
  | [], bytes => [bytes]
  | [chain], bytes => [chain ++ bytes]
  | chain :: chains, bytes => chain :: fill chains bytes

theorem flatten_fill (chains : List Bytes) (bytes : Bytes) :
    (fill chains bytes).flatten = chains.flatten ++ bytes := by
  fun_induction fill chains bytes with
  | case1 => simp
  | case2 => simp
  | case3 chain chains bytes more ih => simp [ih]

/-- The first piece goes into the last chain, the others into the chains behind it. -/
def append (chains : List Bytes) : List Bytes → List Bytes
  | [] => chains
  | front :: behind => fill chains front ++ behind

theorem flatten_append (chains pieces : List Bytes) :
    (append chains pieces).flatten = chains.flatten ++ pieces.flatten := by
  cases pieces with
  | nil => simp [append]
  | cons front behind => simp [append, flatten_fill]

/-- What each chain gets of the bytes, by its free space: the loop at the end of `evbuffer_read`. -/
def spread : List ℕ → Bytes → List Bytes
  | [], _ => []
  | space :: spaces, bytes =>
    if space < bytes.length then bytes.take space :: spread spaces (bytes.drop space)
    else bytes :: spaces.map fun _ => []

theorem flatten_spread {spaces : List ℕ} {bytes : Bytes} (room : bytes.length ≤ spaces.sum) :
    (spread spaces bytes).flatten = bytes := by
  induction spaces generalizing bytes with
  | nil =>
    rw [List.sum_nil, Nat.le_zero, List.length_eq_zero_iff] at room
    exact room.symm
  | cons space spaces ih =>
    rw [List.sum_cons] at room
    rw [spread]
    split
    · have rest : (bytes.drop space).length ≤ spaces.sum := by
        rw [List.length_drop]
        omega
      rw [List.flatten_cons, ih rest, List.take_append_drop]
    · simp

end Evbuffer

/-- One read from the socket: what the socket reports as readable, how much the caller asks for,
the free space of the last chain with data and of the chains behind it, and the bytes. -/
structure SocketRead where
  readable : ℤ
  howmuch : ℤ
  spaces : List ℕ
  bytes : Bytes
  room : bytes.length ≤ spaces.sum

namespace Evbuffer

/-- `evbuffer_read` -/
def read (buf : Evbuffer) (r : SocketRead) : Evbuffer where
  chains := append buf.chains (spread r.spaces r.bytes)
  totalLen := buf.totalLen + r.bytes.length
  sound := by rw [flatten_append, flatten_spread r.room, List.length_append, buf.sound]

theorem content_read (buf : Evbuffer) (r : SocketRead) :
    (buf.read r).content = buf.content ++ r.bytes := by
  rw [content, read, flatten_append, flatten_spread r.room, content]

/-- No read takes more than `EVBUFFER_MAX_READ` bytes, and any number up to it can come. -/
theorem readSize_iff (length : ℕ) :
    (∃ n howmuch, (length : ℤ) ≤ readSize n howmuch) ↔ (length : ℤ) ≤ evbufferMaxRead := by
  constructor
  · rintro ⟨n, howmuch, le⟩
    unfold readSize at le
    grind
  · intro le
    exact ⟨0, -1, by simpa [readSize] using le⟩

/-! ## evbuffer_remove -/

/-- The array with `bytes` at `offset`. -/
def written (data : Bytes) (offset : ℕ) (bytes : Bytes) : Bytes :=
  data.take offset ++ bytes ++ data.drop (offset + bytes.length)

/-- `memcpy(data + offset, bytes, ...)` -/
def memcpy (data : Bytes) (offset : ℕ) (bytes : Bytes) : Except Fault Bytes :=
  if offset + bytes.length ≤ data.length then pure (written data offset bytes)
  else throw .overflow

/-- The loop of `evbuffer_copyout` and the rest of a chain after it. -/
def copyoutLoop : List Bytes → Bytes → ℕ → ℕ → Except Fault Bytes
  | _, data, _, 0 => pure data
  -- EVUTIL_ASSERT(chain || datlen == 0)
  | [], _, _, _ + 1 => throw .assertion
  | chain :: chains, data, offset, datlen + 1 =>
    if chain.length ≤ datlen + 1 then do
      let data ← memcpy data offset chain
      copyoutLoop chains data (offset + chain.length) (datlen + 1 - chain.length)
    else memcpy data offset (chain.take (datlen + 1))

/-- `evbuffer_copyout`: the number of bytes copied, and the array. -/
def copyout (buf : Evbuffer) (data : Bytes) (datlen : ℕ) : Except Fault (ℕ × Bytes) :=
  let datlen := if datlen ≥ buf.totalLen then buf.totalLen else datlen
  if datlen = 0 then pure (0, data)
  else do
    let data ← copyoutLoop buf.chains data 0 datlen
    pure (datlen, data)

/-- The loop of `evbuffer_drain` and the cut of the chain it stops at. -/
def drainLoop : List Bytes → ℕ → List Bytes
  | [], _ => []
  | chain :: chains, remaining =>
    if remaining ≥ chain.length then drainLoop chains (remaining - chain.length)
    else chain.drop remaining :: chains

theorem flatten_drainLoop (chains : List Bytes) (remaining : ℕ) :
    (drainLoop chains remaining).flatten = chains.flatten.drop remaining := by
  induction chains generalizing remaining with
  | nil => simp [drainLoop]
  | cons chain chains ih =>
    rw [drainLoop, List.flatten_cons, List.drop_append]
    split
    · rename_i all
      rw [ih, List.drop_eq_nil_of_le all, List.nil_append]
    · rename_i part
      rw [List.flatten_cons, Nat.sub_eq_zero_of_le (by omega), List.drop_zero]

/-- `evbuffer_drain` -/
def drain (buf : Evbuffer) (len : ℕ) : Evbuffer :=
  if buf.totalLen = 0 then buf
  else if len ≥ buf.totalLen then empty
  else
    { chains := drainLoop buf.chains len
      totalLen := buf.totalLen - len
      sound := by simp [flatten_drainLoop, buf.sound] }

/-- `evbuffer_remove`: the array and the buffer afterwards. -/
def remove (buf : Evbuffer) (data : Bytes) (datlen : ℕ) : Except Fault (Bytes × Evbuffer) := do
  let (n, data) ← buf.copyout data datlen
  pure (data, if n > 0 then buf.drain n else buf)

end Evbuffer

/-- `string sdata = data` -/
def stringOf (data : Bytes) : Except Fault Bytes :=
  if 0 ∈ data then pure (cString data) else throw .overread

/-- The start of the callback: the text, and the input buffer afterwards. -/
def takeInput (input : Evbuffer) : Except Fault (Bytes × Evbuffer) := do
  let nbytes : ℤ := (BitVec.ofNat 32 input.totalLen).toInt
  let (data, input) ← input.remove (List.replicate bufMaxSize 0) (BitVec.ofInt 64 nbytes).toNat
  let sdata ← stringOf data
  pure (sdata, input)

/-! ## Taking everything out -/

namespace Evbuffer

variable {data a b : Bytes} {offset : ℕ}

theorem length_written (fits : offset + a.length ≤ data.length) :
    (written data offset a).length = data.length := by
  simp [written]
  omega

theorem written_nil : written data offset [] = data := by simp [written]

theorem written_written (fits : offset + a.length ≤ data.length) :
    written (written data offset a) (offset + a.length) b = written data offset (a ++ b) := by
  have front : (data.take offset ++ a).length = offset + a.length := by
    simp
    omega
  simp only [written]
  rw [← front, List.take_left, List.drop_length_add_append, front, List.drop_drop,
    List.length_append, Nat.add_assoc]
  simp only [List.append_assoc]

/-- Copying all of the chains: either they fit behind the offset, or the copy leaves the array. -/
theorem copyoutLoop_all {chains : List Bytes} {data : Bytes} {offset datlen : ℕ}
    (inside : offset ≤ data.length) (all : datlen = chains.flatten.length) :
    copyoutLoop chains data offset datlen =
      if offset + datlen ≤ data.length then .ok (written data offset chains.flatten)
      else .error .overflow := by
  induction chains generalizing data offset datlen with
  | nil =>
    subst all
    simp [copyoutLoop, inside, written_nil]
    rfl
  | cons chain chains ih =>
    rw [List.flatten_cons, List.length_append] at all
    cases datlen with
    | zero =>
      have nothing : (chain :: chains).flatten = [] := by
        rw [List.flatten_cons, ← List.length_eq_zero_iff, List.length_append]
        omega
      rw [nothing, written_nil, copyoutLoop, if_pos (by omega)]
      rfl
    | succ datlen =>
      rw [copyoutLoop, if_pos (by omega), memcpy, List.flatten_cons]
      by_cases fits : offset + chain.length ≤ data.length
      · have kept := length_written fits
        have inside' : offset + chain.length ≤ (written data offset chain).length := by omega
        have rest := ih inside' (show datlen + 1 - chain.length = chains.flatten.length by omega)
        have ends :
            offset + chain.length + (datlen + 1 - chain.length) = offset + (datlen + 1) := by
          omega
        rw [if_pos fits, ← written_written fits, pure_bind, rest, kept, ends]
      · rw [if_neg fits, if_neg (by omega)]
        rfl

/-- Everything is copied and the buffer is empty, or the copy leaves the array. -/
theorem remove_all {buf : Evbuffer} {data : Bytes} (pos : buf.totalLen ≠ 0) :
    buf.remove data buf.totalLen =
      if buf.totalLen ≤ data.length then .ok (buf.content ++ data.drop buf.totalLen, empty)
      else .error .overflow := by
  have copied : buf.copyout data buf.totalLen =
      if buf.totalLen ≤ data.length then .ok (buf.totalLen, written data 0 buf.content)
      else .error .overflow := by
    rw [copyout, if_pos le_rfl, if_neg pos, copyoutLoop_all (Nat.zero_le _) buf.sound, Nat.zero_add]
    split <;> rfl
  have emptied : buf.drain buf.totalLen = empty := by
    rw [drain, if_neg pos, if_pos le_rfl]
  rw [remove, copied]
  split
  · have front : written data 0 buf.content = buf.content ++ data.drop buf.totalLen := by
      rw [written, List.take_zero, List.nil_append, Nat.zero_add, buf.sound, content]
    change Except.ok (written data 0 buf.content, if buf.totalLen > 0 then _ else buf) = _
    rw [if_pos (Nat.pos_of_ne_zero pos), emptied, front]
  · rfl

end Evbuffer

/-- What `receive` says of the bytes is what the callback does with the buffer, as long as their
number is an `int`. -/
theorem takeInput_eq {input : Evbuffer} (pos : input.totalLen ≠ 0)
    (small : input.totalLen < 2147483648) :
    takeInput input = (receive input.content).map fun sdata => (sdata, .empty) := by
  have length : input.totalLen = input.content.length := input.sound
  have nbytes :
      (BitVec.ofInt 64 (BitVec.ofNat 32 input.totalLen).toInt).toNat = input.totalLen := by
    have int : (BitVec.ofNat 32 input.totalLen).toInt = input.totalLen := by
      rw [BitVec.toInt_ofNat', Int.bmod_eq_of_le (by omega) (by omega)]
    rw [int, BitVec.toNat_ofInt]
    omega
  simp only [takeInput, nbytes, Evbuffer.remove_all pos, List.length_replicate, List.drop_replicate]
  by_cases fits : input.totalLen ≤ bufMaxSize
  · have text : receive input.content =
        stringOf (input.content ++ List.replicate (bufMaxSize - input.totalLen) 0) := by
      rw [receive, if_neg (by omega), length]
      rfl
    rw [if_pos fits, text]
    change (stringOf _ >>= fun sdata => pure (sdata, Evbuffer.empty)) = _
    cases stringOf (input.content ++ List.replicate (bufMaxSize - input.totalLen) 0) <;> rfl
  · have text : receive input.content = .error .overflow := by
      rw [receive, if_pos (by omega)]
      rfl
    rw [if_neg fits, text]
    rfl

/-- The text is the bytes received, exactly when they leave room for a zero and contain none. -/
theorem receive_eq_self_iff {input : Bytes} :
    receive input = .ok input ↔ input.length ≤ 4095 ∧ 0 ∉ input := by
  constructor
  · intro received
    unfold receive at received
    split at received
    · cases received
    · rename_i fits
      simp only at received
      split at received
      · rename_i zero
        have whole : cString (input ++ List.replicate (bufMaxSize - input.length) 0) = input :=
          Except.ok.inj received
        rw [cString_zeros] at whole
        have nonzero : 0 ∉ input := cString_eq_self_iff.mp whole
        rw [List.mem_append, List.mem_replicate] at zero
        have room := (zero.resolve_left nonzero).1
        unfold bufMaxSize at fits room
        exact ⟨by omega, nonzero⟩
      · cases received
  · rintro ⟨short, nonzero⟩
    rw [receive_short short, cString_eq_self nonzero]

/-- Bytes that fill `data` and contain no zero are read past its end. -/
theorem receive_full {input : Bytes} (full : input.length = bufMaxSize) (nonzero : 0 ∉ input) :
    receive input = .error .overread := by
  rw [receive, if_neg (by omega), full, Nat.sub_self, List.replicate_zero, List.append_nil]
  exact if_neg nonzero

/-! ## A connection receiving -/

/-- The input buffer of a connection, and what a callback failed with. -/
structure Receiving where
  input : Evbuffer
  fault : Option Fault

/-- What a callback leaves, from how it ends and the buffer it found. -/
def Receiving.afterCallback (input : Evbuffer) : Except Fault (Bytes × Evbuffer) → Receiving
  | .ok (_, rest) => ⟨rest, none⟩
  | .error fault => ⟨input, some fault⟩

/-- A read of at least one byte, and the callback for it. -/
def receivingMachine : Machine Receiving SocketRead where
  initial s := s = ⟨.empty, none⟩
  step s r :=
    if s.fault = none ∧ 1 ≤ r.bytes.length ∧ r.bytes.length ≤ Evbuffer.readSize r.readable r.howmuch
    then some (.afterCallback (s.input.read r) (takeInput (s.input.read r)))
    else none

/-- The callback ends inside `data` with the bytes of the read as its text, and the buffer is
empty. -/
def Exact (s : Receiving) (r : SocketRead) : Prop :=
  takeInput (s.input.read r) = .ok (r.bytes, .empty)

/-- The read leaves room for a zero byte and contains none. -/
def Fits (_ : Receiving) (r : SocketRead) : Prop := r.bytes.length ≤ 4095 ∧ 0 ∉ r.bytes

section Run

variable {s t : Receiving} {r : SocketRead} {tr : List (Receiving × SocketRead)}

theorem receiving_step (taken : receivingMachine.step s r = some t) :
    s.fault = none ∧ 1 ≤ r.bytes.length ∧ r.bytes.length ≤ 4096 ∧
      t = .afterCallback (s.input.read r) (takeInput (s.input.read r)) := by
  simp only [receivingMachine] at taken
  split at taken
  · rename_i guard
    obtain ⟨fault, pos, limit⟩ := guard
    have atMost := (Evbuffer.readSize_iff r.bytes.length).mp ⟨_, _, limit⟩
    unfold Evbuffer.evbufferMaxRead at atMost
    exact ⟨fault, pos, by omega, (Option.some.inj taken).symm⟩
  · cases taken

theorem receiving_taken (fault : s.fault = none) (pos : 1 ≤ r.bytes.length)
    (limit : r.bytes.length ≤ Evbuffer.readSize r.readable r.howmuch) :
    receivingMachine.step s r =
      some (.afterCallback (s.input.read r) (takeInput (s.input.read r))) :=
  if_pos ⟨fault, pos, limit⟩

/-- The callback for a read into the empty buffer. -/
theorem takeInput_read (pos : 1 ≤ r.bytes.length) (limit : r.bytes.length ≤ 4096) :
    takeInput (Evbuffer.empty.read r) = (receive r.bytes).map fun sdata => (sdata, .empty) := by
  have length : (Evbuffer.empty.read r).totalLen = r.bytes.length := Nat.zero_add _
  have content : (Evbuffer.empty.read r).content = r.bytes := by
    rw [Evbuffer.content_read]
    rfl
  rw [takeInput_eq (by omega) (by omega), content]

/-- The buffer of a connection is empty whenever the server waits for the next read. -/
def Drained (s : Receiving) : Prop := s.fault = none → s.input = .empty

theorem drained_step (drained : Drained s) (taken : receivingMachine.step s r = some t) :
    Drained t := by
  obtain ⟨fault, pos, limit, rfl⟩ := receiving_step taken
  rw [drained fault, takeInput_read pos limit]
  intro clean
  cases text : receive r.bytes with
  | ok sdata => rfl
  | error fault => simp [text, Receiving.afterCallback, Except.map] at clean

/-- The copy never leaves `data`. -/
theorem takeInput_inside (drained : Drained s) (taken : receivingMachine.step s r = some t) :
    takeInput (s.input.read r) ≠ .error .overflow := by
  obtain ⟨fault, pos, limit, rfl⟩ := receiving_step taken
  rw [drained fault, takeInput_read pos limit, receive, if_neg (by unfold bufMaxSize; omega)]
  simp only
  split <;> simp [Except.map, pure, Except.pure, throw, throwThe, MonadExceptOf.throw]

/-- One callback takes exactly its read when that fits. -/
theorem exact_iff (drained : Drained s) (taken : receivingMachine.step s r = some t) :
    Exact s r ↔ Fits s r := by
  obtain ⟨fault, pos, limit, -⟩ := receiving_step taken
  rw [Exact, drained fault, takeInput_read pos limit, Fits, ← receive_eq_self_iff]
  cases receive r.bytes <;> simp [Except.map]

/-- On every connection the texts are exactly the bytes received as long as every read leaves room
for a zero byte and contains none. -/
theorem requestText_iff (run : receivingMachine.Run s tr t) (start : receivingMachine.initial s) :
    Machine.Along Exact tr ↔ Machine.Along Fits tr := by
  have empty : Drained s := by
    rw [show s = _ from start]
    exact fun _ => rfl
  exact run.along_iff empty (fun _ _ _ => drained_step) fun _ _ _ => exact_iff

end Run

/-- A callback for a read that fits leaves the buffer as it was before the read. -/
theorem receiving_fits {r : SocketRead} (pos : 1 ≤ r.bytes.length)
    (limit : r.bytes.length ≤ Evbuffer.readSize r.readable r.howmuch)
    (fits : Fits ⟨.empty, none⟩ r) :
    receivingMachine.step ⟨.empty, none⟩ r = some ⟨.empty, none⟩ := by
  have short : r.bytes.length ≤ 4095 := fits.1
  rw [receiving_taken rfl pos limit, takeInput_read pos (by omega), receive_eq_self_iff.mpr fits]
  rfl

/-- Two reads: `[1]` in two pieces, and one byte into the emptied buffer. -/
theorem requestText_iff_twoReads :
    ∃ tr t, receivingMachine.Run ⟨.empty, none⟩ tr t ∧ tr.length = 2 ∧
      Machine.Along Exact tr := by
  let r : SocketRead := ⟨3, -1, [2, 4094], text "[1]", by decide⟩
  let r' : SocketRead := ⟨0, 1, [4096], text "x", by decide⟩
  have fits : Fits ⟨.empty, none⟩ r := ⟨by decide, by decide⟩
  have fits' : Fits ⟨.empty, none⟩ r' := ⟨by decide, by decide⟩
  have run := (Machine.Run.single (receiving_fits (r := r) (by decide) (by decide) fits)).append
    (.single (receiving_fits (r := r') (by decide) (by decide) fits'))
  refine ⟨_, _, run, rfl, (requestText_iff run rfl).mpr ?_⟩
  rw [Machine.along_append, Machine.along_singleton, Machine.along_singleton]
  exact ⟨fits, fits'⟩

/-- A read of 4096 bytes, none of them zero. -/
def fullRead : SocketRead where
  readable := 4096
  howmuch := -1
  spaces := [4096]
  bytes := List.replicate 4096 0x78
  room := by rw [List.length_replicate, List.sum_singleton]

/-- The scan for the end of the text leaves `data`. -/
theorem requestText_fullRead :
    ∃ t, receivingMachine.Run ⟨.empty, none⟩ [(⟨.empty, none⟩, fullRead)] t ∧
      takeInput (Evbuffer.empty.read fullRead) = .error .overread ∧
      ¬ Machine.Along Exact [(⟨.empty, none⟩, fullRead)] := by
  have bytes : fullRead.bytes = List.replicate 4096 0x78 := rfl
  have length : fullRead.bytes.length = 4096 := by rw [bytes, List.length_replicate]
  have taken := receiving_taken (s := ⟨.empty, none⟩) (r := fullRead) rfl (by omega)
    (by rw [length]; decide)
  have nonzero : 0 ∉ fullRead.bytes := by
    rw [bytes, List.mem_replicate]
    exact fun zero => absurd zero.2 (by decide)
  have overread : takeInput (Evbuffer.empty.read fullRead) = .error .overread := by
    rw [takeInput_read (by omega) (by omega), receive_full length nonzero]
    rfl
  refine ⟨_, .single taken, overread, ?_⟩
  intro exact
  rw [Machine.along_singleton, Exact, overread] at exact
  cases exact

end JiaTuanServer.Request

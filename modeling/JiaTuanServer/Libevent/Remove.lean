import JiaTuanServer.Libevent.Evbuffer

/-!
# Taking bytes out of an evbuffer

`evbuffer_drain` frees the chains it empties and moves on in the chain it stops at,
`evbuffer_copyout` and `evbuffer_remove` copy to an array of the caller, and `evbuffer_write_atmost`
offers the first chains to `writev` and drains what that took. On a valid buffer none of them fails,
and each takes a prefix of the bytes and leaves the rest.
-/

namespace JiaTuanServer.Libevent

open Memory
open Request (Bytes)

/-- `writev`: the number of bytes taken of pieces of these lengths, or `-1`. -/
structure Writev where
  taken : List ℕ → Option ℕ
  bounded : ∀ lengths n, taken lengths = some n → n ≤ lengths.sum

namespace Evbuffer

/-- `ZERO_CHAIN` -/
def zeroChain (buf : Evbuffer) : Evbuffer :=
  { buf with chains := [], lastWithDatap := 0, totalLen := 0 }

/-- The loop of `evbuffer_drain` and the cut of the chain it stops at: the chains from there on, and
`last_with_datap`. -/
def drainLoop : ℕ → List EvbufferChain → ℕ → Except Fault (List EvbufferChain × ℕ)
  | _, [], _ => throw .null
  | remaining, chain :: next, lwd =>
    if remaining ≥ chain.off then
      -- a pointer into the chain that is freed becomes `&buf->first`
      drainLoop (remaining - chain.off) next (lwd - 1)
    else do
      let chain ← chain.advance remaining
      pure (chain :: next, lwd)

/-- `evbuffer_drain` -/
def drain (buf : Evbuffer) (len : ℕ) : Except Fault (ℤ × Evbuffer) :=
  if buf.totalLen = 0 then pure (0, buf)
  else if buf.freezeStart then pure (-1, buf)
  else if len ≥ buf.totalLen then pure (0, buf.zeroChain)
  else do
    let (chains, lwd) ← drainLoop len buf.chains buf.lastWithDatap
    pure (0, { buf with chains := chains, lastWithDatap := lwd, totalLen := buf.totalLen - len })

/-- `memcpy(data_out + offset, bytes, ...)` -/
def memcpyOut (dataOut : Bytes) (offset : ℕ) (bytes : Bytes) : Except Fault Bytes :=
  if offset + bytes.length ≤ dataOut.length then pure (store dataOut offset bytes)
  else throw .overrun

/-- The loop of `evbuffer_copyout` and the copy from the last chain. -/
def copyoutLoop : List EvbufferChain → Bytes → ℕ → ℕ → Except Fault Bytes
  | _, dataOut, _, 0 => pure dataOut
  -- EVUTIL_ASSERT(chain || datlen == 0)
  | [], _, _, _ + 1 => throw .assertion
  | chain :: chains, dataOut, offset, datlen + 1 =>
    if datlen + 1 ≥ chain.off then do
      let dataOut ← memcpyOut dataOut offset chain.data
      copyoutLoop chains dataOut (offset + chain.off) (datlen + 1 - chain.off)
    else memcpyOut dataOut offset (chain.data.take (datlen + 1))

/-- `evbuffer_copyout`: the result and the caller's array. -/
def copyout (buf : Evbuffer) (dataOut : Bytes) (datlen : ℕ) : Except Fault (ℤ × Bytes) :=
  let datlen := if datlen ≥ buf.totalLen then buf.totalLen else datlen
  if datlen = 0 then pure (0, dataOut)
  else if buf.freezeStart then pure (-1, dataOut)
  else do
    let dataOut ← copyoutLoop buf.chains dataOut 0 datlen
    pure (datlen, dataOut)

/-- `evbuffer_remove` -/
def remove (buf : Evbuffer) (dataOut : Bytes) (datlen : ℕ) :
    Except Fault (ℤ × Bytes × Evbuffer) := do
  let (n, dataOut) ← buf.copyout dataOut datlen
  if n > 0 then
    let (drained, buf) ← buf.drain n.toNat
    pure (if drained < 0 then -1 else n, dataOut, buf)
  else pure (n, dataOut, buf)

/-- `NUM_WRITE_IOVEC` -/
def numWriteIovec : ℕ := 128

/-- The loop of `evbuffer_write_iovec`. -/
def iovecs : ℕ → ℕ → List EvbufferChain → List Bytes
  | 0, _, _ => []
  | _ + 1, _, [] => []
  | i + 1, howmuch, chain :: chains =>
    if howmuch = 0 then []
    else if howmuch ≥ chain.off then chain.data :: iovecs i (howmuch - chain.off) chains
    else [chain.data.take howmuch]

/-- `evbuffer_write_iovec`: the result, and the bytes that went out. -/
def writeIovec (buf : Evbuffer) (writev : Writev) (howmuch : ℤ) : ℤ × Bytes :=
  if howmuch < 0 then (-1, [])
  else
    let iov := iovecs numWriteIovec howmuch.toNat buf.chains
    if iov = [] then (0, [])
    else match writev.taken (iov.map List.length) with
      | none => (-1, [])
      | some n => (n, iov.flatten.take n)

/-- `evbuffer_write_atmost` -/
def writeAtmost (buf : Evbuffer) (writev : Writev) (howmuch : ℤ) :
    Except Fault (ℤ × Bytes × Evbuffer) :=
  if buf.freezeStart then pure (-1, [], buf)
  else
    let howmuch : ℤ := if howmuch < 0 ∨ howmuch > buf.totalLen then buf.totalLen else howmuch
    let (n, sent) := if howmuch > 0 then buf.writeIovec writev howmuch else (-1, [])
    if n > 0 then do
      let (_, buf) ← buf.drain n.toNat
      pure (n, sent, buf)
    else pure (n, sent, buf)

/-! ## What they leave -/

/-- After an operation: a valid buffer with these bytes, frozen where it was. -/
structure Holds (buf buf' : Evbuffer) (bytes : Bytes) : Prop where
  valid : buf'.Valid
  content : buf'.content = bytes
  freezeStart : buf'.freezeStart = buf.freezeStart
  freezeEnd : buf'.freezeEnd = buf.freezeEnd

variable {buf : Evbuffer} {chains front behind : List EvbufferChain} {chain : EvbufferChain}
  {dataOut : Bytes} {len datlen : ℕ}

theorem Valid.holds (valid : buf.Valid) : Holds buf buf buf.content := ⟨valid, rfl, rfl, rfl⟩

theorem Holds.trans {buf' buf'' : Evbuffer} {bytes bytes' : Bytes} (first : Holds buf buf' bytes)
    (second : Holds buf' buf'' bytes') : Holds buf buf'' bytes' :=
  ⟨second.valid, second.content, second.freezeStart.trans first.freezeStart,
    second.freezeEnd.trans first.freezeEnd⟩

theorem Valid.totalLen_eq_zero_iff (valid : buf.Valid) : buf.totalLen = 0 ↔ buf.content = [] := by
  rw [valid.total, List.length_eq_zero_iff]

/-- A buffer holds what its chains do. -/
theorem Valid.holds_linked {buf' : Evbuffer} {data : Bytes} (valid : buf.Valid)
    (front : List EvbufferChain)
    (chains : buf'.chains = front ++ chain :: behind) (pointer : buf'.lastWithDatap = front.length)
    (first : chain.off = 0 → front = []) (rest : AllEmpty behind)
    (content : bytesOf (front ++ chain :: behind) = buf.content ++ data)
    (total : buf'.totalLen = buf.totalLen + data.length)
    (freezeStart : buf'.freezeStart = buf.freezeStart)
    (freezeEnd : buf'.freezeEnd = buf.freezeEnd) :
    Holds buf buf' (buf.content ++ data) := by
  have bytes : buf'.content = buf.content ++ data := by
    rw [Evbuffer.content, chains, content]
  refine ⟨⟨?_, ?_⟩, bytes, freezeStart, freezeEnd⟩
  · rw [bytes, List.length_append, ← valid.total, total]
  · rw [chains, pointer]
    exact .linked front first rest

theorem holds_zeroChain (buf : Evbuffer) : Holds buf buf.zeroChain [] :=
  ⟨⟨rfl, .none⟩, rfl, rfl, rfl⟩

/-- The loop stops at or in front of the last chain with data. -/
theorem drainLoop_ok {remaining : ℕ} (some : chain.off ≠ 0) (rest : AllEmpty behind)
    (lt : remaining < (bytesOf (front ++ chain :: behind)).length) :
    ∃ chains lwd, drainLoop remaining (front ++ chain :: behind) front.length = .ok (chains, lwd) ∧
      Shape chains lwd ∧ bytesOf chains = (bytesOf (front ++ chain :: behind)).drop remaining ∧
      chains.length = lwd + 1 + behind.length := by
  have nothing : bytesOf behind = [] := bytesOf_eq_nil_iff.mpr rest
  induction front generalizing remaining with
  | nil =>
    have inside : remaining < chain.off := by
      simpa [nothing, chain.length_data] using lt
    obtain ⟨chain', moved, data, off⟩ := chain.advance_ok inside.le
    refine ⟨chain' :: behind, 0, ?_, .linked [] (fun _ => rfl) rest, ?_, by simp; omega⟩
    · rw [List.nil_append, drainLoop, if_neg (by omega), moved]
      rfl
    · simp [nothing, data]
  | cons first front ih =>
    rw [List.cons_append, drainLoop]
    split
    · rename_i whole
      have lt' : remaining - first.off < (bytesOf (front ++ chain :: behind)).length := by
        rw [List.cons_append, bytesOf_cons, List.length_append, first.length_data] at lt
        omega
      obtain ⟨chains, lwd, run, shape, data, count⟩ := ih lt'
      have gone : first.data.drop remaining = [] := by
        apply List.drop_eq_nil_of_le
        rwa [first.length_data]
      refine ⟨chains, lwd, run, shape, ?_, count⟩
      rw [data, bytesOf_cons, List.drop_append, first.length_data, gone,
        List.nil_append]
    · rename_i part
      obtain ⟨first', moved, data, off⟩ := first.advance_ok (show remaining ≤ first.off by omega)
      refine ⟨first' :: (front ++ chain :: behind), front.length + 1, ?_,
        .linked (first' :: front) (fun empty => (some empty).elim) rest, ?_, by simp; omega⟩
      · rw [moved]
        rfl
      · have within : remaining ≤ first.data.length := by
          rw [first.length_data]
          omega
        rw [bytesOf_cons, bytesOf_cons, data, List.drop_append_of_le_length within]

theorem drain_ok (valid : buf.Valid) (thawed : buf.freezeStart = false) (len : ℕ) :
    ∃ buf', buf.drain len = .ok (0, buf') ∧ Holds buf buf' (buf.content.drop len) ∧
      (buf.Settled → buf'.Settled) := by
  unfold drain
  simp only [thawed]
  split
  · rename_i zero
    rw [valid.totalLen_eq_zero_iff] at zero
    refine ⟨buf, rfl, ?_, id⟩
    rw [zero, List.drop_nil, ← zero]
    exact valid.holds
  rename_i pos
  rw [if_neg Bool.false_ne_true]
  split
  · rename_i all
    refine ⟨_, rfl, ?_, fun _ => Nat.zero_le _⟩
    rw [List.drop_eq_nil_of_le (by rw [← valid.total]; exact all)]
    exact holds_zeroChain buf
  · rename_i part
    have some : bytesOf buf.chains ≠ [] := fun none => pos (valid.totalLen_eq_zero_iff.mpr none)
    obtain ⟨front, chain, behind, split, pointer, nonzero, rest⟩ := valid.shape.split some
    have lt : len < (bytesOf (front ++ chain :: behind)).length := by
      rw [← split, ← content, ← valid.total]
      omega
    obtain ⟨chains, lwd, run, shape, data, count⟩ := drainLoop_ok nonzero rest lt
    rw [split, pointer, run]
    refine ⟨_, rfl, ⟨⟨?_, shape⟩, ?_, thawed.symm, rfl⟩, ?_⟩
    · change buf.totalLen - len = (bytesOf chains).length
      rw [data, List.length_drop, ← split, ← content, ← valid.total]
    · rw [content, data, content, split]
    · intro settled
      rw [Settled, split, pointer] at settled
      change chains.length ≤ lwd + 1
      simp only [List.length_append, List.length_cons] at settled
      omega

/-- The copy is a prefix of the bytes, or it would leave the array. -/
theorem copyoutLoop_eq {offset : ℕ} (inside : offset ≤ dataOut.length)
    (le : datlen ≤ (bytesOf chains).length) :
    copyoutLoop chains dataOut offset datlen =
      if offset + datlen ≤ dataOut.length then
        .ok (store dataOut offset ((bytesOf chains).take datlen))
      else .error .overrun := by
  induction chains generalizing dataOut offset datlen with
  | nil =>
    rw [bytesOf_nil, List.length_nil, Nat.le_zero] at le
    subst le
    simp [copyoutLoop, inside]
    rfl
  | cons chain chains ih =>
    cases datlen with
    | zero =>
      simp [copyoutLoop, inside]
      rfl
    | succ datlen =>
      rw [bytesOf_cons, List.length_append, chain.length_data] at le
      rw [copyoutLoop, bytesOf_cons]
      split
      · rename_i whole
        rw [memcpyOut, chain.length_data]
        by_cases fits : offset + chain.off ≤ dataOut.length
        · have length := chain.length_data
          have kept : (store dataOut offset chain.data).length = dataOut.length := by
            apply length_store
            omega
          have pieces : (chain.data ++ bytesOf chains).take (datlen + 1) =
              chain.data ++ (bytesOf chains).take (datlen + 1 - chain.off) := by
            rw [List.take_append, length, List.take_of_length_le (by omega)]
          have joined : store (store dataOut offset chain.data) (offset + chain.off)
              ((bytesOf chains).take (datlen + 1 - chain.off)) =
                store dataOut offset ((chain.data ++ bytesOf chains).take (datlen + 1)) := by
            rw [pieces, ← store_store (by omega), length]
          have rest : copyoutLoop chains (store dataOut offset chain.data) (offset + chain.off)
              (datlen + 1 - chain.off) = _ := ih (by omega) (by omega)
          have ends : offset + chain.off + (datlen + 1 - chain.off) = offset + (datlen + 1) := by
            omega
          rw [if_pos fits, pure_bind, rest, joined, kept, ends]
        · rw [if_neg fits, if_neg (by omega)]
          rfl
      · rename_i part
        have within : datlen + 1 ≤ chain.data.length := by
          rw [chain.length_data]
          omega
        rw [memcpyOut, List.take_append_of_le_length within, List.length_take,
          Nat.min_eq_left within]
        rfl

theorem copyout_eq (valid : buf.Valid) (thawed : buf.freezeStart = false) :
    buf.copyout dataOut datlen =
      if min datlen buf.totalLen ≤ dataOut.length then
        .ok ((min datlen buf.totalLen : ℕ), store dataOut 0 (buf.content.take datlen))
      else .error .overrun := by
  have length : (if datlen ≥ buf.totalLen then buf.totalLen else datlen) =
      min datlen buf.totalLen := by
    split <;> omega
  have bytes : buf.content.take datlen = buf.content.take (min datlen buf.totalLen) := by
    rw [valid.total, List.take_eq_take_min]
  rw [bytes]
  unfold copyout
  simp only [length]
  generalize least : min datlen buf.totalLen = n
  split
  · rename_i zero
    subst zero
    simp
    rfl
  · have le : n ≤ (bytesOf buf.chains).length := by
      rw [← content, ← valid.total]
      omega
    rw [thawed, if_neg Bool.false_ne_true, copyoutLoop_eq (Nat.zero_le _) le, Nat.zero_add]
    split <;> rfl

theorem remove_ok (valid : buf.Valid) (thawed : buf.freezeStart = false)
    (room : min datlen buf.totalLen ≤ dataOut.length) :
    ∃ buf', buf.remove dataOut datlen =
        .ok ((min datlen buf.totalLen : ℕ), store dataOut 0 (buf.content.take datlen), buf') ∧
      Holds buf buf' (buf.content.drop datlen) ∧ (buf.Settled → buf'.Settled) := by
  rw [remove, copyout_eq valid thawed, if_pos room]
  have rest : buf.content.drop datlen = buf.content.drop (min datlen buf.totalLen) := by
    rcases Nat.le_total datlen buf.totalLen with le | ge
    · rw [Nat.min_eq_left le]
    · rw [Nat.min_eq_right ge, valid.total, List.drop_length, List.drop_eq_nil_of_le]
      rw [← valid.total]
      exact ge
  rw [rest]
  generalize min datlen buf.totalLen = n
  by_cases pos : n = 0
  · subst pos
    exact ⟨buf, rfl, by simpa using valid.holds, id⟩
  · obtain ⟨buf', drained, holds, settled⟩ := drain_ok valid thawed n
    refine ⟨buf', ?_, holds, settled⟩
    change (if (n : ℤ) > 0 then _ else _) = _
    rw [if_pos (by omega), Int.toNat_natCast, drained]
    rfl

/-! ## Writing to a socket -/

theorem iovecs_prefix (i howmuch : ℕ) (chains : List EvbufferChain) :
    (iovecs i howmuch chains).flatten <+: bytesOf chains ∧
      (iovecs i howmuch chains).flatten.length ≤ howmuch := by
  fun_induction iovecs i howmuch chains with
  | case1 => simp
  | case2 => simp
  | case3 => simp
  | case4 i howmuch chain chains pos whole ih =>
    rw [List.flatten_cons, bytesOf_cons, List.prefix_append_right_inj, List.length_append,
      chain.length_data]
    exact ⟨ih.1, by omega⟩
  | case5 i howmuch chain chains pos part =>
    rw [List.flatten_singleton, bytesOf_cons]
    refine ⟨(List.take_prefix _ _).trans (List.prefix_append _ _), ?_⟩
    rw [List.length_take]
    omega

/-- What goes out is a prefix of the bytes, no longer than what is asked for. -/
theorem writeIovec_spec (writev : Writev) {howmuch : ℤ} (pos : howmuch > 0) {n : ℤ} {sent : Bytes}
    (run : buf.writeIovec writev howmuch = (n, sent)) :
    n ≤ howmuch ∧ n.toNat ≤ buf.content.length ∧ sent = buf.content.take n.toNat := by
  obtain ⟨start, bound⟩ := iovecs_prefix numWriteIovec howmuch.toNat buf.chains
  rw [writeIovec, if_neg (by omega)] at run
  simp only at run
  split at run
  · cases run
    exact ⟨by omega, Nat.zero_le _, rfl⟩
  split at run
  · cases run
    exact ⟨by omega, Nat.zero_le _, rfl⟩
  · rename_i n' taken
    cases run
    have le := writev.bounded _ _ taken
    rw [← List.length_flatten] at le
    have within := start.length_le
    obtain ⟨behind, whole⟩ := start
    refine ⟨by omega, by rw [content]; omega, ?_⟩
    rw [Int.toNat_natCast, content, ← whole, List.take_append_of_le_length le]

theorem writeAtmost_ok (valid : buf.Valid) (thawed : buf.freezeStart = false) (writev : Writev)
    (howmuch : ℤ) :
    ∃ n sent buf', buf.writeAtmost writev howmuch = .ok (n, sent, buf') ∧
      n.toNat ≤ buf.content.length ∧ (0 ≤ howmuch → n ≤ howmuch) ∧
      sent = buf.content.take n.toNat ∧ Holds buf buf' (buf.content.drop n.toNat) ∧
      (buf.Settled → buf'.Settled) := by
  unfold writeAtmost
  rw [thawed, if_neg Bool.false_ne_true]
  simp only
  generalize asked : (if howmuch < 0 ∨ howmuch > buf.totalLen then (buf.totalLen : ℤ)
    else howmuch) = atmost
  generalize wrote : (if atmost > 0 then buf.writeIovec writev atmost else (-1, [])) = result
  obtain ⟨n, sent⟩ := result
  have spec : (n ≤ atmost ∨ n = -1) ∧ n.toNat ≤ buf.content.length ∧
      sent = buf.content.take n.toNat := by
    split at wrote
    · rename_i pos
      obtain ⟨le, within, eq⟩ := writeIovec_spec writev pos wrote
      exact ⟨.inl le, within, eq⟩
    · cases wrote
      exact ⟨.inr rfl, Nat.zero_le _, rfl⟩
  obtain ⟨le, within, eq⟩ := spec
  have most : 0 ≤ howmuch → n ≤ howmuch := by
    intro nonneg
    split at asked <;> omega
  simp only
  split
  · obtain ⟨buf', drained, holds, settled⟩ := drain_ok valid thawed n.toNat
    refine ⟨n, sent, buf', ?_, within, most, eq, holds, settled⟩
    rw [drained]
    rfl
  · refine ⟨n, sent, buf, rfl, within, most, eq, ?_, id⟩
    rw [Int.toNat_of_nonpos (by omega), List.drop_zero]
    exact valid.holds

end Evbuffer

end JiaTuanServer.Libevent

import JiaTuanServer.Libevent.Remove

/-!
# Adding bytes to an evbuffer

`evbuffer_add` fills the last chain, moves its data to the front if that makes room, or puts the
rest into a new chain. It goes by `buf->last` and leaves `last_with_datap` to
`evbuffer_chain_insert`, so it needs a buffer without empty chains behind `*last_with_datap`
(`add_ok`). `evbuffer_add_buffer` hands over the chains of another buffer as they are.
-/

namespace JiaTuanServer.Libevent

open Request (Bytes)

/-- `EV_SIZE_MAX` -/
def evSizeMax : ℕ := 18446744073709551615

/-- `EVBUFFER_CHAIN_MAX_AUTO_SIZE` -/
def evbufferChainMaxAutoSize : ℕ := 4096

namespace Evbuffer

/-- `evbuffer_chain_insert` -/
def chainInsert (buf : Evbuffer) (chain : EvbufferChain) : Except Fault Evbuffer :=
  let buf := { buf with totalLen := buf.totalLen + chain.off }
  match buf.chains[buf.lastWithDatap]? with
  | none =>
    if buf.lastWithDatap = 0 ∧ buf.chains = [] then pure { buf with chains := [chain] }
    else throw .assertion
  | some _ =>
    let tail := buf.chains.drop buf.lastWithDatap
    match tail.dropWhile fun ch => ch.off != 0 with
    | [] =>
      pure
        { buf with
          chains := buf.chains ++ [chain]
          lastWithDatap := if chain.off ≠ 0 then buf.chains.length else buf.lastWithDatap }
    | victim :: victims =>
      if AllEmpty (victim :: victims) then
        let front := buf.chains.take buf.lastWithDatap ++ tail.takeWhile fun ch => ch.off != 0
        pure { buf with chains := front ++ [chain] }
      else throw .assertion

/-- The last chain after `n` bytes more. -/
def setLast (buf : Evbuffer) (chain : EvbufferChain) (n : ℕ) : Evbuffer :=
  { buf with chains := buf.chains.dropLast ++ [chain], totalLen := buf.totalLen + n }

/-- `evbuffer_add` behind the last chain, where that cannot take all of the bytes. -/
def addChain (buf : Evbuffer) (malloc : Malloc) (chain : EvbufferChain) (data : Bytes) :
    Except Fault (ℤ × Evbuffer) :=
  let remain := chain.bufferLen - chain.misalign - chain.off
  let toAlloc := chain.bufferLen
  let toAlloc := if toAlloc ≤ evbufferChainMaxAutoSize / 2 then toAlloc * 2 else toAlloc
  let toAlloc := if data.length > toAlloc then data.length else toAlloc
  match evbufferChainNew malloc toAlloc with
  | none => pure (-1, buf)
  | some tmp => do
    let chain ← chain.append (data.take remain)
    let tmp ← tmp.append (data.drop remain)
    let buf ← (buf.setLast chain remain).chainInsert tmp
    pure (0, buf)

/-- `evbuffer_add` with a last chain. -/
def addLast (buf : Evbuffer) (malloc : Malloc) (chain : EvbufferChain) (data : Bytes) :
    Except Fault (ℤ × Evbuffer) :=
  let remain := chain.bufferLen - chain.misalign - chain.off
  if chain.misalign > evbufferChainMax then throw .assertion
  else if remain ≥ data.length then do
    let chain ← chain.append data
    pure (0, buf.setLast chain data.length)
  else if chain.shouldRealign data.length then do
    let chain ← chain.align.append data
    pure (0, buf.setLast chain data.length)
  else buf.addChain malloc chain data

/-- `evbuffer_add` -/
def add (buf : Evbuffer) (malloc : Malloc) (data : Bytes) : Except Fault (ℤ × Evbuffer) :=
  if buf.freezeEnd then pure (-1, buf)
  else if data.length > evSizeMax - buf.totalLen then pure (-1, buf)
  else match buf.chains.getLast? with
    | some chain => buf.addLast malloc chain data
    | none => match evbufferChainNew malloc data.length with
      | none => pure (-1, buf)
      | some chain => do
        let buf ← buf.chainInsert chain
        buf.addLast malloc chain data

/-- `COPY_CHAIN(dst, src)` and `APPEND_CHAIN(dst, src)` -/
def appendChain (dst src : Evbuffer) : Except Fault Evbuffer :=
  if dst.totalLen = 0 then
    pure
      { dst with
        chains := src.chains
        lastWithDatap := src.lastWithDatap
        totalLen := src.totalLen }
  else if dst.chains = [] then throw .null
  else
    pure
      { dst with
        chains := dst.chains ++ src.chains
        lastWithDatap := dst.chains.length + src.lastWithDatap
        totalLen := dst.totalLen + src.totalLen }

/-- `evbuffer_add_buffer` for two buffers: the result, `outbuf` and `inbuf`. -/
def addBuffer (outbuf inbuf : Evbuffer) : Except Fault (ℤ × Evbuffer × Evbuffer) :=
  if inbuf.totalLen = 0 then pure (0, outbuf, inbuf)
  else if outbuf.freezeEnd || inbuf.freezeStart then pure (-1, outbuf, inbuf)
  else do
    let outbuf ← appendChain outbuf inbuf
    pure (0, outbuf, inbuf.zeroChain)

/-! ## What they leave -/

variable {buf buf' outbuf inbuf : Evbuffer} {front : List EvbufferChain}
  {chain last tmp : EvbufferChain} {malloc : Malloc} {data : Bytes}

/-- A settled buffer has no chains, or the last one is `*last_with_datap`. -/
theorem Valid.settled_cases (valid : buf.Valid) (settled : buf.Settled) :
    buf.chains = [] ∧ buf.lastWithDatap = 0 ∨
      ∃ front last, buf.chains = front ++ [last] ∧ buf.lastWithDatap = front.length ∧
        (last.off = 0 → front = []) := by
  obtain ⟨total, shape⟩ := valid
  obtain ⟨chains, lwd, totalLen, freezeStart, freezeEnd⟩ := buf
  simp only [Settled] at shape settled ⊢
  cases shape with
  | none => exact .inl ⟨rfl, rfl⟩
  | @linked front behind chain first rest =>
    have none : behind = [] := by
      apply List.eq_nil_of_length_eq_zero
      simpa using settled
    subst none
    exact .inr ⟨front, chain, rfl, rfl, first⟩

/-- A buffer that ends in `*last_with_datap` holds what its chains do. -/
theorem Valid.holds_snoc (valid : buf.Valid) (chains : buf'.chains = front ++ [last])
    (pointer : buf'.lastWithDatap = front.length) (first : last.off = 0 → front = [])
    (content : bytesOf (front ++ [last]) = buf.content ++ data)
    (total : buf'.totalLen = buf.totalLen + data.length)
    (freezeStart : buf'.freezeStart = buf.freezeStart)
    (freezeEnd : buf'.freezeEnd = buf.freezeEnd) :
    Holds buf buf' (buf.content ++ data) ∧ buf'.Settled := by
  refine ⟨valid.holds_linked front chains pointer first (by simp [AllEmpty]) content total
    freezeStart freezeEnd, ?_⟩
  rw [Settled, chains, pointer, List.length_append]
  exact le_rfl

/-- Inserting behind a last chain with data. -/
theorem chainInsert_snoc (buf : Evbuffer) (chains : buf.chains = front ++ [last])
    (pointer : buf.lastWithDatap = front.length) (some : last.off ≠ 0) (filled : chain.off ≠ 0) :
    buf.chainInsert chain = .ok
      { buf with
        chains := front ++ [last] ++ [chain]
        lastWithDatap := (front ++ [last]).length
        totalLen := buf.totalLen + chain.off } := by
  simp [chainInsert, chains, pointer, some, filled]
  rfl

/-- Inserting in place of a single chain without data. -/
theorem chainInsert_idle (buf : Evbuffer) (chains : buf.chains = [last])
    (pointer : buf.lastWithDatap = 0) (empty : last.off = 0) :
    buf.chainInsert chain = .ok
      { buf with chains := [chain], totalLen := buf.totalLen + chain.off } := by
  simp [chainInsert, chains, pointer, empty, AllEmpty]
  rfl

theorem chainInsert_nil (buf : Evbuffer) (chain : EvbufferChain) (chains : buf.chains = [])
    (pointer : buf.lastWithDatap = 0) :
    buf.chainInsert chain = .ok
      { buf with chains := [chain], totalLen := buf.totalLen + chain.off } := by
  simp [chainInsert, chains, pointer]
  rfl

theorem setLast_snoc (chains : buf.chains = front ++ [last]) (n : ℕ) :
    buf.setLast chain n =
      { buf with chains := front ++ [chain], totalLen := buf.totalLen + n } := by
  rw [setLast, chains, List.dropLast_concat]

/-- The last chain with more data behind its own. -/
theorem Valid.holds_setLast (valid : buf.Valid) (chains : buf.chains = front ++ [last])
    (pointer : buf.lastWithDatap = front.length) (first : last.off = 0 → front = [])
    (more : chain.data = last.data ++ data) :
    Holds buf (buf.setLast chain data.length) (buf.content ++ data) ∧
      (buf.setLast chain data.length).Settled := by
  rw [setLast_snoc chains]
  refine valid.holds_snoc rfl pointer (fun empty => first ?_) ?_ rfl rfl rfl
  · rw [← EvbufferChain.data_eq_nil_iff] at empty ⊢
    rw [more] at empty
    exact (List.append_eq_nil_iff.mp empty).1
  · rw [content, chains, bytesOf_append, bytesOf_append, bytesOf_cons, bytesOf_cons, more]
    simp

/-- What the last chain has no space for goes into a new one. -/
theorem addChain_snoc (malloc : Malloc) (valid : buf.Valid) (chains : buf.chains = front ++ [last])
    (pointer : buf.lastWithDatap = front.length) (first : last.off = 0 → front = [])
    (more : last.spaceLen < data.length) :
    ∃ n buf', buf.addChain malloc last data = .ok (n, buf') ∧
      (n = 0 ∧ Holds buf buf' (buf.content ++ data) ∧ buf'.Settled ∨
        n = -1 ∧ buf' = buf ∧ ∃ size, evbufferChainNew malloc size = none) := by
  have remain : last.bufferLen - last.misalign - last.off = last.spaceLen := Nat.sub_sub _ _ _
  unfold addChain
  simp only [remain]
  generalize size : (if data.length > _ then data.length else _) = toAlloc
  have enough : data.length ≤ toAlloc := by
    split at size <;> split at size <;> omega
  cases made : evbufferChainNew malloc toAlloc with
  | none => exact ⟨-1, buf, rfl, .inr ⟨rfl, rfl, toAlloc, made⟩⟩
  | some tmp =>
    obtain ⟨empty, space⟩ := evbufferChainNew_some made
    have front_length : (data.take last.spaceLen).length = last.spaceLen := by
      rw [List.length_take]
      omega
    have back_length : (data.drop last.spaceLen).length = data.length - last.spaceLen :=
      List.length_drop
    obtain ⟨last', filled, last_data, last_off⟩ := last.append_ok front_length.le
    have back_fits : (data.drop last.spaceLen).length ≤ tmp.spaceLen := by omega
    obtain ⟨tmp', stored, tmp_data, tmp_off⟩ := tmp.append_ok back_fits
    have none : tmp.data = [] := EvbufferChain.data_eq_nil_iff.mpr empty
    rw [none, List.nil_append] at tmp_data
    have some : tmp'.off ≠ 0 := by omega
    have bytes : bytesOf (front ++ [last'] ++ [tmp']) = buf.content ++ data := by
      rw [content, chains]
      simp [last_data, tmp_data]
    simp only [filled, stored, setLast_snoc chains]
    by_cases nothing : last'.off = 0
    · -- neither data nor space in the last chain: it is replaced
      have only : front = [] := first (by omega)
      subst only
      have zero : last.spaceLen = 0 := by omega
      have gone : last'.data = [] := EvbufferChain.data_eq_nil_iff.mpr nothing
      have run : chainInsert _ tmp' = _ := chainInsert_idle
        { buf with chains := [last'], totalLen := buf.totalLen + last.spaceLen } rfl pointer nothing
      refine ⟨0, { buf with chains := [tmp'], totalLen := buf.totalLen + last.spaceLen + tmp'.off },
        ?_, .inl ⟨rfl,
        valid.holds_snoc (List.nil_append _).symm pointer (fun _ => rfl) ?_ ?_ rfl rfl⟩⟩
      · change (chainInsert _ _ >>= _) = _
        rw [List.nil_append, run]
        rfl
      · simpa [gone] using bytes
      · change buf.totalLen + last.spaceLen + tmp'.off = _
        omega
    · have run : chainInsert _ tmp' = _ := chainInsert_snoc
        { buf with chains := front ++ [last'], totalLen := buf.totalLen + last.spaceLen } rfl
        pointer nothing some
      refine ⟨0,
        { buf with
          chains := front ++ [last'] ++ [tmp']
          lastWithDatap := (front ++ [last']).length
          totalLen := buf.totalLen + last.spaceLen + tmp'.off },
        ?_, .inl ⟨rfl, valid.holds_snoc rfl rfl (fun h => (some h).elim) bytes ?_ rfl rfl⟩⟩
      · change (chainInsert _ _ >>= _) = _
        rw [run]
        rfl
      · change buf.totalLen + last.spaceLen + tmp'.off = _
        omega

theorem addLast_snoc (malloc : Malloc) (data : Bytes) (valid : buf.Valid)
    (chains : buf.chains = front ++ [last])
    (pointer : buf.lastWithDatap = front.length) (first : last.off = 0 → front = []) :
    ∃ n buf', buf.addLast malloc last data = .ok (n, buf') ∧
      (n = 0 ∧ Holds buf buf' (buf.content ++ data) ∧ buf'.Settled ∨
        n = -1 ∧ buf' = buf ∧ last.spaceLen < data.length ∧
          ∃ size, evbufferChainNew malloc size = none) := by
  have remain : last.bufferLen - last.misalign - last.off = last.spaceLen := Nat.sub_sub _ _ _
  have inside : ¬ last.misalign > evbufferChainMax := by
    have := last.fits
    have := last.small
    omega
  unfold addLast
  rw [if_neg inside]
  simp only [remain]
  split
  · rename_i room
    obtain ⟨last', filled, more, -⟩ := last.append_ok room
    refine ⟨0, _, ?_, .inl ⟨rfl, valid.holds_setLast chains pointer first more⟩⟩
    rw [filled]
    rfl
  rename_i full
  split
  · rename_i realign
    simp only [EvbufferChain.shouldRealign, Bool.and_eq_true, decide_eq_true_eq] at realign
    have room : data.length ≤ last.align.spaceLen := by
      rw [last.spaceLen_align]
      exact realign.1.1
    obtain ⟨last', filled, more, -⟩ := last.align.append_ok room
    rw [last.data_align] at more
    refine ⟨0, _, ?_, .inl ⟨rfl, valid.holds_setLast chains pointer first more⟩⟩
    rw [filled]
    rfl
  · have less : last.spaceLen < data.length := by omega
    obtain ⟨n, buf', run, added | ⟨minus, same, refused⟩⟩ :=
      addChain_snoc malloc valid chains pointer first less
    · exact ⟨n, buf', run, .inl added⟩
    · exact ⟨n, buf', run, .inr ⟨minus, same, less, refused⟩⟩

/-- All of the bytes are added, or none of them and the buffer stays as it was. -/
theorem add_ok (valid : buf.Valid) (settled : buf.Settled) (malloc : Malloc) (data : Bytes) :
    ∃ n buf', buf.add malloc data = .ok (n, buf') ∧
      (n = 0 ∧ buf.freezeEnd = false ∧ Holds buf buf' (buf.content ++ data) ∧ buf'.Settled ∨
        n = -1 ∧ buf' = buf ∧ (buf.freezeEnd = true ∨ data.length > evSizeMax - buf.totalLen ∨
          ∃ size, evbufferChainNew malloc size = none)) := by
  unfold add
  split
  · rename_i frozen
    exact ⟨-1, buf, rfl, .inr ⟨rfl, rfl, .inl frozen⟩⟩
  rename_i thawed
  rw [Bool.not_eq_true] at thawed
  split
  · rename_i long
    exact ⟨-1, buf, rfl, .inr ⟨rfl, rfl, .inr (.inl long)⟩⟩
  rcases valid.settled_cases settled with ⟨chains, pointer⟩ | ⟨front, last, chains, pointer, first⟩
  · -- no chains: the first one has space for all of the bytes
    simp only [chains, List.getLast?_nil]
    cases made : evbufferChainNew malloc data.length with
    | none => exact ⟨-1, buf, rfl, .inr ⟨rfl, rfl, .inr (.inr ⟨_, made⟩)⟩⟩
    | some chain =>
      obtain ⟨empty, space⟩ := evbufferChainNew_some made
      have none : chain.data = [] := EvbufferChain.data_eq_nil_iff.mpr empty
      have nothing : buf.content = [] := by
        rw [content, chains]
        rfl
      obtain ⟨chain', filled, more, -⟩ := chain.append_ok space
      rw [none, List.nil_append] at more
      simp only [chainInsert_nil buf _ chains pointer]
      have run :
          addLast { buf with chains := [chain], totalLen := buf.totalLen + chain.off } malloc chain
            data = .ok (0, { buf with
              chains := [chain']
              totalLen := buf.totalLen + chain.off + data.length }) := by
        have inside : ¬ chain.misalign > evbufferChainMax := by
          have := chain.fits
          have := chain.small
          omega
        have remain : chain.bufferLen - chain.misalign - chain.off = chain.spaceLen :=
          Nat.sub_sub _ _ _
        rw [addLast, if_neg inside]
        simp only [remain]
        rw [if_pos space, filled]
        rfl
      refine ⟨0, _, run, .inl ⟨rfl, thawed, ?_⟩⟩
      refine valid.holds_snoc (List.nil_append _).symm pointer (fun _ => rfl) ?_ ?_ rfl rfl
      · simp [nothing, more]
      · change buf.totalLen + chain.off + data.length = _
        omega
  · rw [chains, List.getLast?_concat]
    obtain ⟨n, buf', run, ⟨zero, holds⟩ | ⟨minus, same, -, refused⟩⟩ :=
      addLast_snoc malloc data valid chains pointer first
    · exact ⟨n, buf', run, .inl ⟨zero, thawed, holds⟩⟩
    · exact ⟨n, buf', run, .inr ⟨minus, same, .inr (.inr refused)⟩⟩

/-! ## evbuffer_add_buffer -/

theorem Shape.append {dst src : List EvbufferChain} {lwd : ℕ} (shape : Shape src lwd)
    (some : bytesOf src ≠ []) : Shape (dst ++ src) (dst.length + lwd) := by
  obtain ⟨front, chain, behind, rfl, rfl, nonzero, rest⟩ := shape.split some
  rw [← List.append_assoc, ← List.length_append]
  exact .linked _ (fun empty => (nonzero empty).elim) rest

/-- All of the bytes of `inbuf` go behind those of `outbuf`, or none. -/
theorem addBuffer_ok (valid : outbuf.Valid) (valid' : inbuf.Valid) :
    ∃ n outbuf' inbuf', addBuffer outbuf inbuf = .ok (n, outbuf', inbuf') ∧
      (n = 0 ∧ Holds outbuf outbuf' (outbuf.content ++ inbuf.content) ∧ Holds inbuf inbuf' [] ∧
          (outbuf.Settled → inbuf.Settled → outbuf'.Settled ∧ inbuf'.Settled) ∨
        n = -1 ∧ outbuf' = outbuf ∧ inbuf' = inbuf ∧
          (outbuf.freezeEnd = true ∨ inbuf.freezeStart = true)) := by
  unfold addBuffer
  split
  · rename_i zero
    rw [valid'.totalLen_eq_zero_iff] at zero
    refine ⟨0, outbuf, inbuf, rfl, .inl ⟨rfl, ?_, ?_, fun h h' => ⟨h, h'⟩⟩⟩
    · rw [zero, List.append_nil]
      exact valid.holds
    · rw [← zero]
      exact valid'.holds
  rename_i some
  rw [valid'.totalLen_eq_zero_iff] at some
  split
  · rename_i frozen
    rw [Bool.or_eq_true] at frozen
    exact ⟨-1, outbuf, inbuf, rfl, .inr ⟨rfl, rfl, rfl, frozen⟩⟩
  unfold appendChain
  split
  · rename_i zero
    have nothing := valid.totalLen_eq_zero_iff.mp zero
    refine ⟨0, _, _, rfl, .inl ⟨rfl, ?_, holds_zeroChain inbuf, fun _ settled' => ?_⟩⟩
    · rw [nothing, List.nil_append]
      exact ⟨⟨valid'.total, valid'.shape⟩, rfl, rfl, rfl⟩
    · exact ⟨settled', Nat.zero_le _⟩
  · rename_i nonzero
    have chains : outbuf.chains ≠ [] := by
      intro none
      apply nonzero
      rw [valid.totalLen_eq_zero_iff, content, none]
      rfl
    rw [if_neg chains]
    refine ⟨0, _, _, rfl, .inl ⟨rfl, ?_, holds_zeroChain inbuf, fun settled settled' => ?_⟩⟩
    · refine ⟨⟨?_, valid'.shape.append some⟩, ?_, rfl, rfl⟩
      · change outbuf.totalLen + inbuf.totalLen = (bytesOf (outbuf.chains ++ inbuf.chains)).length
        rw [bytesOf_append, List.length_append, valid.total, valid'.total]
        rfl
      · exact bytesOf_append
    · refine ⟨?_, Nat.zero_le _⟩
      rw [Settled] at settled' ⊢
      simp only [List.length_append]
      omega

end Evbuffer

end JiaTuanServer.Libevent

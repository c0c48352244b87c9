import JiaTuanServer.Library.Fifo
import JiaTuanServer.Libevent.Read

/-!
# Evbuffers as queues

Any number of evbuffers, and any calls on them in any order: each buffer stays valid, no assertion
fails and nothing is written past the end of a chain, and each buffer is a queue of bytes
(`buffers_are_queues`). The one thing asked of a caller is that `evbuffer_add` is not used on a
buffer that has empty chains behind its data, as `evbuffer_read` can leave it; `add_unsettled` says
what happens there.
-/

namespace JiaTuanServer.Libevent

open Transition Machine
open Request (Bytes)

variable {ι : Type} [DecidableEq ι]

/-- The calls. What the allocator and the kernel answer is part of a call. -/
inductive Op (ι : Type) where
  | add (i : ι) (malloc : Malloc) (data : Bytes)
  | read (i : ι) (malloc : Malloc) (readable howmuch : ℤ) (readv : Readv)
  /-- `evbuffer_add_buffer(j, i)` -/
  | move (i j : ι)
  | drain (i : ι) (len : ℕ)
  | remove (i : ι) (dataOut : Bytes) (datlen : ℕ)
  | write (i : ι) (writev : Writev) (howmuch : ℤ)
  | freeze (i : ι) (start frozen : Bool)

/-- What a call gives back: its result, and the bytes that the socket or the caller's array has
given or got. -/
structure Answer where
  result : ℤ
  bytes : Bytes

/-- A call of `op` on some buffers. -/
def perform (s : ι → Evbuffer) : Op ι → Except Fault (Answer × (ι → Evbuffer))
  | .add i malloc data => do
    let (n, buf) ← (s i).add malloc data
    pure (⟨n, []⟩, Function.update s i buf)
  | .read i malloc readable howmuch readv => do
    let (n, bytes, buf) ← (s i).read malloc readable howmuch readv
    pure (⟨n, bytes⟩, Function.update s i buf)
  | .move i j =>
    if i = j then pure (⟨0, []⟩, s)
    else do
      let (n, outbuf, inbuf) ← Evbuffer.addBuffer (s j) (s i)
      pure (⟨n, []⟩, Function.update (Function.update s j outbuf) i inbuf)
  | .drain i len => do
    let (n, buf) ← (s i).drain len
    pure (⟨n, []⟩, Function.update s i buf)
  | .remove i dataOut datlen => do
    let (n, dataOut, buf) ← (s i).remove dataOut datlen
    pure (⟨n, dataOut.take n.toNat⟩, Function.update s i buf)
  | .write i writev howmuch => do
    let (n, sent, buf) ← (s i).writeAtmost writev howmuch
    pure (⟨n, sent⟩, Function.update s i buf)
  | .freeze i start frozen => pure (⟨0, []⟩, Function.update s i ((s i).setFreeze start frozen))

/-- What a call with this answer brings into buffer `k`. -/
def came (k : ι) (s : ι → Evbuffer) (a : Answer) : Op ι → Bytes
  | .add i _ data => if a.result = 0 ∧ i = k then data else []
  | .read i _ _ _ _ => if i = k then a.bytes else []
  | .move i j => if a.result = 0 ∧ j = k ∧ i ≠ j then (s i).content else []
  | _ => []

/-- What a call with this answer takes out of buffer `k`. -/
def went (k : ι) (s : ι → Evbuffer) (a : Answer) : Op ι → Bytes
  | .move i j => if a.result = 0 ∧ i = k ∧ i ≠ j then (s i).content else []
  | .drain i len => if a.result = 0 ∧ i = k then (s i).content.take len else []
  | .remove i _ _ => if i = k then a.bytes else []
  | .write i _ _ => if i = k then a.bytes else []
  | _ => []

def arrived (k : ι) (s : ι → Evbuffer) (op : Op ι) : Bytes :=
  match perform s op with
  | .ok (a, _) => came k s a op
  | .error _ => []

def departed (k : ι) (s : ι → Evbuffer) (op : Op ι) : Bytes :=
  match perform s op with
  | .ok (a, _) => went k s a op
  | .error _ => []

/-- `evbuffer_add` is used on a buffer without empty chains behind its data. -/
def AddsSettled (s : ι → Evbuffer) : Op ι → Prop
  | .add i _ _ => (s i).Settled
  | _ => True

instance (s : ι → Evbuffer) : (op : Op ι) → Decidable (AddsSettled s op)
  | .add i _ _ => inferInstanceAs (Decidable (s i).Settled)
  | .read _ _ _ _ _ | .move _ _ | .drain _ _ | .remove _ _ _ | .write _ _ _ | .freeze _ _ _ =>
    .isTrue trivial

/-- The caller's array takes what `evbuffer_remove` copies. -/
def HasRoom (s : ι → Evbuffer) : Op ι → Prop
  | .remove i dataOut datlen => min datlen (s i).totalLen ≤ dataOut.length
  | _ => True

variable (ι) in
/-- Buffers under any calls. -/
def buffers : Machine (ι → Evbuffer) (Op ι) where
  initial s := ∀ i, s i = .new
  step s op := match perform s op with
    | .ok (_, s') => some s'
    | .error _ => none

variable {s u : ι → Evbuffer} {op : Op ι} {i j : ι}

/-! ## One call -/

def AllValid (s : ι → Evbuffer) : Prop := ∀ k, (s k).Valid

/-- The buffers after a call are valid, and the books of each are right. -/
structure Balanced (s u : ι → Evbuffer) (came went : ι → Bytes) : Prop where
  valid : AllValid u
  books : ∀ k, (s k).content ++ came k = went k ++ (u k).content

/-- The call can be made, and balances. -/
def Goes (s : ι → Evbuffer) (op : Op ι) : Prop :=
  ∃ a u, perform s op = .ok (a, u) ∧ Balanced s u (fun k => came k s a op) fun k => went k s a op

omit [DecidableEq ι] in
/-- No buffer changes. -/
theorem balanced_same (valid : AllValid s) : Balanced s s (fun _ => []) fun _ => [] :=
  ⟨valid, fun k => by rw [List.append_nil, List.nil_append]⟩

/-- Only buffer `i` changes. -/
theorem balanced_update {buf : Evbuffer} {bytes : Bytes} (came went : Bytes)
    (valid : AllValid s) (holds : Evbuffer.Holds (s i) buf bytes)
    (books : (s i).content ++ came = went ++ bytes) :
    Balanced s (Function.update s i buf) (fun k => if i = k then came else [])
      (fun k => if i = k then went else []) := by
  constructor
  · intro k
    by_cases same : k = i
    · subst same
      rw [Function.update_self]
      exact holds.valid
    · rw [Function.update_of_ne same]
      exact valid k
  · intro k
    by_cases same : k = i
    · subst same
      rw [Function.update_self, if_pos rfl, if_pos rfl, holds.content, books]
    · rw [Function.update_of_ne same, if_neg (Ne.symm same), if_neg (Ne.symm same),
        List.append_nil, List.nil_append]

namespace Evbuffer

variable {buf : Evbuffer}

theorem read_frozen (frozen : buf.freezeEnd = true) (malloc : Malloc) (readable howmuch : ℤ)
    (readv : Readv) : buf.read malloc readable howmuch readv = .ok (-1, [], buf) := by
  rw [read, frozen]
  rfl

theorem drain_frozen (frozen : buf.freezeStart = true) (len : ℕ) :
    buf.drain len = .ok (if buf.totalLen = 0 then 0 else -1, buf) := by
  rw [drain, frozen]
  split <;> rfl

theorem remove_frozen (frozen : buf.freezeStart = true) (dataOut : Bytes) (datlen : ℕ) :
    ∃ n : ℤ, n ≤ 0 ∧ buf.remove dataOut datlen = .ok (n, dataOut, buf) := by
  unfold remove copyout
  simp only [frozen, if_true]
  generalize (if datlen ≥ buf.totalLen then buf.totalLen else datlen) = size
  split
  · exact ⟨0, by decide, rfl⟩
  · exact ⟨-1, by decide, rfl⟩

theorem writeAtmost_frozen (frozen : buf.freezeStart = true) (writev : Writev) (howmuch : ℤ) :
    buf.writeAtmost writev howmuch = .ok (-1, [], buf) := by
  rw [writeAtmost, frozen]
  rfl

theorem setFreeze_holds (valid : buf.Valid) (start frozen : Bool) :
    (buf.setFreeze start frozen).Valid ∧ (buf.setFreeze start frozen).content = buf.content := by
  unfold setFreeze
  split <;> exact ⟨⟨valid.total, valid.shape⟩, rfl⟩

end Evbuffer

theorem goes_add (valid : AllValid s) (settled : (s i).Settled) (malloc : Malloc)
    (data : Bytes) : Goes s (.add i malloc data) := by
  obtain ⟨n, buf, run, ⟨rfl, -, holds, -⟩ | ⟨rfl, rfl, -⟩⟩ :=
    Evbuffer.add_ok (valid i) settled malloc data
  · refine ⟨⟨0, []⟩, Function.update s i buf, ?_, ?_⟩
    · simp only [perform, run]
      rfl
    · simpa [came, went] using balanced_update data [] valid holds rfl
  · refine ⟨⟨-1, []⟩, s, ?_, by simpa [came, went] using balanced_same valid⟩
    simp only [perform, run, bind, Except.bind, Function.update_eq_self]
    rfl

theorem goes_read (valid : AllValid s) (malloc : Malloc) (readable howmuch : ℤ)
    (readv : Readv) : Goes s (.read i malloc readable howmuch readv) := by
  obtain ⟨n, bytes, buf, run, holds⟩ : ∃ n bytes buf,
      (s i).read malloc readable howmuch readv = .ok (n, bytes, buf) ∧
        Evbuffer.Holds (s i) buf ((s i).content ++ bytes) := by
    cases thawed : (s i).freezeEnd with
    | true =>
      refine ⟨_, _, _, Evbuffer.read_frozen thawed malloc readable howmuch readv, ?_⟩
      rw [List.append_nil]
      exact (valid i).holds
    | false =>
      obtain ⟨n, bytes, buf, run, holds, -⟩ :=
        Evbuffer.read_ok (valid i) thawed malloc readable howmuch readv
      exact ⟨n, bytes, buf, run, holds⟩
  refine ⟨⟨n, bytes⟩, Function.update s i buf, ?_, ?_⟩
  · simp only [perform, run]
    rfl
  · simpa [came, went] using balanced_update bytes [] valid holds rfl

theorem goes_move (valid : AllValid s) : Goes s (.move i j) := by
  by_cases same : i = j
  · subst same
    exact ⟨⟨0, []⟩, s, if_pos rfl, by simpa [came, went] using balanced_same valid⟩
  obtain ⟨n, outbuf, inbuf, run, ⟨rfl, holds, holds', -⟩ | ⟨rfl, rfl, rfl, -⟩⟩ :=
    Evbuffer.addBuffer_ok (valid j) (valid i)
  · refine ⟨⟨0, []⟩, Function.update (Function.update s j outbuf) i inbuf, ?_, ?_⟩
    · simp only [perform, if_neg same, run]
      rfl
    · simp only [came, went, ne_eq, same, not_false_eq_true, and_true, true_and]
      constructor
      · intro k
        by_cases source : k = i
        · subst source
          rw [Function.update_self]
          exact holds'.valid
        rw [Function.update_of_ne source]
        by_cases target : k = j
        · subst target
          rw [Function.update_self]
          exact holds.valid
        · rw [Function.update_of_ne target]
          exact valid k
      · intro k
        by_cases source : k = i
        · subst source
          rw [Function.update_self, holds'.content, if_neg (Ne.symm same), if_pos rfl]
        rw [Function.update_of_ne source, if_neg (Ne.symm source)]
        by_cases target : k = j
        · subst target
          rw [Function.update_self, holds.content, if_pos rfl, List.nil_append]
        · rw [Function.update_of_ne target, if_neg (Ne.symm target), List.append_nil,
            List.nil_append]
  · refine ⟨⟨-1, []⟩, s, ?_, by simpa [came, went] using balanced_same valid⟩
    simp only [perform, if_neg same, run, bind, Except.bind, Function.update_eq_self]
    rfl

theorem goes_drain (valid : AllValid s) (len : ℕ) : Goes s (.drain i len) := by
  cases thawed : (s i).freezeStart with
  | true =>
    have run := Evbuffer.drain_frozen thawed len
    refine ⟨⟨if (s i).totalLen = 0 then 0 else -1, []⟩, s, ?_, ?_⟩
    · simp only [perform, run, bind, Except.bind, Function.update_eq_self]
      rfl
    · simp only [came, went]
      split
      · rename_i zero
        rw [(valid i).totalLen_eq_zero_iff] at zero
        simpa [zero] using balanced_same valid
      · simpa using balanced_same valid
  | false =>
    obtain ⟨buf, run, holds, -⟩ := Evbuffer.drain_ok (valid i) thawed len
    refine ⟨⟨0, []⟩, Function.update s i buf, ?_, ?_⟩
    · simp only [perform, run]
      rfl
    · simpa [came, went] using balanced_update [] ((s i).content.take len) valid holds (by simp)

/-- The bytes removed are those at the front, or the caller's array is too small. -/
theorem remove_cases (valid : AllValid s) (dataOut : Bytes) (datlen : ℕ) :
    Goes s (.remove i dataOut datlen) ∨
      ¬ min datlen (s i).totalLen ≤ dataOut.length ∧
        perform s (.remove i dataOut datlen) = .error .overrun := by
  cases thawed : (s i).freezeStart with
  | true =>
    obtain ⟨n, nonpos, run⟩ := Evbuffer.remove_frozen thawed dataOut datlen
    refine .inl ⟨⟨n, []⟩, s, ?_, by simpa [came, went] using balanced_same valid⟩
    simp only [perform, run, bind, Except.bind, Function.update_eq_self,
      Int.toNat_of_nonpos nonpos, List.take_zero]
    rfl
  | false =>
    by_cases room : min datlen (s i).totalLen ≤ dataOut.length
    · obtain ⟨buf, run, holds, -⟩ := Evbuffer.remove_ok (valid i) thawed room
      have length : ((s i).content.take datlen).length = min datlen (s i).totalLen := by
        rw [List.length_take, (valid i).total]
      have got : (Memory.store dataOut 0 ((s i).content.take datlen)).take
          (min datlen (s i).totalLen) = (s i).content.take datlen := by
        have front := Memory.load_store_front dataOut ((s i).content.take datlen)
        rwa [length, Memory.load, List.drop_zero] at front
      refine .inl ⟨⟨(min datlen (s i).totalLen : ℕ), (s i).content.take datlen⟩,
        Function.update s i buf, ?_, ?_⟩
      · simp only [perform, run, bind, Except.bind, Int.toNat_natCast, got]
        rfl
      · simpa [came, went] using
          balanced_update [] ((s i).content.take datlen) valid holds (by simp)
    · refine .inr ⟨room, ?_⟩
      simp only [perform, Evbuffer.remove, Evbuffer.copyout_eq (valid i) thawed, if_neg room]
      rfl

theorem goes_write (valid : AllValid s) (writev : Writev) (howmuch : ℤ) :
    Goes s (.write i writev howmuch) := by
  cases thawed : (s i).freezeStart with
  | true =>
    have run := Evbuffer.writeAtmost_frozen thawed writev howmuch
    refine ⟨⟨-1, []⟩, s, ?_, by simpa [came, went] using balanced_same valid⟩
    simp only [perform, run, bind, Except.bind, Function.update_eq_self]
    rfl
  | false =>
    obtain ⟨n, sent, buf, run, -, -, rfl, holds, -⟩ :=
      Evbuffer.writeAtmost_ok (valid i) thawed writev howmuch
    refine ⟨⟨n, (s i).content.take n.toNat⟩, Function.update s i buf, ?_, ?_⟩
    · simp only [perform, run]
      rfl
    · simpa [came, went] using
        balanced_update [] ((s i).content.take n.toNat) valid holds (by simp)

theorem goes_freeze (valid : AllValid s) (start frozen : Bool) :
    Goes s (.freeze i start frozen) := by
  obtain ⟨sound, same⟩ := Evbuffer.setFreeze_holds (valid i) start frozen
  refine ⟨⟨0, []⟩, Function.update s i ((s i).setFreeze start frozen), rfl, ?_, ?_⟩
  · intro k
    by_cases here : k = i
    · subst here
      rwa [Function.update_self]
    · rw [Function.update_of_ne here]
      exact valid k
  · intro k
    simp only [came, went, List.append_nil, List.nil_append]
    by_cases here : k = i
    · subst here
      rw [Function.update_self, same]
    · rw [Function.update_of_ne here]

/-- A call on valid buffers goes through and balances, or the caller's array is too small. -/
theorem perform_cases (valid : AllValid s) (settled : AddsSettled s op) :
    Goes s op ∨ ¬ HasRoom s op ∧ perform s op = .error .overrun := by
  cases op with
  | add i malloc data => exact .inl (goes_add valid settled malloc data)
  | read i malloc readable howmuch readv =>
    exact .inl (goes_read valid malloc readable howmuch readv)
  | move i j => exact .inl (goes_move valid)
  | drain i len => exact .inl (goes_drain valid len)
  | remove i dataOut datlen => exact remove_cases valid dataOut datlen
  | write i writev howmuch => exact .inl (goes_write valid writev howmuch)
  | freeze i start frozen => exact .inl (goes_freeze valid start frozen)

/-! ## Runs -/

/-- A step of the machine keeps all buffers valid and balances. -/
theorem buffers_step (k : ι) (valid : AllValid s) (settled : AddsSettled s op)
    (taken : (buffers ι).step s op = some u) :
    AllValid u ∧
      (s k).content ++ arrived k s op = departed k s op ++ (u k).content := by
  rcases perform_cases valid settled with ⟨a, u', performed, balanced⟩ | ⟨-, fault⟩
  · simp only [buffers, performed, Option.some.injEq] at taken
    subst taken
    simp only [arrived, departed, performed]
    exact ⟨balanced.valid, balanced.books k⟩
  · simp [buffers, fault] at taken

/-- Evbuffers under any calls in any order: all of them stay valid; what ever arrived in one is what
departed from it, in the same order, and what it still holds; and the next call goes through. -/
theorem buffers_are_queues {tr : List ((ι → Evbuffer) × Op ι)}
    (run : (buffers ι).Run (fun _ => .new) tr s) (settled : Along AddsSettled tr) :
    AllValid s ∧
      (∀ k, Fifo.along (arrived k) tr = Fifo.along (departed k) tr ++ (s k).content) ∧
      ∀ op, AddsSettled s op → HasRoom s op → ∃ a u, perform s op = .ok (a, u) := by
  have start : AllValid fun _ : ι => Evbuffer.new := fun _ => Evbuffer.valid_new
  have valid : AllValid s := by
    refine run.invariant settled start ?_
    intro s op u valid cond taken k
    exact (buffers_step k valid cond taken).1 k
  refine ⟨valid, fun k => ?_, fun op cond room => ?_⟩
  · have books := Fifo.run_balance (fun s : ι → Evbuffer => (s k).content) (arrived k) (departed k)
      run settled start fun s op u valid cond taken => buffers_step k valid cond taken
    exact books.2
  · rcases perform_cases valid cond with ⟨a, u, performed, -⟩ | ⟨tight, -⟩
    · exact ⟨a, u, performed⟩
    · exact (tight room).elim

/-- An allocator that never fails. -/
def zeroed : Malloc where
  memory n := some (List.replicate n 0)
  size n m found := by
    cases found
    exact List.length_replicate

/-- A socket that takes one byte at a time. -/
def narrow : Writev where
  taken lengths := some (min 1 lengths.sum)
  bounded lengths n taken := by
    cases taken
    exact Nat.min_le_right _ _

theorem buffers_are_queues_narrow :
    ∃ s, (buffers Unit).exec (fun _ => .new) [.add () zeroed [1, 2], .write () narrow (-1)] =
        some s ∧ AllValid s ∧
      Fifo.along (arrived ()) ((buffers Unit).trace (fun _ => .new)
        [.add () zeroed [1, 2], .write () narrow (-1)]) =
        Fifo.along (departed ()) ((buffers Unit).trace (fun _ => .new)
          [.add () zeroed [1, 2], .write () narrow (-1)]) ++ (s ()).content := by
  have possible : ((buffers Unit).exec (fun _ => .new)
      [.add () zeroed [1, 2], .write () narrow (-1)]).isSome = true := by decide +kernel
  obtain ⟨s, ran⟩ := Option.isSome_iff_exists.mp possible
  have settled : (buffers Unit).check (fun s op => decide (AddsSettled s op)) (fun _ => .new)
      [.add () zeroed [1, 2], .write () narrow (-1)] = true := by decide +kernel
  have cond := along_of_check (fun _ _ => of_decide_eq_true) settled
  obtain ⟨valid, books, -⟩ := buffers_are_queues (run_of_exec ran) cond
  exact ⟨s, ran, valid, books ()⟩

/-! ## evbuffer_add behind empty chains -/

namespace Evbuffer

variable {buf : Evbuffer} {chains front mid : List EvbufferChain} {chain last : EvbufferChain}
  {data : Bytes}

/-- The space that `_evbuffer_expand_fast` finds in a chain. -/
def expandable (chain : EvbufferChain) : ℕ :=
  (if chain.off = 0 then chain.rewind else chain).spaceLen

theorem Shape.behind {lwd : ℕ} (shape : Shape chains lwd) : AllEmpty (chains.drop (lwd + 1)) := by
  cases shape with
  | none => simp [AllEmpty]
  | @linked front behind chain first rest =>
    rwa [← List.drop_drop, List.drop_left, List.drop_one, List.tail_cons]

/-- Behind `*last_with_datap` the loop stops at a chain with data. -/
theorem expandLoop_stuck {datlen n avail used : ℕ} (rest : AllEmpty mid) (some : last.off ≠ 0)
    (few : used + mid.length < n) (short : avail + (mid.map expandable).sum < datlen) :
    expandLoop datlen n false avail used (mid ++ [last]) = .error .assertion := by
  induction mid generalizing avail used with
  | nil =>
    rw [List.nil_append, expandLoop, if_pos ⟨some, rfl⟩]
    rfl
  | cons chain mid ih =>
    obtain ⟨empty, rest⟩ := List.forall_mem_cons.mp rest
    have rewound : chain.rewind.off = 0 := empty
    simp only [List.map_cons, List.sum_cons, expandable, empty, if_true, List.length_cons]
      at short few
    simp only [List.cons_append, expandLoop, empty, rewound, ne_eq, not_true_eq_false, false_and,
      if_false, if_true, true_or]
    rw [if_neg (by omega), if_neg (by omega), ih rest (by omega) (by omega)]
    rfl

/-- `evbuffer_add` on a valid buffer with an empty chain at its end: bytes that fit there are added,
but the buffer is not valid any more, and an `evbuffer_read` that needs more space than there is in
front of that chain fails an assertion. -/
theorem add_unsettled (valid : buf.Valid) (thawed : buf.freezeEnd = false)
    (split : buf.chains = front ++ chain :: (mid ++ [last]))
    (pointer : buf.lastWithDatap = front.length) (malloc : Malloc) (some : data ≠ [])
    (short : data.length ≤ evSizeMax - buf.totalLen) (room : data.length ≤ last.spaceLen) :
    ∃ buf', buf.add malloc data = .ok (0, buf') ∧ buf'.content = buf.content ++ data ∧
      ¬ buf'.Valid ∧ ∀ malloc' readable howmuch readv, mid.length + 2 ≤ numReadIovec →
        ((chain :: mid).map expandable).sum < (Request.Evbuffer.readSize readable howmuch).toNat →
        buf'.read malloc' readable howmuch readv = .error .assertion := by
  have pos : 0 < data.length := List.length_pos_iff.mpr some
  have rest : AllEmpty mid := by
    have behind := valid.shape.behind
    rw [split, pointer, ← List.drop_drop, List.drop_left, List.drop_one, List.tail_cons] at behind
    exact fun ch mem => behind ch (List.mem_append_left _ mem)
  have inside : ¬ last.misalign > evbufferChainMax := by
    have := last.fits
    have := last.small
    omega
  have remain : last.bufferLen - last.misalign - last.off = last.spaceLen := Nat.sub_sub _ _ _
  have regroup : front ++ chain :: (mid ++ [last]) = (front ++ chain :: mid) ++ [last] := by simp
  obtain ⟨last', filled, more, off⟩ := last.append_ok room
  have nonzero : last'.off ≠ 0 := by omega
  have chains' : buf.setLast last' data.length =
      { buf with
        chains := front ++ chain :: (mid ++ [last'])
        totalLen := buf.totalLen + data.length } := by
    rw [setLast_snoc (split.trans regroup)]
    simp
  refine ⟨buf.setLast last' data.length, ?_, ?_, ?_, ?_⟩
  · rw [add, thawed, if_neg Bool.false_ne_true, if_neg (by omega), split, regroup,
      List.getLast?_concat]
    simp only [addLast, if_neg inside, remain]
    rw [if_pos room, filled]
    rfl
  · rw [chains', content, content, split]
    simp [more]
  · intro valid'
    have behind := valid'.shape.behind
    rw [chains'] at behind
    simp only [pointer] at behind
    rw [← List.drop_drop, List.drop_left, List.drop_one, List.tail_cons] at behind
    exact nonzero (behind last' (by simp))
  · intro malloc' readable howmuch readv few tight
    rw [List.map_cons, List.sum_cons] at tight
    have loop : expandLoop (Request.Evbuffer.readSize readable howmuch).toNat numReadIovec true 0 0
        (chain :: (mid ++ [last'])) = .error .assertion := by
      simp only [expandLoop, Bool.true_eq_false, and_false, if_false, Nat.zero_add]
      generalize moved : (if chain.off = 0 then chain.rewind else chain) = chain'
      have space : chain'.spaceLen = expandable chain := by rw [expandable, moved]
      generalize counted : (if chain'.off = 0 ∨ chain'.spaceLen ≠ 0 then 1 else 0) = used
      have one : used ≤ 1 := by
        split at counted <;> omega
      rw [space, if_neg (by omega), if_neg (by unfold numReadIovec; omega),
        expandLoop_stuck rest nonzero (by omega) (by omega)]
      rfl
    rw [chains', read]
    simp only [thawed, Bool.false_eq_true, if_false]
    rw [expandFast, if_neg (by decide)]
    simp only [pointer, List.drop_left, loop, List.append_eq_nil_iff, List.cons_ne_nil, and_false,
      if_false]
    rfl

/-- One full chain with an empty one behind it. -/
theorem add_unsettled_full :
    let full : EvbufferChain := ⟨[7], 0, 1, by decide, by decide⟩
    let last : EvbufferChain := ⟨[0, 0], 0, 0, by decide, by decide⟩
    ∃ buf, (⟨[full, last], 0, 1, false, false⟩ : Evbuffer).add zeroed [8] = .ok (0, buf) ∧
      buf.content = [7, 8] ∧ ¬ buf.Valid ∧
      ∀ malloc readv, buf.read malloc 1 (-1) readv = .error .assertion := by
  intro full last
  have valid : (⟨[full, last], 0, 1, false, false⟩ : Evbuffer).Valid :=
    ⟨rfl, .linked [] (by simp) (by decide)⟩
  obtain ⟨buf, added, content, broken, fails⟩ := add_unsettled valid rfl
    (show [full, last] = [] ++ full :: ([] ++ [last]) from rfl) rfl zeroed
    (show ([8] : Bytes) ≠ [] by decide) (by decide) (by decide)
  exact ⟨buf, added, content, broken, fun malloc readv =>
    fails malloc 1 (-1) readv (by decide) (by decide)⟩

end Evbuffer

end JiaTuanServer.Libevent

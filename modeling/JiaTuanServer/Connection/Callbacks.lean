import JiaTuanServer.Connection.Client

/-!
# From the input to the output

`buffered_on_read` with the evbuffers it works on: it fails as `bufferedOnRead` fails on the bytes
in the input buffer, or empties that buffer and hands the reply on to the output, all of it or, when
`evbuffer_add` fails, nothing (`onRead_cases`).
-/

namespace JiaTuanServer.Connection

open Request (Bytes Mysql World Jsoncpp)
open Libevent (Evbuffer Malloc)
open Libevent.Evbuffer (Holds)
open Server (Callback)

variable {σ : Type} {mysql : Mysql σ} {jsoncpp : Jsoncpp} {c : Client σ}

section Calls

variable {α β : Type} (a : α) (f : α → Except Crash β)

theorem libevent_ok_bind : (libevent (.ok a) >>= f) = f a := rfl

theorem handler_ok_bind : (handler (.ok a) >>= f) = f a := rfl

theorem handler_error_bind (fault : Request.Fault) :
    (handler (.error fault) >>= f) = .error (.handler fault) := rfl

end Calls

/-- The array after `evbuffer_remove`, and the emptied buffer. -/
theorem remove_input {input : Evbuffer} (valid : input.Valid) (thawed : input.freezeStart = false)
    (short : input.content.length ≤ Request.bufMaxSize) :
    ∃ n input', input.remove (List.replicate Request.bufMaxSize 0)
        (BitVec.ofInt 64 (BitVec.ofNat 32 input.totalLen).toInt).toNat =
          .ok (n, input.content ++
            List.replicate (Request.bufMaxSize - input.content.length) 0, input') ∧
      Holds input input' [] := by
  have total := valid.total
  have small : input.content.length ≤ 4096 := short
  have nbytes :
      (BitVec.ofInt 64 (BitVec.ofNat 32 input.totalLen).toInt).toNat = input.totalLen := by
    have int : (BitVec.ofNat 32 input.totalLen).toInt = input.totalLen := by
      rw [BitVec.toInt_ofNat', Int.bmod_eq_of_le (by omega) (by omega)]
    rw [int, BitVec.toNat_ofInt]
    omega
  have room : min input.totalLen input.totalLen ≤
      (List.replicate Request.bufMaxSize (0 : UInt8)).length := by
    rw [List.length_replicate, Nat.min_self, total]
    exact short
  obtain ⟨input', run, holds, -⟩ := Libevent.Evbuffer.remove_ok valid thawed room
  have all : input.content.take input.totalLen = input.content := by
    rw [total, List.take_length]
  have none : input.content.drop input.totalLen = [] := by rw [total, List.drop_length]
  have array : Memory.store (List.replicate Request.bufMaxSize 0) 0 input.content =
      input.content ++ List.replicate (Request.bufMaxSize - input.content.length) 0 := by
    rw [Memory.store, List.take_zero, List.nil_append, List.drop_replicate, Nat.zero_add]
  rw [all, array] at run
  rw [none] at holds
  rw [nbytes]
  exact ⟨_, input', run, holds⟩

/-- The text is what `receive` makes of the bytes. -/
theorem stringOf_eq {chunk : Bytes} (short : chunk.length ≤ Request.bufMaxSize) :
    Request.stringOf (chunk ++ List.replicate (Request.bufMaxSize - chunk.length) 0) =
      Request.receive chunk := by
  rw [Request.receive, if_neg (by omega)]
  rfl

namespace Client

/-- What a callback for received bytes needs of the buffers. -/
structure Ready (c : Client σ) : Prop where
  input : c.input.Valid
  inputStart : c.input.freezeStart = false
  buffer : c.outputBuffer.Valid
  bufferSettled : c.outputBuffer.Settled
  bufferEmpty : c.outputBuffer.content = []
  bufferStart : c.outputBuffer.freezeStart = false
  output : c.output.Valid
  outputSettled : c.output.Settled
  outputEnd : c.output.freezeEnd = false

/-- Only the buffers count. -/
theorem Ready.of_same {c' : Client σ} (ready : c.Ready) (input : c'.input = c.input)
    (buffer : c'.outputBuffer = c.outputBuffer) (output : c'.output = c.output) : c'.Ready := by
  cases c
  cases c'
  cases input
  cases buffer
  cases output
  exact ⟨ready.1, ready.2, ready.3, ready.4, ready.5, ready.6, ready.7, ready.8, ready.9⟩

/-- Handing over the client's output buffer. -/
theorem writeBuffer_ok (output : c.output.Valid) (outputSettled : c.output.Settled)
    (outputEnd : c.output.freezeEnd = false) (buffer : c.outputBuffer.Valid)
    (settled : c.outputBuffer.Settled) (start : c.outputBuffer.freezeStart = false) :
    ∃ output' rest, c.writeBuffer = .ok (true,
        { c with
          output := output'
          outputBuffer := rest
          writeAdded := c.writeAdded || (c.writeEnabled && c.outputBuffer.totalLen != 0) }) ∧
      Holds c.output output' (c.output.content ++ c.outputBuffer.content) ∧
      Holds c.outputBuffer rest [] ∧ output'.Settled ∧ rest.Settled := by
  obtain ⟨n, output', rest, run, ⟨rfl, holds, empty, keeps⟩ | ⟨-, -, -, frozen | frozen⟩⟩ :=
    Libevent.Evbuffer.addBuffer_ok output buffer
  · refine ⟨output', rest, ?_, holds, empty, keeps outputSettled settled⟩
    simp only [writeBuffer, run]
    rfl
  · rw [outputEnd] at frozen
    cases frozen
  · rw [start] at frozen
    cases frozen

/-- Adding the reply: it is in the buffer, or the buffer stays empty. -/
theorem add_reply (ready : c.Ready) (malloc : Malloc) (reply : Bytes) :
    ∃ res buf, c.outputBuffer.add malloc reply = .ok (res, buf) ∧
      Holds c.outputBuffer buf (Request.queued (res = 0) reply).flatten ∧ buf.Settled := by
  obtain ⟨res, buf, run, ⟨rfl, -, holds, settled⟩ | ⟨rfl, rfl, -⟩⟩ :=
    Libevent.Evbuffer.add_ok ready.buffer ready.bufferSettled malloc reply
  · refine ⟨0, buf, run, ?_, settled⟩
    rw [ready.bufferEmpty] at holds
    simpa [Request.queued] using holds
  · refine ⟨-1, _, run, ?_, ready.bufferSettled⟩
    have same := ready.buffer.holds
    rw [ready.bufferEmpty] at same
    exact same

/-- After the callback: the input is empty, and the reply is behind the output, or nowhere. -/
structure Replied (c c' : Client σ) (added : Bool) (reply : Bytes) : Prop where
  ready : c'.Ready
  input : Holds c.input c'.input []
  output : Holds c.output c'.output (c.output.content ++ (Request.queued added reply).flatten)
  replies : c'.world.replies = c.world.replies ++ Request.queued added reply
  readAdded : c'.readAdded = c.readAdded
  writeAdded : c'.writeAdded =
    (c.writeAdded || (c.writeEnabled && (Request.queued added reply).flatten.length != 0))
  writeEnabled : c'.writeEnabled = c.writeEnabled
  chunks : c'.chunks = c.chunks
  added : c'.added = c.added ++ [added]
  sent : c'.sent = c.sent

variable (mysql jsoncpp) in
/-- The callback does what `bufferedOnRead` does with the bytes in the input buffer: it fails as
that does, or adds the reply of that to the output. -/
theorem onRead_cases (ready : c.Ready) (short : c.input.content.length ≤ Request.bufMaxSize)
    (malloc : Malloc) :
    (∃ fault, c.onRead mysql jsoncpp malloc = .error (.handler fault) ∧
      ∀ added, (Request.bufferedOnRead mysql jsoncpp added c.input.content).run c.world =
        .error fault) ∨
    ∃ c' added reply, c.onRead mysql jsoncpp malloc = .ok (c', .onRead true) ∧
      (Request.bufferedOnRead mysql jsoncpp added c.input.content).run c.world =
        .ok ((), c'.world) ∧
      c.Replied c' added reply := by
  obtain ⟨n, input, taken, emptied⟩ := remove_input ready.input ready.inputStart short
  cases received : Request.receive c.input.content with
  | error fault =>
    refine .inl ⟨fault, ?_, fun added => ?_⟩
    · simp only [onRead, taken, libevent_ok_bind, stringOf_eq short, received,
        handler_error_bind]
    · rw [Request.bufferedOnRead, received]
      rfl
  | ok sdata =>
    have same (added : Bool) :
        Request.bufferedOnRead mysql jsoncpp added c.input.content = _ :=
      Request.bufferedOnRead_eq received
    cases served : (Request.serve mysql (Request.meaning (jsoncpp.parse sdata))).run c.world with
    | error fault =>
      refine .inl ⟨fault, ?_, fun added => ?_⟩
      · simp only [onRead, taken, libevent_ok_bind, stringOf_eq short, received, handler_ok_bind,
          Request.respond_eq, served, handler_error_bind]
      · rw [same, StateT.run_bind, served]
        rfl
    | ok result =>
      obtain ⟨item, world⟩ := result
      have silent := Request.serve_silent _ _ _ _ served
      obtain ⟨res, buf, adds, holds, settled⟩ :=
        add_reply ready malloc (item.write jsoncpp.doubleToString)
      let reply := item.write jsoncpp.doubleToString
      let logged : World σ :=
        { world with replies := world.replies ++ Request.queued (res = 0) reply }
      obtain ⟨output, rest, moved, more, empty, settled', settled''⟩ :=
        writeBuffer_ok (c := { c with
            input := input
            outputBuffer := buf
            world := logged
            added := c.added ++ [decide (res = 0)] })
          ready.output ready.outputSettled ready.outputEnd holds.valid settled
          (holds.freezeStart.trans ready.bufferStart)
      let after : Client σ :=
        { c with
          input := input
          output := output
          outputBuffer := rest
          writeAdded := c.writeAdded || (c.writeEnabled && buf.totalLen != 0)
          world := logged
          added := c.added ++ [decide (res = 0)] }
      refine .inr ⟨after, decide (res = 0), reply, ?_, ?_, ?_⟩
      · have adding : (Request.addReply (decide (res = 0)) reply).run world = .ok ((), logged) :=
          rfl
        simp only [onRead, taken, libevent_ok_bind, stringOf_eq short, received, handler_ok_bind,
          Request.respond_eq, served, adds]
        change (handler ((Request.addReply (decide (res = 0)) reply).run world) >>= _) = _
        rw [adding, handler_ok_bind, moved]
        rfl
      · rw [same, StateT.run_bind, served]
        rfl
      · have buffered : buf.totalLen = (Request.queued (res = 0) reply).flatten.length := by
          rw [holds.valid.total, holds.content]
        constructor
        · exact
            { input := emptied.valid
              inputStart := emptied.freezeStart.trans ready.inputStart
              buffer := empty.valid
              bufferSettled := settled''
              bufferEmpty := empty.content
              bufferStart :=
                empty.freezeStart.trans (holds.freezeStart.trans ready.bufferStart)
              output := more.valid
              outputSettled := settled'
              outputEnd := more.freezeEnd.trans ready.outputEnd }
        · exact emptied
        · rw [← holds.content]
          exact more
        · change world.replies ++ _ = _
          rw [silent]
        · rfl
        · rw [← buffered]
        · rfl
        · rfl
        · rfl
        · rfl

end Client

end JiaTuanServer.Connection

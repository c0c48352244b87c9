import JiaTuanServer.Connection.Callbacks

/-!
# What reaches the socket

A connection under the events of its loop, in any order and with anything that the allocator and
the kernel answer: between callbacks the input is empty, and what the socket has taken and what
waits in the output are the replies added, each whole and in order (`replies_reach_socket`). The
input is that of the buffer that knows no memory blocks (`reads_refine_receiving`). Each callback is
one that the event loops allow of the bufferevent that counts bytes (`callbacks_refine_counts`), so
what holds of every run of the loops holds with the bytes as well.
-/

namespace JiaTuanServer.Connection

open Transition
open Request (Bytes Mysql World Jsoncpp SocketRead receivingMachine working)
open Json (withoutReals)
open Libevent (Evbuffer)
open Server (BufEv Side Event Callback)

variable {σ : Type} {mysql : Mysql σ} {jsoncpp : Jsoncpp} {c : Client σ}

/-! ## Every reachable state -/

theorem serveChunks_concat (chunks : List Request.Chunk) (chunk : Request.Chunk) :
    Request.serveChunks mysql jsoncpp (chunks ++ [chunk]) =
      Request.serveChunks mysql jsoncpp chunks >>= fun _ =>
        Request.bufferedOnRead mysql jsoncpp chunk.added chunk.bytes := by
  induction chunks with
  | nil => simp [Request.serveChunks]
  | cons first rest ih => simp [Request.serveChunks, ih]

/-- One callback more. -/
theorem Client.callbacks_concat {c' : Client σ} {chunk : Bytes} {added : Bool}
    (same : c.added.length = c.chunks.length) (chunks : c'.chunks = c.chunks ++ [chunk])
    (adds : c'.added = c.added ++ [added]) : c'.callbacks = c.callbacks ++ [⟨chunk, added⟩] := by
  rw [callbacks, chunks, adds, List.zipWith_append same.symm]
  rfl

variable (mysql jsoncpp) in
/-- Between callbacks: the world is what the chunks have made of it, and what the socket has taken
and what waits in the output are the replies added, each whole and in order. -/
structure Sound (lib : σ) (c : Client σ) : Prop where
  ready : c.Ready
  inputEmpty : c.input.content = []
  short : ∀ chunk ∈ c.chunks, chunk ≠ [] ∧ chunk.length ≤ 4096
  received : ∃ tr, receivingMachine.Run ⟨.empty, none⟩ tr ⟨.empty, none⟩ ∧
    tr.map (fun x => x.2.bytes) = c.chunks
  each : c.added.length = c.chunks.length
  served : (Request.serveChunks mysql jsoncpp c.callbacks).run ⟨lib, [], []⟩ = .ok ((), c.world)
  replies : c.sent ++ c.output.content = c.world.replies.flatten
  pending : c.output.content ≠ [] → c.writeEnabled = true → c.writeAdded = true

variable {lib : σ}

theorem receive_of_handled {added : Bool} {input : Bytes} {w w' : World σ}
    (run : (Request.bufferedOnRead mysql jsoncpp added input).run w = .ok ((), w')) :
    ∃ sdata, Request.receive input = .ok sdata := by
  cases received : Request.receive input with
  | ok sdata => exact ⟨sdata, rfl⟩
  | error fault =>
    rw [Request.bufferedOnRead, received] at run
    cases run

/-- A read whose bytes are a text is a step of the buffer that knows no chains. -/
theorem received_step {r : SocketRead} {sdata : Bytes} (pos : 1 ≤ r.bytes.length)
    (limit : r.bytes.length ≤ Request.Evbuffer.readSize r.readable r.howmuch)
    (received : Request.receive r.bytes = .ok sdata) :
    receivingMachine.step ⟨.empty, none⟩ r = some ⟨.empty, none⟩ := by
  have atMost : (r.bytes.length : ℤ) ≤ Request.Evbuffer.evbufferMaxRead :=
    (Request.Evbuffer.readSize_iff r.bytes.length).mp ⟨_, _, limit⟩
  unfold Request.Evbuffer.evbufferMaxRead at atMost
  rw [Request.receiving_taken rfl pos limit, Request.takeInput_read pos (by omega), received]
  rfl

theorem Sound.new : Sound mysql jsoncpp lib (.new lib) where
  ready :=
    { input := ⟨rfl, .none⟩
      inputStart := rfl
      buffer := Libevent.Evbuffer.valid_new
      bufferSettled := Nat.zero_le _
      bufferEmpty := rfl
      bufferStart := rfl
      output := ⟨rfl, .none⟩
      outputSettled := Nat.zero_le _
      outputEnd := rfl }
  inputEmpty := rfl
  short := fun _ mem => absurd mem List.not_mem_nil
  received := ⟨[], .nil _, rfl⟩
  each := rfl
  served := rfl
  replies := rfl
  pending := fun more => absurd rfl more

/-- The step is one that `BufEv.handle` makes of the event. -/
def Client.Counted (c : Client σ) (e : Event) (c' : Client σ) (callback : Option Callback) : Prop :=
  ∀ fd active, ∃ out active', BufEv.handle (c.toBufEv fd active) e out =
    some (c'.toBufEv fd active', callback)

namespace Sound

theorem disable (sound : Sound mysql jsoncpp lib c) (side : Side) :
    Sound mysql jsoncpp lib (c.disable side) where
  ready := sound.ready.of_same rfl rfl rfl
  inputEmpty := sound.inputEmpty
  short := sound.short
  received := sound.received
  each := sound.each
  served := sound.served
  replies := sound.replies
  pending := by
    intro more enabled
    cases side with
    | read =>
      have added := sound.pending more (by simpa [Client.disable] using enabled)
      simp [Client.disable, Client.del, added]
    | write => simp [Client.disable] at enabled

/-- `event_del` of the write event when nothing is left to write. -/
theorem delIdle (sound : Sound mysql jsoncpp lib c) :
    Sound mysql jsoncpp lib (if c.output.totalLen = 0 then c.del .write else c) := by
  split
  · rename_i zero
    rw [sound.ready.output.totalLen_eq_zero_iff] at zero
    exact
      { ready := sound.ready.of_same rfl rfl rfl
        inputEmpty := sound.inputEmpty
        short := sound.short
        received := sound.received
        each := sound.each
        served := sound.served
        replies := sound.replies
        pending := fun more => absurd zero more }
  · exact sound

/-- The write callback goes through. -/
theorem writecb (sound : Sound mysql jsoncpp lib c) (timeout : Bool) (env : Environment) :
    ∃ c' callback, c.writecb timeout env = .ok (c', callback) ∧
      Sound mysql jsoncpp lib c' ∧ c.Counted ⟨.write, timeout⟩ c' callback := by
  unfold Client.writecb
  rcases timeout.eq_false_or_eq_true with rfl | rfl
  · exact ⟨_, _, rfl, sound.disable .write, fun _ _ => ⟨.retry, _, rfl⟩⟩
  simp only [Bool.false_eq_true, if_false]
  split
  · rename_i zero
    refine ⟨_, _, rfl, ?_, fun fd active => ⟨.retry, _, (if_pos zero).trans rfl⟩⟩
    have idle := sound.delIdle
    rwa [if_pos zero] at idle
  rename_i some
  have more : c.output.content ≠ [] := fun none => some
    (sound.ready.output.totalLen_eq_zero_iff.mpr none)
  have thawed : (c.output.setFreeze true false).Valid :=
    (Libevent.Evbuffer.setFreeze_holds sound.ready.output true false).1
  obtain ⟨n, bytes, output, run, fits, -, taken, holds, keeps⟩ :=
    Libevent.Evbuffer.writeAtmost_ok thawed rfl env.writev maxToReadEver
  have frozen := Libevent.Evbuffer.setFreeze_holds holds.valid true true
  have content : (output.setFreeze true true).content = c.output.content.drop n.toNat :=
    frozen.2.trans holds.content
  have wrote : Sound mysql jsoncpp lib
      { c with output := output.setFreeze true true, sent := c.sent ++ bytes } :=
    { ready :=
        { input := sound.ready.input
          inputStart := sound.ready.inputStart
          buffer := sound.ready.buffer
          bufferSettled := sound.ready.bufferSettled
          bufferEmpty := sound.ready.bufferEmpty
          bufferStart := sound.ready.bufferStart
          output := frozen.1
          outputSettled := keeps sound.ready.outputSettled
          outputEnd := holds.freezeEnd.trans sound.ready.outputEnd }
      inputEmpty := sound.inputEmpty
      short := sound.short
      received := sound.received
      each := sound.each
      served := sound.served
      replies := by
        change c.sent ++ bytes ++ (output.setFreeze true true).content = _
        have whole : (c.output.setFreeze true false).content = c.output.content := rfl
        rw [content, taken, whole, List.append_assoc, List.take_append_drop, sound.replies]
      pending := fun _ => sound.pending more }
  have left : (output.setFreeze true true).totalLen = c.output.totalLen - n.toNat := by
    rw [frozen.1.total, content, List.length_drop, sound.ready.output.total]
  simp only [run, libevent_ok_bind]
  split
  · rename_i retry
    refine ⟨_, _, rfl, wrote.delIdle, fun fd active => ⟨.retry, active, ?_⟩⟩
    have same : (output.setFreeze true true).totalLen = c.output.totalLen := by
      rw [left, retry.1]
      rfl
    refine (if_neg some).trans ?_
    rw [same, if_neg some]
    simp only [Client.toBufEv, same]
  split
  · rename_i nonpos
    refine ⟨_, _, rfl, wrote.disable .write, fun fd active =>
      ⟨.failed, active.filter fun e => e.side != .write, ?_⟩⟩
    have same : (output.setFreeze true true).totalLen = c.output.totalLen := by
      rw [left, Int.toNat_of_nonpos nonpos]
      rfl
    refine (if_neg some).trans ?_
    simp only [Client.toBufEv, BufEv.disable, BufEv.del, Client.disable, Client.del, same]
  · rename_i pos
    have bound : 0 < n.toNat ∧ n.toNat ≤ c.output.totalLen := by
      rw [sound.ready.output.total]
      exact ⟨by omega, fits⟩
    refine ⟨_, _, rfl, wrote.delIdle, fun fd active => ?_⟩
    by_cases all : c.output.totalLen - n.toNat = 0
    · refine ⟨.sent n.toNat, active.filter fun e => e.side != .write,
        (if_neg some).trans ((if_pos bound).trans ?_)⟩
      simp only [Client.toBufEv, Client.del, BufEv.del, left, all, if_true]
    · refine ⟨.sent n.toNat, active, (if_neg some).trans ((if_pos bound).trans ?_)⟩
      simp only [Client.toBufEv, left, all, if_false]

/-- `evbuffer_read` into the input: it then holds what came, and that is no more than the buffer
without memory blocks takes. -/
theorem read (sound : Sound mysql jsoncpp lib c) (env : Environment) :
    ∃ res bytes input, (c.input.setFreeze false false).read env.malloc env.readable maxToReadEver
        env.readv = .ok (res, bytes, input) ∧
      Client.Ready { c with input := input.setFreeze false true } ∧
      (input.setFreeze false true).content = bytes ∧ bytes.length ≤ 4096 ∧
      (res ≤ 0 ↔ bytes = []) ∧
      (bytes ≠ [] → ∃ r : SocketRead, r.bytes = bytes ∧
        (r.bytes.length : ℤ) ≤ Request.Evbuffer.readSize r.readable r.howmuch) := by
  have thawed : (c.input.setFreeze false false).Valid :=
    (Libevent.Evbuffer.setFreeze_holds sound.ready.input false false).1
  obtain ⟨res, bytes, input, run, holds, result⟩ :=
    Libevent.Evbuffer.read_ok thawed rfl env.malloc env.readable maxToReadEver env.readv
  have frozen := Libevent.Evbuffer.setFreeze_holds holds.valid false true
  have content : (input.setFreeze false true).content = bytes := by
    have before : (c.input.setFreeze false false).content = [] := sound.inputEmpty
    rw [frozen.2, holds.content, before, List.nil_append]
  have ready : Client.Ready { c with input := input.setFreeze false true } :=
    { input := frozen.1
      inputStart := holds.freezeStart.trans sound.ready.inputStart
      buffer := sound.ready.buffer
      bufferSettled := sound.ready.bufferSettled
      bufferEmpty := sound.ready.bufferEmpty
      bufferStart := sound.ready.bufferStart
      output := sound.ready.output
      outputSettled := sound.ready.outputSettled
      outputEnd := sound.ready.outputEnd }
  refine ⟨res, bytes, input, run, ready, content, ?_⟩
  rcases result with ⟨vecs, sum, got, rfl⟩ | ⟨rfl, rfl, -⟩
  · have le := env.readv.bounded vecs bytes got
    have size : Request.Evbuffer.readSize env.readable maxToReadEver ≤ 4096 := by
      unfold Request.Evbuffer.readSize Request.Evbuffer.evbufferMaxRead maxToReadEver
      grind
    have nonneg : (bytes.length : ℤ) ≤ 0 ↔ bytes = [] := by
      rw [← List.length_eq_zero_iff]
      omega
    refine ⟨by omega, nonneg, fun some => ?_⟩
    have pos := List.length_pos_iff.mpr some
    refine ⟨⟨env.readable, maxToReadEver, vecs, bytes, le⟩, rfl, ?_⟩
    dsimp only
    omega
  · simp

/-- `onRead_cases` on what a read has brought. -/
theorem onRead_arrived {input : Evbuffer} {bytes : Bytes}
    (ready : Client.Ready { c with input := input }) (content : input.content = bytes)
    (bound : bytes.length ≤ 4096) (env : Environment) :
    let got : Client σ := { c with input := input, chunks := c.chunks ++ [bytes] }
    (∃ fault, got.onRead mysql jsoncpp env.mallocReply = .error (.handler fault) ∧
      ∀ added, (Request.bufferedOnRead mysql jsoncpp added bytes).run c.world = .error fault) ∨
    ∃ c' added reply, got.onRead mysql jsoncpp env.mallocReply = .ok (c', .onRead true) ∧
      (Request.bufferedOnRead mysql jsoncpp added bytes).run c.world = .ok ((), c'.world) ∧
      got.Replied c' added reply := by
  intro got
  have ready' : got.Ready := ready.of_same rfl rfl rfl
  have text : got.input.content = bytes := content
  have short : got.input.content.length ≤ Request.bufMaxSize := by
    rw [text]
    exact bound
  have cases := Client.onRead_cases mysql jsoncpp ready' short env.mallocReply
  rwa [text] at cases

/-- The invariant after a callback that has added its reply, or failed to. -/
theorem replied (sound : Sound mysql jsoncpp lib c) {c' : Client σ} {input : Evbuffer}
    {bytes reply : Bytes} {added : Bool} (nonempty : bytes ≠ []) (bound : bytes.length ≤ 4096)
    (reads : ∃ r : SocketRead, r.bytes = bytes ∧
      (r.bytes.length : ℤ) ≤ Request.Evbuffer.readSize r.readable r.howmuch)
    (serves : (Request.bufferedOnRead mysql jsoncpp added bytes).run c.world = .ok ((), c'.world))
    (replied : Client.Replied { c with input := input, chunks := c.chunks ++ [bytes] } c' added
      reply) : Sound mysql jsoncpp lib c' where
  ready := replied.ready
  inputEmpty := replied.input.content
  short := by
    rw [replied.chunks]
    intro chunk mem
    rcases List.mem_append.mp mem with mem | mem
    · exact sound.short chunk mem
    · rw [List.mem_singleton.mp mem]
      exact ⟨nonempty, bound⟩
  received := by
    obtain ⟨tr, received, same⟩ := sound.received
    obtain ⟨r, rfl, limit⟩ := reads
    obtain ⟨sdata, isText⟩ := receive_of_handled serves
    have pos : 1 ≤ r.bytes.length := List.length_pos_iff.mpr nonempty
    refine ⟨tr ++ [(_, r)], .snoc received (received_step pos limit isText), ?_⟩
    rw [List.map_append, same, replied.chunks]
    rfl
  each := by
    rw [replied.added, replied.chunks, List.length_append, List.length_append]
    exact congrArg (· + 1) sound.each
  served := by
    rw [Client.callbacks_concat sound.each replied.chunks replied.added, serveChunks_concat,
      StateT.run_bind, sound.served]
    exact serves
  replies := by
    rw [replied.sent, replied.output.content, ← List.append_assoc, replied.replies,
      List.flatten_append]
    exact congrArg (· ++ (Request.queued added reply).flatten) sound.replies
  pending := by
    intro waits enabled
    rw [replied.writeEnabled] at enabled
    rw [replied.writeAdded]
    by_cases nothing : (Request.queued added reply).flatten = []
    · rw [replied.output.content, nothing, List.append_nil] at waits
      have already : c.writeAdded = true := sound.pending waits enabled
      rw [already, Bool.true_or]
    · have some : ((Request.queued added reply).flatten.length != 0) = true := by
        rwa [bne_iff_ne, ne_eq, List.length_eq_zero_iff]
      rw [enabled, some, Bool.true_and, Bool.or_true]

/-- The read callback goes through, or fails as `bufferedOnRead` does on what was read. -/
theorem readcb (sound : Sound mysql jsoncpp lib c) (timeout : Bool) (env : Environment) :
    (∃ c' callback, c.readcb mysql jsoncpp timeout env = .ok (c', callback) ∧
      Sound mysql jsoncpp lib c' ∧ c.Counted ⟨.read, timeout⟩ c' callback) ∨
    ∃ fault chunk, c.readcb mysql jsoncpp timeout env = .error (.handler fault) ∧
      chunk.length ≤ 4096 ∧ ∀ added,
        (Request.serveChunks mysql jsoncpp (c.callbacks ++ [⟨chunk, added⟩])).run ⟨lib, [], []⟩ =
          .error fault := by
  unfold Client.readcb
  rcases timeout.eq_false_or_eq_true with rfl | rfl
  · exact .inl ⟨_, _, rfl, sound.disable .read, fun _ _ => ⟨.retry, _, rfl⟩⟩
  obtain ⟨res, bytes, input, run, ready, content, bound, nothing_iff, reads⟩ := sound.read env
  simp only [Bool.false_eq_true, if_false, run, libevent_ok_bind]
  have quiet (nothing : bytes = []) :
      Sound mysql jsoncpp lib { c with input := input.setFreeze false true } :=
    { ready := ready
      inputEmpty := content.trans nothing
      short := sound.short
      received := sound.received
      each := sound.each
      served := sound.served
      replies := sound.replies
      pending := sound.pending }
  split
  · rename_i retry
    exact .inl ⟨_, _, rfl, quiet (nothing_iff.mp (by omega)), fun _ _ => ⟨.retry, _, rfl⟩⟩
  split
  · rename_i nonpos
    exact .inl ⟨_, _, rfl, (quiet (nothing_iff.mp nonpos)).disable .read,
      fun _ _ => ⟨.failed, _, rfl⟩⟩
  rename_i pos
  have nonempty : bytes ≠ [] := fun nothing => pos (nothing_iff.mpr nothing)
  rcases onRead_arrived ready content bound env with
    ⟨fault, failed, fails⟩ | ⟨c', added, reply, answered, serves, adds⟩
  · refine .inr ⟨fault, bytes, ?_, bound, fun added => ?_⟩
    · rw [failed]
      rfl
    · rw [serveChunks_concat, StateT.run_bind, sound.served]
      exact fails added
  · let queued := (Request.queued added reply).flatten
    refine .inl ⟨c', some (.onRead true), ?_, sound.replied nonempty bound (reads nonempty) serves
      adds, fun fd active => ⟨.received queued.length true, active, ?_⟩⟩
    · rw [answered]
      rfl
    · have total : c'.output.totalLen = c.output.totalLen + queued.length := by
        rw [adds.ready.output.total, adds.output.content, List.length_append,
          sound.ready.output.total]
      simp only [Client.toBufEv, total, adds.readAdded, adds.writeAdded, adds.writeEnabled]
      rfl

end Sound

/-! ## Runs -/

/-- The callback of an event goes through, or fails as `bufferedOnRead` does on what was read. -/
theorem Sound.handle (sound : Sound mysql jsoncpp lib c) (e : Event) (env : Environment) :
    (∃ c' callback, c.handle mysql jsoncpp e env = .ok (c', callback) ∧
      Sound mysql jsoncpp lib c' ∧ c.Counted e c' callback) ∨
    ∃ fault chunk, c.handle mysql jsoncpp e env = .error (.handler fault) ∧
      chunk.length ≤ 4096 ∧ ∀ added,
        (Request.serveChunks mysql jsoncpp (c.callbacks ++ [⟨chunk, added⟩])).run ⟨lib, [], []⟩ =
          .error fault := by
  obtain ⟨side, timeout⟩ := e
  cases side with
  | read => exact sound.readcb timeout env
  | write => exact .inl (sound.writecb timeout env)

theorem Sound.step {c' : Client σ} {a : Event × Environment} (sound : Sound mysql jsoncpp lib c)
    (taken : (machine mysql jsoncpp lib).step c a = some c') : Sound mysql jsoncpp lib c' := by
  simp only [machine] at taken
  split at taken
  · rcases sound.handle a.1 a.2 with ⟨c₁, callback, handled, sound₁, -⟩ | ⟨fault, -, failed, -⟩
    · rw [handled] at taken
      cases taken
      exact sound₁
    · rw [failed] at taken
      cases taken
  · cases taken

/-- A connection under any events, whatever the allocator, the kernel, the database and the parser
answer: the database and the replies are what the reads make of them, chunk by chunk; what the
socket has taken followed by what waits in the output is the replies that `evbuffer_add` took, each
whole, once and in order; what waits is written as soon as the socket can take it; and the next
event goes through, or fails as the handler does on the chunk just read, and never inside
libevent. -/
theorem replies_reach_socket {tr : List (Client σ × (Event × Environment))}
    (run : (machine mysql jsoncpp lib).Run (.new lib) tr c) :
    (∀ chunk ∈ c.chunks, chunk ≠ [] ∧ chunk.length ≤ 4096) ∧
      c.added.length = c.chunks.length ∧
      (Request.serveChunks mysql jsoncpp c.callbacks).run ⟨lib, [], []⟩ = .ok ((), c.world) ∧
      c.sent ++ c.output.content = c.world.replies.flatten ∧
      (c.output.content ≠ [] → c.writeEnabled = true → c.writeAdded = true) ∧
      ∀ e env, (∃ c' callback, c.handle mysql jsoncpp e env = .ok (c', callback)) ∨
        ∃ fault chunk, c.handle mysql jsoncpp e env = .error (.handler fault) ∧
          chunk.length ≤ 4096 ∧ ∀ added,
            (Request.serveChunks mysql jsoncpp (c.callbacks ++ [⟨chunk, added⟩])).run
              ⟨lib, [], []⟩ = .error fault := by
  have sound : Sound mysql jsoncpp lib c :=
    run.always .new fun _ _ _ sound taken => sound.step taken
  refine ⟨sound.short, sound.each, sound.served, sound.replies, sound.pending, fun e env => ?_⟩
  rcases sound.handle e env with ⟨c', callback, handled, -⟩ | failed
  · exact .inl ⟨c', callback, handled⟩
  · exact .inr failed

/-- The input of a connection does what the buffer without memory blocks does: the reads so far are
a run of that, after which it is empty, as the input is; and a read on whose text it faults takes
the callback down with the same fault. -/
theorem reads_refine_receiving {tr : List (Client σ × (Event × Environment))}
    (run : (machine mysql jsoncpp lib).Run (.new lib) tr c) :
    c.input.content = [] ∧
      (∃ tr', receivingMachine.Run ⟨.empty, none⟩ tr' ⟨.empty, none⟩ ∧
        tr'.map (fun x => x.2.bytes) = c.chunks) ∧
      ∀ env res input (r : SocketRead) s fault,
        (c.input.setFreeze false false).read env.malloc env.readable maxToReadEver env.readv =
          .ok (res, r.bytes, input) →
        receivingMachine.step ⟨.empty, none⟩ r = some s → s.fault = some fault →
        c.handle mysql jsoncpp ⟨.read, false⟩ env = .error (.handler fault) := by
  have sound : Sound mysql jsoncpp lib c :=
    run.always .new fun _ _ _ sound taken => sound.step taken
  refine ⟨sound.inputEmpty, sound.received, fun env res input r s fault reads taken faulted => ?_⟩
  have failed : Request.receive r.bytes = .error fault := by
    obtain ⟨-, pos, limit, rfl⟩ := Request.receiving_step taken
    rw [Request.takeInput_read pos limit] at faulted
    cases received : Request.receive r.bytes with
    | ok sdata => simp [received, Except.map, Request.Receiving.afterCallback] at faulted
    | error fault' =>
      simp only [received, Except.map, Request.Receiving.afterCallback,
        Option.some.injEq] at faulted
      rw [faulted]
  have some : 1 ≤ r.bytes.length := (Request.receiving_step taken).2.1
  obtain ⟨_, _, _, run', ready, content, bound, nothing_iff, -⟩ := sound.read env
  cases reads.symm.trans run'
  have pos : ¬ res ≤ 0 := by
    rw [nothing_iff]
    rintro nothing
    rw [nothing] at some
    cases some
  change c.readcb mysql jsoncpp false env = _
  unfold Client.readcb
  simp only [Bool.false_eq_true, if_false, reads, libevent_ok_bind]
  rw [if_neg (by omega), if_neg pos]
  rcases Sound.onRead_arrived ready content bound env with
    ⟨fault', crashed, fails⟩ | ⟨c', added, reply, -, serves, -⟩
  · have same := fails true
    rw [Request.bufferedOnRead, failed] at same
    cases same
    rw [crashed]
    rfl
  · obtain ⟨sdata, received⟩ := receive_of_handled serves
    rw [failed] at received
    cases received

/-- Whatever a callback does with the bytes of a connection, the event loops allow it of the
bufferevent that counts them. -/
theorem callbacks_refine_counts {tr : List (Client σ × (Event × Environment))} {c' : Client σ}
    {e : Event} {env : Environment} {callback : Option Callback}
    (run : (machine mysql jsoncpp lib).Run (.new lib) tr c)
    (handled : c.handle mysql jsoncpp e env = .ok (c', callback)) (fd : ℕ) (active : List Event) :
    ∃ out active', BufEv.handle (c.toBufEv fd active) e out =
      some (c'.toBufEv fd active', callback) := by
  have sound : Sound mysql jsoncpp lib c :=
    run.always .new fun _ _ _ sound taken => sound.step taken
  rcases sound.handle e env with ⟨c₁, callback₁, same, -, counted⟩ | ⟨fault, -, failed, -⟩
  · rw [same] at handled
    cases handled
    exact counted fd active
  · rw [failed] at handled
    cases handled

/-- A socket with one byte to read, which takes one byte at a time. -/
def narrow : Environment where
  malloc := Libevent.zeroed
  mallocReply := Libevent.zeroed
  readable := 1
  readv :=
    { got := fun lengths => some ([0x78].take lengths.sum)
      bounded := by
        rintro lengths bytes ⟨⟩
        exact List.length_take_le _ _ }
  writev := Libevent.narrow
  retriable := false

theorem replies_reach_socket_oneByte :
    ∃ c, (machine (Mysql.fixed working) withoutReals ()).exec (.new ())
        [(⟨.read, false⟩, narrow), (⟨.write, false⟩, narrow)] = some c ∧
      c.output.content ≠ [] ∧ c.writeAdded = true ∧
      c.sent ++ c.output.content = c.world.replies.flatten := by
  have possible : ((machine (Mysql.fixed working) withoutReals ()).exec (.new ())
      [(⟨.read, false⟩, narrow), (⟨.write, false⟩, narrow)]).any (fun c =>
        c.output.content != [] && c.writeEnabled) = true := by decide +kernel
  cases ran : (machine (Mysql.fixed working) withoutReals ()).exec (.new ())
      [(⟨.read, false⟩, narrow), (⟨.write, false⟩, narrow)] with
  | none =>
    rw [ran] at possible
    cases possible
  | some c =>
    rw [ran] at possible
    obtain ⟨waits, enabled⟩ := Bool.and_eq_true_iff.mp possible
    obtain ⟨-, -, -, replies, pending, -⟩ := replies_reach_socket (Machine.run_of_exec ran)
    have more : c.output.content ≠ [] := bne_iff_ne.mp waits
    exact ⟨c, rfl, more, pending more enabled, replies⟩

theorem callbacks_refine_counts_oneByte :
    ∃ c' callback, Client.handle (Mysql.fixed working) withoutReals ⟨.read, false⟩ narrow
        (.new ()) = .ok (c', callback) ∧
      ∃ out active', BufEv.handle ((Client.new ()).toBufEv 5 []) ⟨.read, false⟩ out =
        some (c'.toBufEv 5 active', callback) := by
  have possible : (Client.handle (Mysql.fixed working) withoutReals ⟨.read, false⟩ narrow
      (.new ())).toOption.isSome = true := by decide +kernel
  cases handled : Client.handle (Mysql.fixed working) withoutReals ⟨.read, false⟩ narrow
      (.new ()) with
  | error crash =>
    rw [handled] at possible
    cases possible
  | ok result =>
    exact ⟨result.1, result.2, rfl, callbacks_refine_counts (.nil _) handled 5 []⟩

end JiaTuanServer.Connection

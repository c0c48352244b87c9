import JiaTuanServer.Libevent.Queues
import JiaTuanServer.Request.InputBuffer
import JiaTuanServer.Server.EventLoop

/-!
# A connection byte by byte

The bufferevent of a client with its two evbuffers, and the callbacks that move bytes: what a read
brings goes through the input buffer into `buffered_on_read`, its reply through the client's own
output buffer into that of the bufferevent, and from there to the socket.

`BufEv` of the event loops counts the bytes of the output only (`toBufEv`).
-/

namespace JiaTuanServer.Connection

open Transition
open Request (Bytes Mysql World Jsoncpp)
open Libevent (Evbuffer Malloc Readv Writev)
open Server (BufEv Side Event Outcome Callback)

/-- What ends the process inside a callback. -/
inductive Crash where
  | libevent (fault : Libevent.Fault)
  | handler (fault : Request.Fault)

def libevent {α : Type} (x : Except Libevent.Fault α) : Except Crash α := x.mapError .libevent

def handler {α : Type} (x : Except Request.Fault α) : Except Crash α := x.mapError .handler

/-- What the allocator and the kernel answer during a callback. -/
structure Environment where
  malloc : Malloc
  /-- The allocator when the reply is added. -/
  mallocReply : Malloc
  /-- What `get_n_bytes_readable_on_socket` returns. -/
  readable : ℤ
  readv : Readv
  writev : Writev
  /-- `EVUTIL_ERR_RW_RETRIABLE` of the error after a call that failed. -/
  retriable : Bool

/-- `MAX_TO_READ_EVER` and `MAX_TO_WRITE_EVER` -/
def maxToReadEver : ℤ := 16384

structure Client (σ : Type) where
  /-- `bufev->input` -/
  input : Evbuffer
  /-- `bufev->output` -/
  output : Evbuffer
  /-- `client->output_buffer` -/
  outputBuffer : Evbuffer
  readAdded : Bool
  writeAdded : Bool
  writeEnabled : Bool
  /-- libmysqlclient, its calls and the replies added. -/
  world : World σ
  /-- What the reads from the socket have brought. -/
  chunks : List Bytes
  /-- For each of them, whether `evbuffer_add` took its reply. -/
  added : List Bool
  /-- What the socket has taken. -/
  sent : Bytes

variable {σ : Type}

namespace Client

/-- The client when `on_accept` has enabled reading. -/
def new (lib : σ) : Client σ where
  input := Evbuffer.new.setFreeze false true
  output := Evbuffer.new.setFreeze true true
  outputBuffer := .new
  readAdded := true
  writeAdded := false
  writeEnabled := true
  world := ⟨lib, [], []⟩
  chunks := []
  added := []
  sent := []

/-- The callbacks of `buffered_on_read` so far. -/
def callbacks (c : Client σ) : List Request.Chunk := List.zipWith .mk c.chunks c.added

/-- `event_del` -/
def del (c : Client σ) (side : Side) : Client σ :=
  { c with
    readAdded := c.readAdded && side != .read
    writeAdded := c.writeAdded && side != .write }

/-- `bufferevent_disable` -/
def disable (c : Client σ) (side : Side) : Client σ :=
  { c.del side with writeEnabled := c.writeEnabled && side != .write }

/-- `bufferevent_write_buffer(bev, client->output_buffer)`: whether it succeeds. After bytes have
been added `bufferevent_socket_outbuf_cb` adds `ev_write`; `be_socket_add` is taken to succeed. -/
def writeBuffer (c : Client σ) : Except Libevent.Fault (Bool × Client σ) := do
  let (res, output, outputBuffer) ← Evbuffer.addBuffer c.output c.outputBuffer
  let added := if res = 0 then c.outputBuffer.totalLen else 0
  pure (res != -1,
    { c with
      output := output
      outputBuffer := outputBuffer
      writeAdded := c.writeAdded || (c.writeEnabled && added != 0) })

/-- What the event loops see of the client whose bufferevent has the number `fd`. -/
def toBufEv (c : Client σ) (fd : ℕ) (active : List Event) : BufEv where
  fd := fd
  readAdded := c.readAdded
  writeAdded := c.writeAdded
  writeEnabled := c.writeEnabled
  output := c.output.totalLen
  active := active

variable (mysql : Mysql σ) (jsoncpp : Jsoncpp)

/-- `buffered_on_read`; the result of `evbuffer_add` is not looked at. -/
def onRead (malloc : Malloc) (c : Client σ) : Except Crash (Client σ × Callback) := do
  let nbytes : ℤ := (BitVec.ofNat 32 c.input.totalLen).toInt
  let (_, data, input) ← libevent (c.input.remove (List.replicate Request.bufMaxSize 0)
    (BitVec.ofInt 64 nbytes).toNat)
  let sdata ← handler (Request.stringOf data)
  let (returnItem, world) ← handler ((Request.respond mysql (jsoncpp.parse sdata)).run c.world)
  let reply := returnItem.write jsoncpp.doubleToString
  let (res, outputBuffer) ← libevent (c.outputBuffer.add malloc reply)
  let (_, world) ← handler ((Request.addReply (res = 0) reply).run world)
  let (written, c) ← libevent
    ({ c with
        input := input
        outputBuffer := outputBuffer
        world := world
        added := c.added ++ [decide (res = 0)] } : Client σ).writeBuffer
  pure (c, .onRead written)

/-- `bufferevent_readcb`, with the callback that it makes. -/
def readcb (timeout : Bool) (env : Environment) (c : Client σ) :
    Except Crash (Client σ × Option Callback) :=
  if timeout then pure (c.disable .read, some .onError)
  else do
    let (res, bytes, input) ← libevent ((c.input.setFreeze false false).read env.malloc
      env.readable maxToReadEver env.readv)
    let c := { c with input := input.setFreeze false true }
    if res = -1 ∧ env.retriable = true then pure (c, none)
    else if res ≤ 0 then pure (c.disable .read, some .onError)
    else do
      let (c, callback) ←
        ({ c with chunks := c.chunks ++ [bytes] } : Client σ).onRead mysql jsoncpp env.mallocReply
      pure (c, some callback)

/-- `bufferevent_writecb`; `buffered_on_write` does nothing. -/
def writecb (timeout : Bool) (env : Environment) (c : Client σ) :
    Except Crash (Client σ × Option Callback) :=
  if timeout then pure (c.disable .write, some .onError)
  else if c.output.totalLen = 0 then pure (c.del .write, none)
  else do
    let (res, bytes, output) ← libevent ((c.output.setFreeze true false).writeAtmost env.writev
      maxToReadEver)
    let c := { c with output := output.setFreeze true true, sent := c.sent ++ bytes }
    if res = -1 ∧ env.retriable = true then
      pure (if c.output.totalLen = 0 then c.del .write else c, none)
    else if res ≤ 0 then pure (c.disable .write, some .onError)
    else pure (if c.output.totalLen = 0 then c.del .write else c, none)

/-- The callback of an event. -/
def handle (e : Event) (env : Environment) (c : Client σ) :
    Except Crash (Client σ × Option Callback) :=
  match e.side with
  | .read => c.readcb mysql jsoncpp e.timeout env
  | .write => c.writecb e.timeout env

def isAdded (c : Client σ) (e : Event) : Bool :=
  match e.side with
  | .read => c.readAdded
  | .write => c.writeAdded

end Client

variable (mysql : Mysql σ) (jsoncpp : Jsoncpp)

/-- A connection under the events of its loop. -/
def machine (lib : σ) : Machine (Client σ) (Event × Environment) where
  initial c := c = .new lib
  step c a :=
    if c.isAdded a.1 then
      match c.handle mysql jsoncpp a.1 a.2 with
      | .ok (c', _) => some c'
      | .error _ => none
    else none

end JiaTuanServer.Connection

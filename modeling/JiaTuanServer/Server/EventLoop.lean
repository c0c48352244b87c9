import JiaTuanServer.Server.InService

/-!
# The event loops of the workers

`event_base_dispatch` runs one client's bufferevent: it polls, which makes events active, and then
runs the active events one after the other. A bufferevent works on the number that
`bufferevent_new` was given, whatever that number denotes by then, and its read and write callbacks
call back into server_threaded.c. `loopMachine` is the server with these loops in place of the free
choice of callbacks.
-/

namespace JiaTuanServer.Server

open Transition Workqueue Machine

/-- `ev_read` and `ev_write` of a bufferevent. -/
inductive Side where
  | read
  | write
  deriving DecidableEq, Repr

/-- An active event; `timeout` is `event == EV_TIMEOUT`. -/
structure Event where
  side : Side
  timeout : Bool
  deriving DecidableEq, Repr

/-- `struct bufferevent`, as far as it decides what the loop does. -/
structure BufEv where
  /-- The number that both events are assigned to. -/
  fd : ℕ
  readAdded : Bool
  writeAdded : Bool
  /-- `EV_WRITE` is enabled, as `bufferevent_new` leaves it. -/
  writeEnabled : Bool
  /-- `evbuffer_get_length(bufev->output)` -/
  output : ℕ
  active : List Event
  deriving DecidableEq, Repr

/-- How the work of a callback on the socket ends. -/
inductive Outcome where
  /-- The call would block. -/
  | retry
  /-- An error or the end of the stream. -/
  | failed
  /-- Bytes were read; the reply has `reply` bytes, and `written` is whether
  `bufferevent_write_buffer` succeeds. -/
  | received (reply : ℕ) (written : Bool)
  | sent (bytes : ℕ)
  deriving DecidableEq, Repr

namespace BufEv

/-- `bufferevent_new(client_fd, …)` -/
def new (fd : ℕ) : BufEv :=
  { fd := fd, readAdded := false, writeAdded := false, writeEnabled := true, output := 0,
    active := [] }

/-- `event_add(&bufev->ev_read, …)` by `bufferevent_enable(bufev, EV_READ)`. -/
def enableRead (b : BufEv) : BufEv := { b with readAdded := true }

/-- `event_del`: the event is neither added nor active any more. -/
def del (b : BufEv) (side : Side) : BufEv :=
  { b with
    readAdded := b.readAdded && side != .read
    writeAdded := b.writeAdded && side != .write
    active := b.active.filter fun e => e.side != side }

/-- `bufferevent_disable(bufev, EV_READ)` or `bufferevent_disable(bufev, EV_WRITE)`. -/
def disable (b : BufEv) (side : Side) : BufEv :=
  { b.del side with writeEnabled := b.writeEnabled && side != .write }

/-- Bytes are added to the output, and `bufferevent_socket_outbuf_cb` adds `ev_write`. -/
def append (b : BufEv) (bytes : ℕ) : BufEv :=
  { b with
    output := b.output + bytes
    writeAdded := b.writeAdded || (b.writeEnabled && bytes != 0) }

/-- The event has been added. -/
def isAdded (b : BufEv) (e : Event) : Bool :=
  match e.side with
  | .read => b.readAdded
  | .write => b.writeAdded

/-- The event's callback reads from the socket or writes to it. -/
def UsesSocket (b : BufEv) (e : Event) : Prop :=
  e.timeout = false ∧ (e.side = .write → b.output ≠ 0)

instance (b : BufEv) (e : Event) : Decidable (b.UsesSocket e) :=
  inferInstanceAs (Decidable (_ ∧ (_ → _)))

/-- `bufferevent_readcb`, with the callback that it makes. -/
def readcb (b : BufEv) (timeout : Bool) (out : Outcome) : Option (BufEv × Option Callback) :=
  if timeout then some (b.disable .read, some .onError)
  else match out with
    | .retry => some (b, none)
    | .failed => some (b.disable .read, some .onError)
    | .received reply written =>
      some (if written then b.append reply else b, some (.onRead written))
    | .sent _ => none

/-- `bufferevent_writecb`; `buffered_on_write` does nothing. -/
def writecb (b : BufEv) (timeout : Bool) (out : Outcome) : Option (BufEv × Option Callback) :=
  if timeout then some (b.disable .write, some .onError)
  else if b.output = 0 then some (b.del .write, none)
  else match out with
    | .retry => some (b, none)
    | .failed => some (b.disable .write, some .onError)
    | .sent bytes =>
      if 0 < bytes ∧ bytes ≤ b.output then
        let b := { b with output := b.output - bytes }
        some (if b.output = 0 then b.del .write else b, none)
      else none
    | .received _ _ => none

/-- The callback of an event. -/
def handle (b : BufEv) (e : Event) (out : Outcome) : Option (BufEv × Option Callback) :=
  match e.side with
  | .read => b.readcb e.timeout out
  | .write => b.writecb e.timeout out

end BufEv

/-! ## The steps -/

variable {n : ℕ}

structure LoopState (n : ℕ) where
  server : State n
  bufEv : ℕ → BufEv

inductive LoopAction (n : ℕ) where
  /-- A step of the server outside the loops. -/
  | server (a : Action n)
  /-- The loop of worker `w` polls, and these events become active. -/
  | poll (w : Fin n) (events : List Event)
  /-- The loop of worker `w` runs the first active event. -/
  | run (w : Fin n) (out : Outcome)

/-- The connection in whose event loop worker `w` is. -/
def State.serving (s : State n) (w : Fin n) : Option ℕ :=
  match s.queue.pc w, s.job w with
  | .run _, .dispatch c => some c
  | _, _ => none

namespace LoopState

/-- Replace the bufferevent of connection `c`. -/
def setBufEv (s : LoopState n) (c : ℕ) (b : BufEv) : LoopState n :=
  { s with bufEv := Function.update s.bufEv c b }

/-- What `on_accept` does to bufferevents. -/
def onAccept (s : LoopState n) (ok : Bool) : LoopState n :=
  match s.server.accept with
  | .buffereventNew c fd => if ok then s.setBufEv c (.new fd) else s
  | .enable c => s.setBufEv c (s.bufEv c).enableRead
  | _ => s

/-- A callback that libevent makes inside the loop. -/
def callback (s : LoopState n) (w : Fin n) : Option Callback → Option (LoopState n)
  | none => some s
  | some cb => (step s.server (.callback w cb)).map fun u => { s with server := u }

/-- `event_base_dispatch` returns between two passes only. -/
def isBetweenPasses (s : LoopState n) (w : Fin n) : Bool :=
  match s.server.serving w with
  | some c => (s.bufEv c).active.isEmpty
  | none => true

/-- A step of the server outside the loops. -/
def serverStep (s : LoopState n) (a : Action n) : Option (LoopState n) :=
  match a with
  | .callback _ _ => none
  | .job w =>
    if s.isBetweenPasses w then (step s.server (.job w)).map fun u => { s with server := u }
    else none
  | .onAccept ok =>
    (step s.server (.onAccept ok)).map fun u => { s.onAccept ok with server := u }
  | a => (step s.server a).map fun u => { s with server := u }

/-- The loop of worker `w` polls for added events, each on one side or both. -/
def pollStep (s : LoopState n) (w : Fin n) (events : List Event) : Option (LoopState n) :=
  match s.server.serving w with
  | some c =>
    if (s.bufEv c).active = [] ∧ (events.map Event.side).Nodup ∧
        ∀ e ∈ events, (s.bufEv c).isAdded e = true then
      some (s.setBufEv c { s.bufEv c with active := events })
    else none
  | none => none

/-- The loop of worker `w` takes the first event off its list and runs it. -/
def runStep (s : LoopState n) (w : Fin n) (out : Outcome) : Option (LoopState n) :=
  match s.server.serving w with
  | some c => match (s.bufEv c).active with
    | e :: rest =>
      (BufEv.handle { s.bufEv c with active := rest } e out).bind fun (b, cb) =>
        (s.setBufEv c b).callback w cb
    | [] => none
  | none => none

end LoopState

def loopStep (s : LoopState n) : LoopAction n → Option (LoopState n)
  | .server a => s.serverStep a
  | .poll w events => s.pollStep w events
  | .run w out => s.runStep w out

variable (n) in
/-- The server with its event loops. -/
def loopMachine : Machine (LoopState n) (LoopAction n) where
  initial s := Initial s.server ∧ ∀ c, (s.bufEv c).active = []
  step := loopStep

/-- The initial state with all fields zero. -/
def loopStart : LoopState n := ⟨start, fun _ => .new 0⟩

theorem loopStart_initial : (loopMachine n).initial loopStart := ⟨start_initial, fun _ => rfl⟩

/-! ## What a step can do -/

/-- The steps of the server with its event loops. -/
inductive LoopStep (s : LoopState n) : LoopAction n → LoopState n → Prop where
  | server {a : Action n} {u : State n} (free : ∀ w cb, a ≠ .callback w cb)
      (accepts : ∀ ok, a ≠ .onAccept ok) (between : ∀ w, a = .job w → s.isBetweenPasses w = true)
      (taken : step s.server a = some u) : LoopStep s (.server a) { s with server := u }
  | onAccept {ok : Bool} {u : State n} (taken : step s.server (.onAccept ok) = some u) :
      LoopStep s (.server (.onAccept ok)) { s.onAccept ok with server := u }
  | poll {w : Fin n} {c : ℕ} {events : List Event} (serves : s.server.serving w = some c)
      (idle : (s.bufEv c).active = []) (sides : (events.map Event.side).Nodup)
      (added : ∀ e ∈ events, (s.bufEv c).isAdded e = true) :
      LoopStep s (.poll w events) (s.setBufEv c { s.bufEv c with active := events })
  | quiet {w : Fin n} {c : ℕ} {e : Event} {rest : List Event} {out : Outcome} {b : BufEv}
      (serves : s.server.serving w = some c) (first : (s.bufEv c).active = e :: rest)
      (handled : BufEv.handle { s.bufEv c with active := rest } e out = some (b, none)) :
      LoopStep s (.run w out) (s.setBufEv c b)
  | callback {w : Fin n} {c : ℕ} {e : Event} {rest : List Event} {out : Outcome} {b : BufEv}
      {cb : Callback} {u : State n} (serves : s.server.serving w = some c)
      (first : (s.bufEv c).active = e :: rest)
      (handled : BufEv.handle { s.bufEv c with active := rest } e out = some (b, some cb))
      (taken : step s.server (.callback w cb) = some u) :
      LoopStep s (.run w out) { s.setBufEv c b with server := u }

theorem loopStep_cases {s u : LoopState n} {a : LoopAction n} (h : loopStep s a = some u) :
    LoopStep s a u := by
  cases a with
  | server a =>
    simp only [loopStep, LoopState.serverStep] at h
    cases a with
    | callback w cb => cases h
    | onAccept ok =>
      obtain ⟨v, taken, rfl⟩ := Option.map_eq_some_iff.mp h
      exact .onAccept taken
    | job w =>
      simp only at h
      split at h
      · rename_i between
        obtain ⟨v, taken, rfl⟩ := Option.map_eq_some_iff.mp h
        refine .server (by simp) (by simp) (fun w' hw => ?_) taken
        cases hw
        exact between
      · cases h
    | queue b =>
      obtain ⟨v, taken, rfl⟩ := Option.map_eq_some_iff.mp h
      exact .server (by simp) (by simp) (by simp) taken
    | accept fd =>
      obtain ⟨v, taken, rfl⟩ := Option.map_eq_some_iff.mp h
      exact .server (by simp) (by simp) (by simp) taken
  | poll w events =>
    simp only [loopStep, LoopState.pollStep] at h
    split at h
    · split at h
      · rename_i serves ready
        cases h
        exact .poll serves ready.1 ready.2.1 ready.2.2
      · cases h
    · cases h
  | run w out =>
    simp only [loopStep, LoopState.runStep] at h
    split at h
    · rename_i c serves
      split at h
      · rename_i e rest first
        obtain ⟨⟨b, cb⟩, handled, h⟩ := Option.bind_eq_some_iff.mp h
        cases cb with
        | none => cases h; exact .quiet serves first handled
        | some cb =>
          obtain ⟨v, taken, rfl⟩ := Option.map_eq_some_iff.mp h
          exact .callback serves first handled taken
      · cases h
    · cases h

/-- Inside the server a step of the loops is a step of the server or none. -/
theorem LoopStep.server_step {s u : LoopState n} {a : LoopAction n} (st : LoopStep s a u) :
    u.server = s.server ∨ ∃ a', step s.server a' = some u.server := by
  cases st with
  | server free accepts between taken => exact .inr ⟨_, taken⟩
  | onAccept taken => exact .inr ⟨_, taken⟩
  | poll serves idle sides added => exact .inl rfl
  | quiet serves first handled => exact .inl rfl
  | callback serves first handled taken => exact .inr ⟨_, taken⟩

end JiaTuanServer.Server

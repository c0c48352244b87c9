import JiaTuanServer.Server.Memory
import JiaTuanServer.Workqueue.Machine

/-!
# The threads of server_threaded.c

The accept thread runs `on_accept`, the workers of the queue run `server_job_function`, and the
queue itself is the machine of `workqueue.c`: a job is named after its connection, and whenever the
queue reads or writes a job, its block has to be in use. libevent and the kernel choose: which
number `accept` returns, which calls fail, which callbacks run inside `event_base_dispatch` and
when it returns.

A step that faults records the fault, and nothing runs after it.
-/

namespace JiaTuanServer.Server

open Transition Workqueue

/-- Where the accept thread is in `on_accept`, with its local variables. `client`, `job` and the
connection have one name. -/
inductive AcceptPc where
  | idle
  | setnonblock (c fd : ℕ)
  | mallocClient (c fd : ℕ)
  | evbufferNew (c fd : ℕ)
  | eventBaseNew (c fd : ℕ)
  | buffereventNew (c fd : ℕ)
  /-- `bufferevent_base_set`, `bufferevent_settimeout` and `bufferevent_enable`. -/
  | enable (c : ℕ)
  | mallocJob (c : ℕ)
  | setJob (c : ℕ)
  | addJob (c : ℕ)
  /-- In `workqueue_add_job`. -/
  | adding (c : ℕ)
  /-- On a failure path, about to `close(client_fd)` and return. -/
  | close (c fd : ℕ)
  /-- On a failure path, at `closeClient` in `closeAndFreeClient`. -/
  | closing (c : ℕ)
  /-- On a failure path, in the rest of `closeAndFreeClient`. -/
  | freeing (c : ℕ)
  deriving DecidableEq, Repr

/-- Where a worker is in `server_job_function`, while it runs a job. -/
inductive JobPc where
  | load
  | enter (client : Option ℕ)
  /-- In `event_base_dispatch(client->evbase)`. -/
  | dispatch (client : ℕ)
  | closing (client : ℕ)
  | freeing (client : ℕ)
  | freeJob
  | returned
  deriving DecidableEq, Repr

structure State (n : ℕ) where
  queue : Workqueue.State n Unit ℕ
  mem : Mem
  accept : AcceptPc
  job : Fin n → JobPc
  fault : Option Fault

/-- A callback that libevent makes; `written` is whether `bufferevent_write_buffer` succeeds. -/
inductive Callback where
  | onRead (written : Bool)
  | onError
  deriving DecidableEq, Repr

inductive Action (n : ℕ) where
  | queue (a : Workqueue.Action n Unit ℕ)
  /-- `accept` fails or returns the number `fd`. -/
  | accept (fd : Option ℕ)
  /-- The next step of `on_accept`; `ok` is whether the call made there succeeds. -/
  | onAccept (ok : Bool)
  /-- The next step of `server_job_function` on worker `w`. -/
  | job (w : Fin n)
  | callback (w : Fin n) (cb : Callback)

/-! ## The code -/

/-- `client->field = new()`: the pointer is null when the call fails. -/
def acquire (ok : Bool) (kind : Kind) (c : ℕ) (store : Option ℕ → Client → Client) : Op Unit := do
  if ok then allocate kind c
  storeClient c (store (if ok then some c else none) (← loadClient c))

/-- `malloc`, `memset` and `client->fd = client_fd`. -/
def newClient (c fd : ℕ) : Op Unit := do
  allocate .client c
  storeClient c { fd := fd, evbase := none, bufEv := none, outputBuffer := none }

/-- The three calls that register the bufferevent on the client's event base. -/
def enableClient (c : ℕ) : Op Unit := do
  access .evbase (← deref (← loadClient c).evbase)
  access .bufEv (← deref (← loadClient c).bufEv)

/-- `event_base_dispatch(client->evbase)` is called. -/
def enterDispatch (client : Option ℕ) : Op ℕ := do
  let c ← deref client
  access .evbase (← deref (← loadClient c).evbase)
  return c

/-- `buffered_on_read(bev, client)`, as far as it touches the connection. -/
def bufferedOnRead (bev client : ℕ) (written : Bool) : Op Unit := do
  access .bufEv bev
  access .outputBuffer (← deref (← loadClient client).outputBuffer)
  access .bufEv bev
  unless written do closeClient (some client)

/-- `buffered_on_error(bev, what, client)` -/
def bufferedOnError (client : ℕ) : Op Unit := closeClient (some client)

/-- libevent passes the bufferevent and the argument that `on_accept` registered, both of which
are named after the connection. -/
def Callback.body (c : ℕ) : Callback → Op Unit
  | .onRead written => bufferedOnRead c c written
  | .onError => bufferedOnError c

/-- The callback calls `closeClient`. -/
def Callback.closes : Callback → Bool
  | .onRead written => !written
  | .onError => true

/-- The jobs whose blocks a step of the queue reads or writes. -/
def jobsTouched {n : ℕ} (q : Workqueue.State n Unit ℕ) : Workqueue.Action n Unit ℕ → List ℕ
  | .caller c _ => match q.caller c with
    | .add j => [j]
    | _ => []
  | .worker w => match q.pc w with
    | .takeJob => match q.waitingJobs with
      | some j => llRemoveWrites q.jobLinks j
      | none => []
    | .testJob (some j) => [j]
    | _ => []
  | _ => []

def accessJobs : List ℕ → Op Unit
  | [] => pure ()
  | j :: js => do access .job j; accessJobs js

/-! ## The steps -/

variable {n : ℕ}

/-- Run code as one step of a thread that then stands where `next` says. -/
def perform {α : Type} (s : State n) (op : Op α) (next : α → State n → State n) :
    Option (State n) :=
  match op.run { s.mem with touched := [] } with
  | .ok (x, m) => some (next x { s with mem := m })
  | .error f => some { s with fault := some f }

namespace State

def acceptGoto (pc : AcceptPc) (s : State n) : State n := { s with accept := pc }

def jobGoto (w : Fin n) (pc : JobPc) (s : State n) : State n :=
  { s with job := Function.update s.job w pc }

end State

/-- The steps that the queue takes by itself: `on_accept` calls it and the job function returns. -/
def ofQueue : Workqueue.Action n Unit ℕ → Bool
  | .call _ _ | .jobReturns _ | .reuse _ _ _ => false
  | _ => true

def queueStep (s : State n) (a : Workqueue.Action n Unit ℕ) : Option (State n) :=
  if ofQueue a then
    (Workqueue.step s.queue a).bind fun q =>
      perform s (accessJobs (jobsTouched s.queue a)) fun _ s => { s with queue := q }
  else none

/-- `accept` returns a number that denotes nothing at present. Connections are accepted only after
`workqueue_init` has succeeded. -/
def acceptStep (s : State n) (fd : Option ℕ) : Option (State n) :=
  if s.accept = .idle ∧ s.queue.init = .returned 0 then
    match fd with
    | none => perform s (pure ()) fun _ => id
    | some fd =>
      if s.mem.descriptors fd = none then
        perform s (modify fun m => { m with
          descriptors := Function.update m.descriptors fd (some m.accepted)
          accepted := m.accepted + 1 }) fun _ => State.acceptGoto (.setnonblock s.mem.accepted fd)
      else none
  else none

/-- The next step of `on_accept`. -/
def onAcceptStep (s : State n) (ok : Bool) : Option (State n) :=
  match s.accept with
  | .idle => none
  | .setnonblock c fd =>
    perform s (pure ()) fun _ => .acceptGoto (if ok then .mallocClient c fd else .close c fd)
  | .mallocClient c fd =>
    if ok then perform s (newClient c fd) fun _ => .acceptGoto (.evbufferNew c fd)
    else perform s (pure ()) fun _ => .acceptGoto (.close c fd)
  | .evbufferNew c fd =>
    perform s (acquire ok .outputBuffer c fun p x => { x with outputBuffer := p })
      fun _ => .acceptGoto (if ok then .eventBaseNew c fd else .closing c)
  | .eventBaseNew c fd =>
    perform s (acquire ok .evbase c fun p x => { x with evbase := p })
      fun _ => .acceptGoto (if ok then .buffereventNew c fd else .closing c)
  | .buffereventNew c _ =>
    perform s (acquire ok .bufEv c fun p x => { x with bufEv := p })
      fun _ => .acceptGoto (if ok then .enable c else .closing c)
  | .enable c => perform s (enableClient c) fun _ => .acceptGoto (.mallocJob c)
  | .mallocJob c =>
    if ok then perform s (allocate .job c) fun _ => .acceptGoto (.setJob c)
    else perform s (pure ()) fun _ => .acceptGoto (.closing c)
  | .setJob c => perform s (storeUserData c (some c)) fun _ => .acceptGoto (.addJob c)
  | .addJob c =>
    (Workqueue.step s.queue (.call () c)).bind fun q =>
      perform s (pure ()) fun _ s => { s with queue := q, accept := .adding c }
  | .adding _ =>
    if s.queue.caller () = .idle then perform s (pure ()) fun _ => .acceptGoto .idle else none
  | .close _ fd => perform s (close fd) fun _ => .acceptGoto .idle
  | .closing c => perform s (closeClient (some c)) fun _ => .acceptGoto (.freeing c)
  | .freeing c => perform s (freeClient (some c)) fun _ => .acceptGoto .idle

/-- The next step of `server_job_function` on worker `w`, which runs `job`. -/
def jobStep (s : State n) (w : Fin n) : Option (State n) :=
  match s.queue.pc w with
  | .run job =>
    match s.job w with
    | .load => perform s (loadUserData job) fun client => .jobGoto w (.enter client)
    | .enter client => perform s (enterDispatch client) fun c => .jobGoto w (.dispatch c)
    | .dispatch c => perform s (pure ()) fun _ => .jobGoto w (.closing c)
    | .closing c => perform s (closeClient (some c)) fun _ => .jobGoto w (.freeing c)
    | .freeing c => perform s (freeClient (some c)) fun _ => .jobGoto w .freeJob
    | .freeJob => perform s (release .job job) fun _ => .jobGoto w .returned
    | .returned => (Workqueue.step s.queue (.jobReturns w)).bind fun q =>
      perform s (pure ()) fun _ s => { s.jobGoto w .load with queue := q }
  | _ => none

/-- A callback on worker `w`. -/
def callbackStep (s : State n) (w : Fin n) (cb : Callback) : Option (State n) :=
  match s.queue.pc w, s.job w with
  | .run _, .dispatch c => perform s (cb.body c) fun _ => id
  | _, _ => none

/-- One step of the server. -/
def step (s : State n) (a : Action n) : Option (State n) :=
  if s.fault = none then
    match a with
    | .queue a => queueStep s a
    | .accept fd => acceptStep s fd
    | .onAccept ok => onAcceptStep s ok
    | .job w => jobStep s w
    | .callback w cb => callbackStep s w cb
  else none

/-- The start of `runServer`'s part that creates threads: no connection has been accepted. -/
structure Initial (s : State n) : Prop where
  queue : Workqueue.Initial s.queue
  descriptors : ∀ fd, s.mem.descriptors fd = none
  accepted : s.mem.accepted = 0
  conn : ∀ c, (s.mem.conn c).closes = 0 ∧ ∀ kind, (s.mem.conn c).block kind = .absent
  accept : s.accept = .idle
  job : ∀ w, s.job w = .load
  fault : s.fault = none

/-- The initial state with all fields zero. -/
def start : State n where
  queue := Workqueue.start
  mem :=
    { descriptors := fun _ => none
      accepted := 0
      conn := fun _ => ⟨0, fun _ => .absent, ⟨0, none, none, none⟩, none⟩
      touched := [] }
  accept := .idle
  job _ := .load
  fault := none

theorem start_initial : Initial (start : State n) := by
  constructor <;> simp [start, Workqueue.start_initial]

variable (n) in
/-- The server with `n` workers. -/
def machine : Machine (State n) (Action n) where
  initial := Initial
  step := step

end JiaTuanServer.Server

import JiaTuanServer.Workqueue.Machine

/-!
# runServer and its signal handler as one machine

The main thread runs `runServer`: it makes the listening socket and the event base, initialises
the work queue and then serves, calling `workqueue_add_job` from the accept loop. The workers run
`worker_function`. A signal may be delivered to any of these threads before any of its steps; the
thread then runs `sighandler` to its end before it goes on, and since `sa_mask` is empty a handler
may itself be interrupted by the other signal. So each thread carries a stack of handler runs.

The machine starts after both calls of `sigaction`. The steps of the queue's threads are those of
the work queue machine; `workqueue_shutdown` is here run by whichever thread calls it, and what it
reads from a freed `worker_t` is left open. Output and `strsignal` have no part in the state.
-/

namespace JiaTuanServer.Signals

open Transition Workqueue

/-- The threads that signals are delivered to. -/
inductive Thread (n : ℕ) where
  /-- The main thread, which runs `runServer`. -/
  | accept
  | worker (w : Fin n)
  deriving DecidableEq, Repr

/-- The name of a thread as an owner of `jobs_mutex`. -/
def Thread.owner {n : ℕ} : Thread n → Workqueue.Thread n Unit
  | .accept => .caller ()
  | .worker w => .worker w

inductive Signal where
  | sigint
  | sigterm
  deriving DecidableEq, Repr

/-- Where a run of `sighandler` is. -/
inductive HandlerPc (n : ℕ) where
  /-- In `killServer`, about to call `event_base_loopexit`. -/
  | loopexit
  /-- About to call `workqueue_shutdown`, which reads `workqueue->workers`. -/
  | callShutdown
  | shutdown (pc : ShutdownPc n)
  deriving DecidableEq, Repr

/-- A run of `sighandler`; its signal is blocked meanwhile. -/
structure Frame (n : ℕ) where
  signal : Signal
  pc : HandlerPc n
  deriving DecidableEq, Repr

/-- Where the main thread is in `runServer`, after the calls of `sigaction`. -/
inductive ServerPc (n : ℕ) where
  /-- The listening socket is set up. -/
  | listen
  | eventBaseNew
  /-- `if (NULL == evbase_accept)` -/
  | testBase
  /-- `workqueue_init` clears the queue. -/
  | memset
  /-- The loop of `workqueue_init`. -/
  | workqueueInit
  /-- `workqueue_shutdown` after `workqueue_init` has failed. -/
  | workqueueShutdown (pc : ShutdownPc n)
  | eventAdd
  /-- In `event_base_dispatch(evbase_accept)`: the accept loop. -/
  | dispatch
  | eventBaseFree
  /-- `evbase_accept = NULL` -/
  | clearBase
  | returned
  | exited
  deriving DecidableEq, Repr

/-- `evbaseAccept` is whether `evbase_accept` points to a base, `exitScheduled` whether an exit of
the loop on that base is scheduled. -/
structure State (n : ℕ) (J : Type) where
  queue : Workqueue.State n Unit J
  evbaseAccept : Bool
  exitScheduled : Bool
  server : ServerPc n
  handlers : Thread n → List (Frame n)

/-- Who moves, and the choices the environment makes: `ok` is whether the library call or the
allocation of the step succeeds, `junk` is what a freed block holds. -/
inductive Action (n : ℕ) (J : Type) where
  /-- A step of a thread of the queue, of its allocator or of its scheduler. -/
  | queue (a : Workqueue.Action n Unit J)
  /-- The next step of `runServer` outside the queue's functions. -/
  | server (ok : Bool) (junk : Option (Fin n))
  /-- A signal is delivered to the thread. -/
  | deliver (t : Thread n) (signal : Signal)
  /-- The next step of the newest handler run of the thread. -/
  | handler (t : Thread n) (ok : Bool) (junk : Option (Fin n))

variable {n : ℕ} {J : Type}

/-- The `memset` and the `memcpy`s of `workqueue_init`. -/
def clear (q : Workqueue.State n Unit J) : Workqueue.State n Unit J :=
  { q with workers := none, waitingJobs := none, jobsMutex := none }

/-- The next step of a `workqueue_shutdown` that thread `t` runs. -/
def shutdownOn (q : Workqueue.State n Unit J) (t : Thread n) (junk : Option (Fin n))
    (pc : ShutdownPc n) : Option (Workqueue.State n Unit J × ShutdownPc n) :=
  (workqueueShutdown { q with shutdown := pc }).map fun u =>
    ({ u with shutdown := q.shutdown
              jobsMutex := if pc = .lock then some t.owner else u.jobsMutex },
      match pc with
      | .readNext w => if q.freed w then .traverse junk else u.shutdown
      | _ => u.shutdown)

namespace State

/-- Handlers of thread `t` are those of `fs`, newest first. -/
def setHandlers (s : State n J) (t : Thread n) (fs : List (Frame n)) : State n J :=
  { s with handlers := Function.update s.handlers t fs }

/-- The thread that takes a step of the queue stands before it and is not interrupted. -/
def Runs (s : State n J) : Workqueue.Action n Unit J → Prop
  | .init _ => s.server = .workqueueInit ∧ s.handlers .accept = []
  | .worker w | .jobReturns w => s.handlers (.worker w) = []
  | .call _ _ | .caller _ _ => s.server = .dispatch ∧ s.handlers .accept = []
  | .wake _ | .reuse _ _ _ => True
  | .callShutdown | .shutdown => False

instance (s : State n J) : (a : Workqueue.Action n Unit J) → Decidable (s.Runs a)
  | .init _ => inferInstanceAs (Decidable (_ ∧ _))
  | .worker _ | .jobReturns _ => inferInstanceAs (Decidable (_ = _))
  | .call _ _ | .caller _ _ => inferInstanceAs (Decidable (_ ∧ _))
  | .wake _ | .reuse _ _ _ => inferInstanceAs (Decidable True)
  | .callShutdown | .shutdown => inferInstanceAs (Decidable False)

/-- The thread has been created and has not exited. -/
def Alive (s : State n J) : Thread n → Prop
  | .accept => True
  | .worker w => s.queue.pc w ≠ .notStarted ∧ s.queue.pc w ≠ .exited

instance [DecidableEq J] (s : State n J) : (t : Thread n) → Decidable (s.Alive t)
  | .accept => inferInstanceAs (Decidable True)
  | .worker _ => inferInstanceAs (Decidable (_ ∧ _))

end State

/-- The next step of `sighandler` on thread `t`. On a null base `event_base_loopexit` schedules the
exit elsewhere. -/
def sighandler (s : State n J) (t : Thread n) (ok : Bool) (junk : Option (Fin n)) :
    Option (State n J) :=
  match s.handlers t with
  | [] => none
  | frame :: below =>
    match frame.pc with
    | .loopexit =>
      some { s.setHandlers t ({ frame with pc := .callShutdown } :: below) with
        exitScheduled := s.exitScheduled || (s.evbaseAccept && ok) }
    | .callShutdown =>
      some (s.setHandlers t ({ frame with pc := .shutdown (.traverse s.queue.workers) } :: below))
    | .shutdown .returned => some (s.setHandlers t below)
    | .shutdown pc =>
      (shutdownOn s.queue t junk pc).map fun x =>
        { s.setHandlers t ({ frame with pc := .shutdown x.2 } :: below) with queue := x.1 }

variable [DecidableEq J]

/-- The next step of `runServer`. -/
def runServer (s : State n J) (ok : Bool) (junk : Option (Fin n)) : Option (State n J) :=
  match s.server with
  | .listen => some { s with server := if ok then .eventBaseNew else .exited }
  | .eventBaseNew => some { s with evbaseAccept := ok, server := .testBase }
  | .testBase => some { s with server := if s.evbaseAccept then .memset else .returned }
  | .memset =>
    some { s with queue := clear s.queue, server := .workqueueInit }
  | .workqueueInit =>
    match s.queue.init with
    | .returned 0 => some { s with server := .eventAdd }
    | .returned _ => some { s with server := .workqueueShutdown (.traverse s.queue.workers) }
    | _ => none
  | .workqueueShutdown .returned => some { s with server := .returned }
  | .workqueueShutdown pc =>
    (shutdownOn s.queue .accept junk pc).map fun x =>
      { s with queue := x.1, server := .workqueueShutdown x.2 }
  | .eventAdd => some { s with server := .dispatch }
  | .dispatch =>
    -- the loop ends between two callbacks, because an exit is scheduled or because it fails
    if s.queue.caller () = .idle ∧ (s.exitScheduled = true ∨ ok = false) then
      some { s with server := .eventBaseFree }
    else none
  | .eventBaseFree => some { s with server := .clearBase }
  | .clearBase => some { s with evbaseAccept := false, server := .returned }
  | .returned => some { s with server := .exited }
  | .exited => none

/-- One step of the whole program. -/
def step (s : State n J) (a : Action n J) : Option (State n J) :=
  if s.server = .exited then none else
  match a with
  | .queue a =>
    if s.Runs a then (Workqueue.step s.queue a).map fun q => { s with queue := q } else none
  | .server ok junk => if s.handlers .accept = [] then runServer s ok junk else none
  | .deliver t signal =>
    if s.Alive t ∧ signal ∉ (s.handlers t).map Frame.signal then
      some (s.setHandlers t (⟨signal, .loopexit⟩ :: s.handlers t))
    else none
  | .handler t ok junk => sighandler s t ok junk

/-- Just after the calls of `sigaction`: the static queue is zeroed and `evbase_accept` is null. -/
structure Initial (s : State n J) : Prop where
  queue : Workqueue.Initial s.queue
  evbaseAccept : s.evbaseAccept = false
  exitScheduled : s.exitScheduled = false
  server : s.server = .listen
  handlers : ∀ t, s.handlers t = []

/-- The initial state with all fields zero. -/
def start : State n J where
  queue := Workqueue.start
  evbaseAccept := false
  exitScheduled := false
  server := .listen
  handlers _ := []

omit [DecidableEq J] in
theorem start_initial : Initial (start : State n J) := by
  constructor <;> simp [start, Workqueue.start_initial]

variable (n J) in
/-- The server with `n` workers and its signal handler. -/
def machine : Machine (State n J) (Action n J) where
  initial := Initial
  step := step

end JiaTuanServer.Signals

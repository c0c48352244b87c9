import JiaTuanServer.Library.Machine
import JiaTuanServer.Workqueue.LinkedList
import Mathlib.Data.Fintype.Basic
import Mathlib.Data.Fin.Basic
import Mathlib.Tactic.Simps.Basic

/-!
# The threads of workqueue.c as one machine

Every lock, unlock, wait, wake-up, access to a `terminate` flag and unlocked read or write is one
step. A program counter names the statement a thread is about to execute; statements inside one
lock section that only touch what the lock protects (the list macros) are one step.

`n` is `numWorkers` after `workqueue_init` has raised it to at least one, `κ` names the threads
that call `workqueue_add_job`, and `J` is the type of job addresses. Workers are named by the
order in which `workqueue_init` creates them, so a worker is also the address of its `worker_t`.
The condition variable has no state of its own: the threads waiting on `jobs_cond` are the
workers that are `asleep`.
-/

namespace JiaTuanServer.Workqueue

open Transition

/-- Where `workqueue_init` is: about to create worker `i`, about to insert it, or done. -/
inductive InitPc where
  | create (i : ℕ)
  | insert (i : ℕ)
  | returned (status : ℕ)
  deriving DecidableEq, Repr

/-- Where a worker thread is in `worker_function`. -/
inductive WorkerPc (J : Type) where
  | notStarted
  /-- At the top of the loop, about to lock `jobs_mutex`. -/
  | lock
  /-- The inner loop's test of `waiting_jobs`. -/
  | testJobs
  /-- The inner loop's test of `terminate`. -/
  | testTerminateInner
  /-- About to call `pthread_cond_wait`. -/
  | condWait
  /-- In `pthread_cond_wait`, waiting on `jobs_cond` with `jobs_mutex` released. -/
  | asleep
  /-- In `pthread_cond_wait`, woken, about to lock `jobs_mutex` again. -/
  | woken
  /-- The test of `terminate` after the inner loop. -/
  | testTerminate
  /-- The read of `waiting_jobs` and `LL_REMOVE`. -/
  | takeJob
  | unlock (job : Option J)
  /-- `if (job == NULL) continue;` -/
  | testJob (job : Option J)
  /-- In `job->job_function(job)`. -/
  | run (job : J)
  /-- After a `break` out of the outer loop: `free(worker)`. -/
  | free
  | exit
  | exited
  deriving DecidableEq, Repr

/-- The thread waits on `jobs_cond`. -/
def WorkerPc.isAsleep {J : Type} : WorkerPc J → Bool
  | .asleep => true
  | _ => false

/-- Where a caller is in `workqueue_add_job`. -/
inductive CallerPc (J : Type) where
  | idle
  | lock (job : J)
  | add (job : J)
  | signal (job : J)
  | unlock (job : J)
  deriving DecidableEq, Repr

/-- Where the thread that stops the queue is in `workqueue_shutdown`. -/
inductive ShutdownPc (n : ℕ) where
  | notCalled
  /-- `worker->terminate = 1`, without the lock. -/
  | setTerminate (worker : Fin n)
  /-- The read of `worker->next`, without the lock. -/
  | readNext (worker : Fin n)
  | lock
  | clearWorkers
  | clearJobs
  | broadcast
  | unlock
  | returned
  deriving DecidableEq, Repr

/-- The threads that lock `jobs_mutex`. -/
inductive Thread (n : ℕ) (κ : Type) where
  | worker (w : Fin n)
  | caller (c : κ)
  | shutdown
  deriving DecidableEq, Repr

/-- The shared memory and the threads. `freed` marks the `worker_t` blocks given back to the
allocator; a traversal that still reads one is taken to find what the worker left in it. -/
structure State (n : ℕ) (κ J : Type) where
  workers : Option (Fin n)
  waitingJobs : Option J
  jobsMutex : Option (Thread n κ)
  workerLinks : Links (Fin n)
  terminate : Fin n → Bool
  freed : Fin n → Bool
  jobLinks : Links J
  init : InitPc
  pc : Fin n → WorkerPc J
  caller : κ → CallerPc J
  shutdown : ShutdownPc n

/-- Who moves, and the choices the environment makes. -/
inductive Action (n : ℕ) (κ J : Type) where
  /-- The next step of `workqueue_init`; `ok` is whether `malloc` and `pthread_create` succeed. -/
  | init (ok : Bool)
  /-- The next step of `worker_function` on worker `w`. -/
  | worker (w : Fin n)
  /-- The job function that worker `w` runs returns. -/
  | jobReturns (w : Fin n)
  /-- A spurious wake-up. -/
  | wake (w : Fin n)
  /-- `workqueue_add_job(job)` is called. -/
  | call (c : κ) (job : J)
  /-- The next step of `workqueue_add_job`; `signalled` are the waiters that the signal wakes. -/
  | caller (c : κ) (signalled : Finset (Fin n))
  | callShutdown
  /-- The next step of `workqueue_shutdown`. -/
  | shutdown
  /-- A job block is freed and reused: its fields become arbitrary. -/
  | reuse (job : J) (prev next : Option J)

variable {n : ℕ} {κ J : Type} [DecidableEq κ] [DecidableEq J]

namespace State

/-- Worker `w` is about to execute `pc`. -/
@[simps -fullyApplied] def goto (s : State n κ J) (w : Fin n) (pc : WorkerPc J) : State n κ J :=
  { s with pc := Function.update s.pc w pc }

/-- Caller `c` is about to execute `pc`. -/
@[simps -fullyApplied] def callerGoto (s : State n κ J) (c : κ) (pc : CallerPc J) : State n κ J :=
  { s with caller := Function.update s.caller c pc }

/-- The waiters `ws` leave `pthread_cond_wait`'s queue. -/
@[simps -fullyApplied] def wakeAll (s : State n κ J) (ws : Finset (Fin n)) : State n κ J :=
  { s with pc := fun w => if w ∈ ws then .woken else s.pc w }

/-- The threads waiting on `jobs_cond`. -/
def sleepers (s : State n κ J) : Finset (Fin n) :=
  Finset.univ.filter fun w => (s.pc w).isAsleep = true

end State

/-- One iteration of the loop of `workqueue_init` is `create` and `insert`. -/
def workqueueInit (s : State n κ J) (ok : Bool) : Option (State n κ J) :=
  match s.init with
  | .create i =>
    if h : i < n then
      if ok then some { s.goto ⟨i, h⟩ .lock with init := .insert i }
      else some { s with init := .returned 1 }
    else some { s with init := .returned 0 }
  | .insert i =>
    if h : i < n then
      some { s with
        workerLinks := (llAdd s.workerLinks ⟨i, h⟩ s.workers).1
        workers := (llAdd s.workerLinks ⟨i, h⟩ s.workers).2
        init := .create (i + 1) }
    else none
  | .returned _ => none

/-- The next step of worker `w`; `none` while it waits for the lock, for a wake-up or for its
job function. -/
def workerFunction (s : State n κ J) (w : Fin n) : Option (State n κ J) :=
  match s.pc w with
  | .notStarted => none
  | .lock =>
    if s.jobsMutex = none then some { s.goto w .testJobs with jobsMutex := some (.worker w) }
    else none
  | .testJobs => some (s.goto w (if s.waitingJobs = none then .testTerminateInner
      else .testTerminate))
  | .testTerminateInner => some (s.goto w (if s.terminate w then .testTerminate else .condWait))
  | .condWait => some { s.goto w .asleep with jobsMutex := none }
  | .asleep => none
  | .woken =>
    if s.jobsMutex = none then some { s.goto w .testJobs with jobsMutex := some (.worker w) }
    else none
  | .testTerminate => some (s.goto w (if s.terminate w then .free else .takeJob))
  | .takeJob =>
    match s.waitingJobs with
    | some job =>
      some { s.goto w (.unlock (some job)) with
        jobLinks := (llRemove s.jobLinks job s.waitingJobs).1
        waitingJobs := (llRemove s.jobLinks job s.waitingJobs).2 }
    | none => some (s.goto w (.unlock none))
  | .unlock job => some { s.goto w (.testJob job) with jobsMutex := none }
  | .testJob none => some (s.goto w .lock)
  | .testJob (some job) => some (s.goto w (.run job))
  | .run _ => none
  | .free => some { s.goto w .exit with freed := Function.update s.freed w true }
  | .exit => some (s.goto w .exited)
  | .exited => none

/-- The next step of caller `c`. The signal wakes at least one waiter if there is one. -/
def workqueueAddJob (s : State n κ J) (c : κ) (signalled : Finset (Fin n)) :
    Option (State n κ J) :=
  match s.caller c with
  | .idle => none
  | .lock job =>
    if s.jobsMutex = none then some { s.callerGoto c (.add job) with jobsMutex := some (.caller c) }
    else none
  | .add job =>
    some { s.callerGoto c (.signal job) with
      jobLinks := (llAdd s.jobLinks job s.waitingJobs).1
      waitingJobs := (llAdd s.jobLinks job s.waitingJobs).2 }
  | .signal job =>
    if signalled ⊆ s.sleepers ∧ (s.sleepers.Nonempty → signalled.Nonempty) then
      some ((s.wakeAll signalled).callerGoto c (.unlock job))
    else none
  | .unlock _ => some { s.callerGoto c .idle with jobsMutex := none }

/-- The loop of `workqueue_shutdown` at `cursor`: its test, before the body. -/
def ShutdownPc.traverse : Option (Fin n) → ShutdownPc n
  | some worker => .setTerminate worker
  | none => .lock

/-- The next step of `workqueue_shutdown`. -/
def workqueueShutdown (s : State n κ J) : Option (State n κ J) :=
  match s.shutdown with
  | .notCalled => none
  | .setTerminate worker =>
    some { s with terminate := Function.update s.terminate worker true
                  shutdown := .readNext worker }
  | .readNext worker => some { s with shutdown := .traverse (s.workerLinks.next worker) }
  | .lock =>
    if s.jobsMutex = none then
      some { s with jobsMutex := some .shutdown, shutdown := .clearWorkers }
    else none
  | .clearWorkers => some { s with workers := none, shutdown := .clearJobs }
  | .clearJobs => some { s with waitingJobs := none, shutdown := .broadcast }
  | .broadcast => some { s.wakeAll s.sleepers with shutdown := .unlock }
  | .unlock => some { s with jobsMutex := none, shutdown := .returned }
  | .returned => none

/-- `workqueue_init` has returned. -/
def InitPc.isReturned : InitPc → Bool
  | .returned _ => true
  | _ => false

/-- One step of the whole program. Jobs are added and the queue is stopped only after
`workqueue_init` has returned. -/
def step (s : State n κ J) : Action n κ J → Option (State n κ J)
  | .init ok => workqueueInit s ok
  | .worker w => workerFunction s w
  | .jobReturns w =>
    match s.pc w with
    | .run _ => some (s.goto w .lock)
    | _ => none
  | .wake w => if (s.pc w).isAsleep then some (s.goto w .woken) else none
  | .call c job =>
    if s.init.isReturned ∧ s.caller c = .idle then some (s.callerGoto c (.lock job)) else none
  | .caller c signalled => workqueueAddJob s c signalled
  | .callShutdown =>
    if s.init.isReturned ∧ s.shutdown = .notCalled then
      some { s with shutdown := .traverse s.workers }
    else none
  | .shutdown => workqueueShutdown s
  | .reuse job prev next =>
    some { s with jobLinks := { prev := Function.update s.jobLinks.prev job prev
                                next := Function.update s.jobLinks.next job next } }

/-- The call of `workqueue_init`: the queue is zeroed, no thread has been created, and the job
blocks hold anything. -/
structure Initial (s : State n κ J) : Prop where
  workers : s.workers = none
  waitingJobs : s.waitingJobs = none
  jobsMutex : s.jobsMutex = none
  terminate : ∀ w, s.terminate w = false
  freed : ∀ w, s.freed w = false
  init : s.init = .create 0
  pc : ∀ w, s.pc w = .notStarted
  caller : ∀ c, s.caller c = .idle
  shutdown : s.shutdown = .notCalled

/-- The initial state with all fields zero. -/
def start : State n κ J where
  workers := none
  waitingJobs := none
  jobsMutex := none
  workerLinks := ⟨fun _ => none, fun _ => none⟩
  terminate _ := false
  freed _ := false
  jobLinks := ⟨fun _ => none, fun _ => none⟩
  init := .create 0
  pc _ := .notStarted
  caller _ := .idle
  shutdown := .notCalled

omit [DecidableEq κ] [DecidableEq J] in
theorem start_initial : Initial (start : State n κ J) := by
  constructor <;> simp [start]

variable (n κ J) in
/-- The work queue with `n` workers. -/
def machine : Machine (State n κ J) (Action n κ J) where
  initial := Initial
  step := step

end JiaTuanServer.Workqueue

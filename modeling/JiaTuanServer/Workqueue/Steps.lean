import JiaTuanServer.Workqueue.Machine
import Mathlib.Tactic.Common

/-!
# What a step of the work queue can do

One inversion lemma for each function of workqueue.c: every step it can take, with the test it
passed and the state it leaves. The invariants are proved from these lists and never unfold the
step functions.
-/

namespace JiaTuanServer.Workqueue

open Transition

variable {n : ℕ} {κ J : Type} [DecidableEq κ] [DecidableEq J]

omit [DecidableEq κ] [DecidableEq J] in
@[simp] theorem WorkerPc.isAsleep_iff {pc : WorkerPc J} : pc.isAsleep = true ↔ pc = .asleep := by
  cases pc <;> simp [WorkerPc.isAsleep]

omit [DecidableEq κ] [DecidableEq J] in
@[simp] theorem mem_sleepers {s : State n κ J} {w : Fin n} :
    w ∈ s.sleepers ↔ s.pc w = .asleep := by simp [State.sleepers]

/-- The steps of `worker_function`. -/
inductive WorkerStep (s : State n κ J) (w : Fin n) : State n κ J → Prop where
  | acquire (at_lock : s.pc w = .lock ∨ s.pc w = .woken) (unowned : s.jobsMutex = none) :
      WorkerStep s w { s.goto w .testJobs with jobsMutex := some (.worker w) }
  | noJobs (at_test : s.pc w = .testJobs) (empty : s.waitingJobs = none) :
      WorkerStep s w (s.goto w .testTerminateInner)
  | someJob (at_test : s.pc w = .testJobs) (nonempty : s.waitingJobs ≠ none) :
      WorkerStep s w (s.goto w .testTerminate)
  | breakInner (at_test : s.pc w = .testTerminateInner) (flag : s.terminate w = true) :
      WorkerStep s w (s.goto w .testTerminate)
  | goOn (at_test : s.pc w = .testTerminateInner) (flag : s.terminate w = false) :
      WorkerStep s w (s.goto w .condWait)
  | sleep (at_wait : s.pc w = .condWait) :
      WorkerStep s w { s.goto w .asleep with jobsMutex := none }
  | breakOuter (at_test : s.pc w = .testTerminate) (flag : s.terminate w = true) :
      WorkerStep s w (s.goto w .free)
  | proceed (at_test : s.pc w = .testTerminate) (flag : s.terminate w = false) :
      WorkerStep s w (s.goto w .takeJob)
  | take (job : J) (at_take : s.pc w = .takeJob) (head : s.waitingJobs = some job) :
      WorkerStep s w { s.goto w (.unlock (some job)) with
        jobLinks := (llRemove s.jobLinks job (some job)).1
        waitingJobs := (llRemove s.jobLinks job (some job)).2 }
  | takeNothing (at_take : s.pc w = .takeJob) (empty : s.waitingJobs = none) :
      WorkerStep s w (s.goto w (.unlock none))
  | release (job : Option J) (at_unlock : s.pc w = .unlock job) :
      WorkerStep s w { s.goto w (.testJob job) with jobsMutex := none }
  | nothing (at_test : s.pc w = .testJob none) : WorkerStep s w (s.goto w .lock)
  | start (job : J) (at_test : s.pc w = .testJob (some job)) :
      WorkerStep s w (s.goto w (.run job))
  | free (at_free : s.pc w = .free) :
      WorkerStep s w { s.goto w .exit with freed := Function.update s.freed w true }
  | exit (at_exit : s.pc w = .exit) : WorkerStep s w (s.goto w .exited)

omit [DecidableEq κ] in
theorem workerFunction_cases {s u : State n κ J} {w : Fin n}
    (h : workerFunction s w = some u) : WorkerStep s w u := by
  unfold workerFunction at h
  split at h <;> rename_i hpc
  case h_2 | h_7 =>
    split at h
    · cases h; exact .acquire (by simp [hpc]) ‹_›
    · cases h
  case h_3 =>
    cases h
    split
    · exact .noJobs hpc ‹_›
    · exact .someJob hpc ‹_›
  case h_4 =>
    cases h
    split
    · exact .breakInner hpc ‹_›
    · rename_i flag; exact .goOn hpc (by simpa using flag)
  case h_8 =>
    cases h
    split
    · exact .breakOuter hpc ‹_›
    · rename_i flag; exact .proceed hpc (by simpa using flag)
  case h_9 =>
    split at h
    · rename_i job head
      cases h
      rw [head]
      exact .take job hpc head
    · cases h; exact .takeNothing hpc ‹_›
  all_goals cases h
  case h_5 => exact .sleep hpc
  case h_10 => exact .release _ hpc
  case h_11 => exact .nothing hpc
  case h_12 => exact .start _ hpc
  case h_14 => exact .free hpc
  case h_15 => exact .exit hpc

/-- The steps of `workqueue_init`. -/
inductive InitStep (s : State n κ J) : State n κ J → Prop where
  | create (i : Fin n) (at_create : s.init = .create i) :
      InitStep s { s.goto i .lock with init := .insert i }
  | insert (i : Fin n) (at_insert : s.init = .insert i) :
      InitStep s { s with
        workerLinks := (llAdd s.workerLinks i s.workers).1
        workers := some i
        init := .create (i + 1) }
  | fail (i : Fin n) (at_create : s.init = .create i) :
      InitStep s { s with init := .returned 1 }
  | done (i : ℕ) (all : n ≤ i) (at_create : s.init = .create i) :
      InitStep s { s with init := .returned 0 }

omit [DecidableEq κ] [DecidableEq J] in
theorem workqueueInit_cases {s u : State n κ J} {ok : Bool}
    (h : workqueueInit s ok = some u) : InitStep s u := by
  unfold workqueueInit at h
  split at h <;> rename_i hi
  · split at h
    · rename_i hlt
      split at h <;> cases h
      · exact .create ⟨_, hlt⟩ hi
      · exact .fail ⟨_, hlt⟩ hi
    · cases h; exact .done _ (by omega) hi
  · split at h
    · rename_i hlt
      cases h
      exact .insert ⟨_, hlt⟩ hi
    · cases h
  · cases h

/-- The steps of `workqueue_add_job`. -/
inductive CallerStep (s : State n κ J) (c : κ) (signalled : Finset (Fin n)) :
    State n κ J → Prop where
  | acquire (job : J) (at_lock : s.caller c = .lock job) (unowned : s.jobsMutex = none) :
      CallerStep s c signalled { s.callerGoto c (.add job) with jobsMutex := some (.caller c) }
  | add (job : J) (at_add : s.caller c = .add job) :
      CallerStep s c signalled { s.callerGoto c (.signal job) with
        jobLinks := (llAdd s.jobLinks job s.waitingJobs).1
        waitingJobs := some job }
  | signal (job : J) (at_signal : s.caller c = .signal job) (waiting : signalled ⊆ s.sleepers)
      (one : s.sleepers.Nonempty → signalled.Nonempty) :
      CallerStep s c signalled ((s.wakeAll signalled).callerGoto c (.unlock job))
  | release (job : J) (at_unlock : s.caller c = .unlock job) :
      CallerStep s c signalled { s.callerGoto c .idle with jobsMutex := none }

theorem workqueueAddJob_cases {s u : State n κ J} {c : κ} {signalled : Finset (Fin n)}
    (h : workqueueAddJob s c signalled = some u) : CallerStep s c signalled u := by
  unfold workqueueAddJob at h
  split at h <;> rename_i hpc
  case h_1 => cases h
  case h_2 =>
    split at h
    · cases h; exact .acquire _ hpc ‹_›
    · cases h
  case h_3 => cases h; exact .add _ hpc
  case h_4 =>
    split at h
    · rename_i hw; cases h; exact .signal _ hpc hw.1 hw.2
    · cases h
  case h_5 => cases h; exact .release _ hpc

/-- The steps of `workqueue_shutdown`. -/
inductive ShutdownStep (s : State n κ J) : State n κ J → Prop where
  | setTerminate (w : Fin n) (at_set : s.shutdown = .setTerminate w) :
      ShutdownStep s { s with terminate := Function.update s.terminate w true
                              shutdown := .readNext w }
  | readNext (w : Fin n) (at_next : s.shutdown = .readNext w) :
      ShutdownStep s { s with shutdown := .traverse (s.workerLinks.next w) }
  | acquire (at_lock : s.shutdown = .lock) (unowned : s.jobsMutex = none) :
      ShutdownStep s { s with jobsMutex := some .shutdown, shutdown := .clearWorkers }
  | clearWorkers (at_clear : s.shutdown = .clearWorkers) :
      ShutdownStep s { s with workers := none, shutdown := .clearJobs }
  | clearJobs (at_clear : s.shutdown = .clearJobs) :
      ShutdownStep s { s with waitingJobs := none, shutdown := .broadcast }
  | broadcast (at_broadcast : s.shutdown = .broadcast) :
      ShutdownStep s { s.wakeAll s.sleepers with shutdown := .unlock }
  | release (at_unlock : s.shutdown = .unlock) :
      ShutdownStep s { s with jobsMutex := none, shutdown := .returned }

omit [DecidableEq κ] [DecidableEq J] in
theorem workqueueShutdown_cases {s u : State n κ J}
    (h : workqueueShutdown s = some u) : ShutdownStep s u := by
  unfold workqueueShutdown at h
  split at h <;> rename_i hpc
  case h_4 =>
    split at h
    · cases h; exact .acquire hpc ‹_›
    · cases h
  all_goals cases h
  case h_2 => exact .setTerminate _ hpc
  case h_3 => exact .readNext _ hpc
  case h_5 => exact .clearWorkers hpc
  case h_6 => exact .clearJobs hpc
  case h_7 => exact .broadcast hpc
  case h_8 => exact .release hpc

/-- The steps of the whole program. -/
inductive Step (s : State n κ J) : Action n κ J → State n κ J → Prop where
  | init {ok : Bool} {u : State n κ J} (h : InitStep s u) : Step s (.init ok) u
  | worker {w : Fin n} {u : State n κ J} (h : WorkerStep s w u) : Step s (.worker w) u
  | jobReturns {w : Fin n} (job : J) (at_run : s.pc w = .run job) :
      Step s (.jobReturns w) (s.goto w .lock)
  | wake {w : Fin n} (at_wait : s.pc w = .asleep) : Step s (.wake w) (s.goto w .woken)
  | call {c : κ} {job : J} (started : s.init.isReturned = true) (at_idle : s.caller c = .idle) :
      Step s (.call c job) (s.callerGoto c (.lock job))
  | caller {c : κ} {signalled : Finset (Fin n)} {u : State n κ J}
      (h : CallerStep s c signalled u) : Step s (.caller c signalled) u
  | callShutdown (started : s.init.isReturned = true) (at_start : s.shutdown = .notCalled) :
      Step s .callShutdown { s with shutdown := .traverse s.workers }
  | shutdown {u : State n κ J} (h : ShutdownStep s u) : Step s .shutdown u
  | reuse {job : J} {prev next : Option J} :
      Step s (.reuse job prev next)
        { s with jobLinks := { prev := Function.update s.jobLinks.prev job prev
                               next := Function.update s.jobLinks.next job next } }

theorem step_cases {s u : State n κ J} {a : Action n κ J} (h : step s a = some u) :
    Step s a u := by
  cases a with
  | init ok => exact .init (workqueueInit_cases h)
  | worker w => exact .worker (workerFunction_cases h)
  | jobReturns w =>
    simp only [step] at h
    split at h
    · cases h; exact .jobReturns _ ‹_›
    · cases h
  | wake w =>
    simp only [step] at h
    split at h
    · rename_i hw; cases h; exact .wake (WorkerPc.isAsleep_iff.mp hw)
    · cases h
  | call c job =>
    simp only [step] at h
    split at h
    · rename_i hc; cases h; exact .call hc.1 hc.2
    · cases h
  | caller c signalled => exact .caller (workqueueAddJob_cases h)
  | callShutdown =>
    simp only [step] at h
    split at h
    · rename_i hc; cases h; exact .callShutdown hc.1 hc.2
    · cases h
  | shutdown => exact .shutdown (workqueueShutdown_cases h)
  | reuse job prev next => cases h; exact .reuse

end JiaTuanServer.Workqueue

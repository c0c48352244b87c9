import JiaTuanServer.Workqueue.WakeUp

/-!
# The invariant of the work queue

`Coherent s k l` collects what every reachable state satisfies: who owns the lock, the list of `k`
workers with their flags, the chain `l` of waiting jobs, and the wake-up count. It is kept by every
step of every thread, `workqueue_shutdown` included, as long as nobody adds or overwrites a job
that is waiting.
-/

namespace JiaTuanServer.Workqueue

open Transition Machine

variable {n : ℕ} {κ J : Type}

structure Coherent (s : State n κ J) (k : ℕ) (l : List J) : Prop where
  owned : s.LockOwned
  workers : Workers s k
  jobs : Pushed s.jobLinks s.waitingJobs l
  seen : s.SeenEmpty
  balanced : s.Balanced l

/-- How one step changes the waiting jobs. -/
def State.JobsChange (s : State n κ J) (a : Action n κ J) (l l' : List J) : Prop :=
  s.drops a ∧ l' = [] ∨ ¬ s.drops a ∧
    (s.added a).toList ++ l = ((s.removed a).map Prod.snd).toList ++ l'

variable {s u : State n κ J} {k : ℕ} {l : List J}

theorem Coherent.of_initial (h : Initial s) : Coherent s 0 [] where
  owned t := by
    cases t with
    | worker w => simp [h.jobsMutex, State.holdsLock, h.pc w, WorkerPc.holdsLock]
    | caller c => simp [h.jobsMutex, State.holdsLock, h.caller c, CallerPc.inSection]
    | shutdown => simp [h.jobsMutex, State.holdsLock, h.shutdown, ShutdownPc.inSection]
  workers := .of_initial h
  jobs := h.waitingJobs ▸ pushed_nil _
  seen w hw := by simp [h.pc w] at hw
  balanced _ _ := by simp

/-- A worker that is about to be created has not started. -/
theorem Workers.notStarted (h : Workers s k) {i : Fin n} (hi : s.init = .create i) :
    s.pc i = .notStarted := by
  have hk : i.val = k := h.counted i (by simp [hi, InitPc.inserted])
  by_contra on
  rcases (h.started i).mp on with hlt | hins
  · omega
  · simp [hi] at hins

variable [DecidableEq κ] [DecidableEq J]

theorem Step.lockOwned {a : Action n κ J} (st : Step s a u) (h : s.LockOwned)
    (workers : Workers s k) : u.LockOwned := by
  cases st with
  | init st => exact st.lockOwned h fun i hi => workers.notStarted hi
  | worker st => exact st.lockOwned h
  | caller st => exact st.lockOwned h
  | shutdown st => exact st.lockOwned h
  | @jobReturns w job at_run =>
    refine h.same rfl fun t => ?_
    by_cases ht : t = .worker w
    · subst ht; simp [State.holdsLock, at_run, WorkerPc.holdsLock]
    · refine holdsLock_of_pc s w .lock ?_ ?_ ?_ ht <;> rfl
  | @wake w at_wait =>
    refine h.same rfl fun t => ?_
    by_cases ht : t = .worker w
    · subst ht; simp [State.holdsLock, at_wait, WorkerPc.holdsLock]
    · refine holdsLock_of_pc s w .woken ?_ ?_ ?_ ht <;> rfl
  | @call c job started at_idle =>
    refine h.same rfl fun t => ?_
    by_cases ht : t = .caller c
    · subst ht; simp [State.holdsLock, at_idle, CallerPc.inSection]
    · refine holdsLock_of_caller s c (.lock job) ?_ (fun _ => ?_) ?_ ht <;> rfl
  | callShutdown started at_start =>
    refine h.same rfl fun t => ?_
    by_cases ht : t = .shutdown
    · subst ht
      simp [State.holdsLock, at_start, ShutdownPc.inSection_traverse]
      rfl
    · refine holdsLock_of_shutdown s ?_ (fun _ => ?_) ht <;> rfl
  | reuse => exact h

/-- Every step keeps the invariant. -/
theorem Step.coherent {a : Action n κ J} (st : Step s a u) (h : Coherent s k l)
    (own : s.OwnsBlock a) :
    ∃ k' l', Coherent u k' l' ∧ (s.init.isReturned = true → k' = k) ∧ s.JobsChange a l l' := by
  obtain ⟨k', workers, same⟩ := h.workers.step st
  obtain ⟨l', jobs, change⟩ := st.pushed h.jobs own
  have balanced : u.Balanced l' :=
    st.balanced h.owned h.balanced h.jobs.chain h.seen (fun i hi => h.workers.notStarted hi) change
  exact ⟨k', l', ⟨st.lockOwned h.owned h.workers, workers, jobs, st.seenEmpty h.owned h.seen,
    balanced⟩, same, change⟩

/-- Every reachable state satisfies the invariant. -/
theorem coherent_of_run {s₀ : State n κ J} {tr : List (State n κ J × Action n κ J)}
    (initial : Initial s₀) (run : (machine n κ J).Run s₀ tr s) (own : Along State.OwnsBlock tr) :
    ∃ k l, Coherent s k l := by
  refine run.invariant (I := fun s => ∃ k l, Coherent s k l) own ⟨0, [], .of_initial initial⟩ ?_
  rintro s a u ⟨k, l, h⟩ owns taken
  obtain ⟨k', l', h', -⟩ := (step_cases taken).coherent h owns
  exact ⟨k', l', h'⟩

end JiaTuanServer.Workqueue

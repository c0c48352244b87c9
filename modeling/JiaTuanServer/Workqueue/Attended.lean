import JiaTuanServer.Workqueue.Stopping

/-!
# The workers attend to the queue

Two facts about `worker_function` beside the lock and the list: once `workqueue_init` has succeeded
every worker runs, and a worker that has passed the inner loop without being told to stop finds a
job, because it does not unlock `jobs_mutex` in between.
-/

namespace JiaTuanServer.Workqueue

open Transition Machine

variable {n : ℕ} {κ J : Type}

structure Attended (s : State n κ J) : Prop where
  started : s.init = .returned 0 → ∀ w, s.pc w ≠ .notStarted
  finds : ∀ w, s.pc w = .takeJob ∨ s.pc w = .testTerminate ∧ s.terminate w = false →
    s.waitingJobs ≠ none

variable {s u : State n κ J} {k : ℕ}

theorem Attended.of_initial (h : Initial s) : Attended s where
  started returned := by simp [h.init] at returned
  finds w := by simp [h.pc w]

variable [DecidableEq J]

/-- A worker that moves leaves a job for those that were to find one, and finds one itself. -/
theorem WorkerStep.finds {w : Fin n} (st : WorkerStep s w u) (owned : s.LockOwned)
    (h : Attended s) (v : Fin n)
    (hv : u.pc v = .takeJob ∨ u.pc v = .testTerminate ∧ u.terminate v = false) :
    u.waitingJobs ≠ none := by
  by_cases hvw : v = w
  · subst hvw
    cases st with
    | someJob at_test nonempty => exact nonempty
    | proceed at_test flag => exact h.finds v (.inr ⟨at_test, flag⟩)
    | _ => simp_all
  · cases st with
    | take job at_take head =>
      -- worker `w` owns the lock, so nobody else stands behind its own lock
      have mine : s.holdsLock (.worker w) = true := by
        simp [State.holdsLock, at_take, WorkerPc.holdsLock]
      have other : s.holdsLock (.worker v) = true := by
        simp only [State.goto_pc, ne_eq, hvw, not_false_eq_true, Function.update_of_ne] at hv
        rcases hv with e | ⟨e, -⟩ <;> simp [State.holdsLock, e, WorkerPc.holdsLock]
      exact absurd (Thread.worker.inj (owned.unique other mine)) hvw
    | _ => exact h.finds v (by simpa [hvw] using hv)

variable [DecidableEq κ]

/-- Every step keeps both facts. -/
theorem Step.attended {a : Action n κ J} (st : Step s a u) (owned : s.LockOwned)
    (workers : Workers s k) (h : Attended s) : Attended u := by
  have on {v : Fin n} (was : s.pc v ≠ .notStarted) : u.pc v ≠ .notStarted := st.started was
  have moved {v w : Fin n} {pc : WorkerPc J} (other : pc ≠ .takeJob ∧ pc ≠ .testTerminate)
      (hw : Function.update s.pc v pc w = .takeJob ∨
        Function.update s.pc v pc w = .testTerminate ∧ s.terminate w = false) :
      s.waitingJobs ≠ none := by
    by_cases hwv : w = v
    · subst hwv; simp [other] at hw
    · exact h.finds w (by simpa [hwv] using hw)
  have woken {ws : Finset (Fin n)} {w : Fin n} (hw : (s.wakeAll ws).pc w = .takeJob ∨
      (s.wakeAll ws).pc w = .testTerminate ∧ s.terminate w = false) : s.waitingJobs ≠ none := by
    by_cases hws : w ∈ ws
    · simp [hws] at hw
    · exact h.finds w (by simpa [hws] using hw)
  cases st with
  | worker st =>
    refine ⟨fun returned w => on (h.started ?_ w), st.finds owned h⟩
    cases st <;> exact returned
  | init st =>
    cases st with
    | create i at_create => exact ⟨by simp, fun w hw => moved (by simp) hw⟩
    | insert i at_insert => exact ⟨by simp, h.finds⟩
    | fail i at_create => exact ⟨by simp, h.finds⟩
    | done i all at_create =>
      refine ⟨fun _ w => (workers.started w).mpr (.inl ?_), h.finds⟩
      have counted : i = k := workers.counted i (by simp [at_create, InitPc.inserted])
      omega
  | caller st =>
    cases st with
    | add job at_add => exact ⟨h.started, by simp⟩
    | signal job at_signal waiting one =>
      exact ⟨fun returned w => on (h.started returned w), fun w hw => woken hw⟩
    | _ => exact ⟨h.started, h.finds⟩
  | shutdown st =>
    cases st with
    | setTerminate v at_set =>
      refine ⟨h.started, fun w hw => h.finds w (hw.imp_right fun testing => ⟨testing.1, ?_⟩)⟩
      have clear := testing.2
      by_cases hwv : w = v
      · simp [hwv] at clear
      · simpa [hwv] using clear
    | clearJobs at_clear =>
      refine ⟨h.started, fun w hw => ?_⟩
      have mine : s.holdsLock .shutdown = true := by
        simp [State.holdsLock, at_clear, ShutdownPc.inSection]
      have other : s.holdsLock (.worker w) = true := by
        rcases hw with e | ⟨e, -⟩ <;>
          (have e := e; simp only at e; simp [State.holdsLock, e, WorkerPc.holdsLock])
      exact absurd (owned.unique mine other) (by simp)
    | broadcast at_broadcast =>
      exact ⟨fun returned w => on (h.started returned w), fun w hw => woken hw⟩
    | _ => exact ⟨h.started, h.finds⟩
  | jobReturns job at_run =>
    exact ⟨fun returned w => on (h.started returned w), fun w hw => moved (by simp) hw⟩
  | wake at_wait =>
    exact ⟨fun returned w => on (h.started returned w), fun w hw => moved (by simp) hw⟩
  | _ => exact ⟨h.started, h.finds⟩

omit [DecidableEq κ] [DecidableEq J] in
/-- While `workqueue_shutdown` has not been called no worker is told to stop. -/
theorem Workers.clear (h : Workers s k) (calm : s.shutdown = .notCalled) (w : Fin n) :
    s.terminate w = false := by
  by_contra flag
  have set := (h.flags w).mp (by simpa using flag)
  simp [calm, ShutdownPc.flagged] at set

/-- `workqueue_init` returns once. -/
theorem Step.init_returned {a : Action n κ J} (st : Step s a u) {status : ℕ}
    (returned : s.init = .returned status) : u.init = .returned status := by
  cases st with
  | init st => cases st <;> simp_all
  | worker st => cases st <;> exact returned
  | caller st => cases st <;> exact returned
  | shutdown st => cases st <;> exact returned
  | _ => exact returned

/-- Only the owner of the lock changes what a worker at the head of the queue finds there. -/
theorem Step.head_of_takeJob {a : Action n κ J} (st : Step s a u) (owned : s.LockOwned)
    (workers : Workers s k) {w : Fin n} (at_take : s.pc w = .takeJob) (other : a ≠ .worker w) :
    u.pc w = .takeJob ∧ u.waitingJobs = s.waitingJobs := by
  have mine : s.holdsLock (.worker w) = true := by
    simp [State.holdsLock, at_take, WorkerPc.holdsLock]
  have alone {t : Thread n κ} (held : s.holdsLock t = true) (ht : t ≠ .worker w) : False :=
    ht (owned.unique held mine)
  have stays {v : Fin n} {pc : WorkerPc J} (hv : s.pc v ≠ .takeJob) :
      Function.update s.pc v pc w = .takeJob := by
    have hwv : w ≠ v := fun e => hv (e ▸ at_take)
    simpa [hwv] using at_take
  have woken {ws : Finset (Fin n)} (hws : ws ⊆ s.sleepers) : (s.wakeAll ws).pc w = .takeJob := by
    have hw : w ∉ ws := fun hw => by simp [mem_sleepers.mp (hws hw)] at at_take
    simpa [hw] using at_take
  cases st with
  | @worker v u st =>
    have hwv : w ≠ v := fun e => other (e ▸ rfl)
    cases st with
    | take job at_take' head =>
      refine (alone (t := .worker v) ?_ ?_).elim
      · simp [State.holdsLock, at_take', WorkerPc.holdsLock]
      · exact fun e => hwv (Thread.worker.inj e).symm
    | _ => exact ⟨by simpa [hwv] using at_take, rfl⟩
  | init st =>
    cases st with
    | create i at_create => exact ⟨stays (by simp [workers.notStarted at_create]), rfl⟩
    | _ => exact ⟨at_take, rfl⟩
  | @caller c signalled u st =>
    cases st with
    | add job at_add =>
      exact (alone (t := .caller c) (by simp [State.holdsLock, at_add, CallerPc.inSection])
        (by simp)).elim
    | signal job at_signal waiting one => exact ⟨woken waiting, rfl⟩
    | _ => exact ⟨at_take, rfl⟩
  | shutdown st =>
    cases st with
    | clearJobs at_clear =>
      exact (alone (t := .shutdown) (by simp [State.holdsLock, at_clear, ShutdownPc.inSection])
        (by simp)).elim
    | broadcast at_broadcast => exact ⟨woken subset_rfl, rfl⟩
    | _ => exact ⟨at_take, rfl⟩
  | jobReturns job at_run => exact ⟨stays (by simp [at_run]), rfl⟩
  | wake at_wait => exact ⟨stays (by simp [at_wait]), rfl⟩
  | _ => exact ⟨at_take, rfl⟩

end JiaTuanServer.Workqueue

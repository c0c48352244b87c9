import JiaTuanServer.Workqueue.Stopping

/-!
# Workers that leave with jobs_mutex

`worker_function` unlocks `jobs_mutex` after taking a job and inside `pthread_cond_wait`, but both
of its `break`s leave the lock section without unlocking. A worker that holds the lock with its
`terminate` flag set and has not passed the last test keeps the lock for ever: it is doomed. A step
dooms a worker exactly when a flagged worker locks `jobs_mutex` or when the traversal sets the flag
of a worker that stands between its lock and its last test.
-/

namespace JiaTuanServer.Workqueue

open Transition Machine

variable {n : ℕ} {κ J : Type}

/-- With its flag set, a worker that stands here never unlocks `jobs_mutex` again. -/
def WorkerPc.keepsLock : WorkerPc J → Bool
  | .testJobs | .testTerminateInner | .testTerminate | .free | .exit | .exited => true
  | _ => false

namespace State

/-- No worker that has been told to stop is on its way out with the lock. -/
def Undoomed (s : State n κ J) : Prop := ∀ w, s.terminate w = true → (s.pc w).keepsLock = false

/-- No worker whose flag is set locks `jobs_mutex`, on entry or after a wait, and the traversal
does not set the flag of a worker between its lock and its last test of the flag. -/
def StopsOutside (s : State n κ J) : Action n κ J → Prop
  | .worker w => s.terminate w = true → s.pc w ≠ .lock ∧ s.pc w ≠ .woken
  | .shutdown => ∀ w, s.shutdown = .setTerminate w → (s.pc w).keepsLock = false
  | _ => True

end State

variable {s u : State n κ J} {k : ℕ} [DecidableEq κ] [DecidableEq J]

/-- A worker on its way out with the lock stays on its way out, through every step. -/
theorem Step.doomed {a : Action n κ J} (st : Step s a u) (workers : Workers s k) {w : Fin n}
    (h : s.terminate w = true ∧ (s.pc w).keepsLock = true) :
    u.terminate w = true ∧ (u.pc w).keepsLock = true := by
  obtain ⟨flag, keeps⟩ := h
  have elsewhere {v : Fin n} {pc : WorkerPc J} (hv : (s.pc v).keepsLock = false) :
      (Function.update s.pc v pc w).keepsLock = true := by
    have hne : w ≠ v := fun e => by simp [← e, keeps] at hv
    simpa [hne] using keeps
  have awake {ws : Finset (Fin n)} (hws : ws ⊆ s.sleepers) :
      ((s.wakeAll ws).pc w).keepsLock = true := by
    have hne : w ∉ ws := fun hw => by
      simp [mem_sleepers.mp (hws hw), WorkerPc.keepsLock] at keeps
    simpa [hne] using keeps
  cases st with
  | @worker v u st =>
    by_cases hv : w = v
    · subst hv
      cases st <;> simp_all [WorkerPc.keepsLock]
    · have same : u.terminate = s.terminate ∧ u.pc w = s.pc w := by
        cases st <;> simp [hv]
      exact ⟨same.1 ▸ flag, same.2 ▸ keeps⟩
  | init st =>
    cases st with
    | create i at_create =>
      exact ⟨flag, elsewhere (by simp [workers.notStarted at_create, WorkerPc.keepsLock])⟩
    | _ => exact ⟨flag, keeps⟩
  | caller st =>
    cases st with
    | signal job at_signal waiting one => exact ⟨flag, awake waiting⟩
    | _ => exact ⟨flag, keeps⟩
  | shutdown st =>
    cases st with
    | setTerminate v at_set => exact ⟨by by_cases hv : w = v <;> simp [hv, flag], keeps⟩
    | broadcast at_broadcast => exact ⟨flag, awake subset_rfl⟩
    | _ => exact ⟨flag, keeps⟩
  | jobReturns job at_run => exact ⟨flag, elsewhere (by simp [at_run, WorkerPc.keepsLock])⟩
  | wake at_wait => exact ⟨flag, elsewhere (by simp [at_wait, WorkerPc.keepsLock])⟩
  | _ => exact ⟨flag, keeps⟩

/-- Its lock is never free again. -/
theorem Sound.kept_of_doomed (h : Sound s k) {w : Fin n}
    (doomed : s.terminate w = true ∧ (s.pc w).keepsLock = true) {A : Action n κ J → Prop}
    {t : State n κ J} (rest : (machine n κ J).Leads A s t) :
    t.jobsMutex = some (.worker w) := by
  have last : (∃ k, Sound t k) ∧ t.terminate w = true ∧ (t.pc w).keepsLock = true := by
    refine rest.invariant (I := fun s => (∃ k, Sound s k) ∧ s.terminate w = true ∧
      (s.pc w).keepsLock = true) ⟨⟨k, h⟩, doomed⟩ ?_
    rintro s a u ⟨⟨k, h⟩, doomed⟩ - taken
    obtain ⟨k', h', -⟩ := (step_cases taken).sound h
    exact ⟨⟨k', h'⟩, (step_cases taken).doomed h.workers doomed⟩
  obtain ⟨⟨k', h'⟩, -, keeps⟩ := last
  refine (h'.owned _).mpr ?_
  cases hpc : t.pc w <;> simp_all [State.holdsLock, WorkerPc.holdsLock, WorkerPc.keepsLock]

/-- A step that meets the condition dooms nobody. -/
theorem Step.undoomed {a : Action n κ J} (st : Step s a u)
    (clear : s.Undoomed) (ok : s.StopsOutside a) : u.Undoomed := by
  have moved {v : Fin n} {pc : WorkerPc J} (hpc : s.terminate v = true → pc.keepsLock = false) :
      ∀ w, s.terminate w = true → (Function.update s.pc v pc w).keepsLock = false := by
    intro w flag
    by_cases hw : w = v
    · subst hw; simpa using hpc flag
    · simpa [hw] using clear w flag
  have woken {ws : Finset (Fin n)} :
      ∀ w, s.terminate w = true → ((s.wakeAll ws).pc w).keepsLock = false := by
    intro w flag
    by_cases hw : w ∈ ws
    · simp [hw, WorkerPc.keepsLock]
    · simpa [hw] using clear w flag
  cases st with
  | @worker v u st =>
    -- what worker `v` leaves behind it, or a flag it has just seen clear
    have here := clear v
    cases st with
    | acquire at_lock unowned =>
      refine moved fun flag => ?_
      have out := ok flag
      rcases at_lock with e | e <;> simp [e] at out
    | _ => exact moved (by simp_all [WorkerPc.keepsLock])
  | init st =>
    cases st with
    | create i at_create => exact moved (by simp [WorkerPc.keepsLock])
    | _ => exact clear
  | caller st =>
    cases st with
    | signal job at_signal waiting one => exact woken
    | _ => exact clear
  | shutdown st =>
    cases st with
    | setTerminate v at_set =>
      intro w flag
      by_cases hw : w = v
      · exact hw ▸ ok v at_set
      · exact clear w (by simpa [hw] using flag)
    | broadcast at_broadcast => exact woken
    | _ => exact clear
  | jobReturns job at_run => exact moved (by simp [WorkerPc.keepsLock])
  | wake at_wait => exact moved (by simp [WorkerPc.keepsLock])
  | _ => exact clear

/-- A step that breaks the condition dooms a worker. -/
theorem Step.not_undoomed {a : Action n κ J} (st : Step s a u) (bad : ¬ s.StopsOutside a) :
    ¬ u.Undoomed := by
  intro clear
  cases st with
  | @worker w u st =>
    simp only [State.StopsOutside, not_forall] at bad
    obtain ⟨flag, bad⟩ := bad
    have entering : s.pc w = .lock ∨ s.pc w = .woken := by tauto
    cases st with
    | acquire at_lock unowned =>
      have last := clear w flag
      simp [WorkerPc.keepsLock] at last
    | _ => simp_all
  | shutdown st =>
    simp only [State.StopsOutside, not_forall] at bad
    obtain ⟨w, at_set, keeps⟩ := bad
    cases st with
    | setTerminate v at_set' =>
      have hv : v = w := by simpa [at_set'] using at_set
      exact keeps (clear w (by simp [hv]))
    | _ => simp_all
  | _ => exact bad trivial


end JiaTuanServer.Workqueue

import JiaTuanServer.Workqueue.Progress

/-!
# The queue lock and the termination of workers

The result is exact: in every state of a run the lock can be acquired again, and after
`workqueue_shutdown` no worker is stuck, if and only if no worker that has been told to stop locks
`jobs_mutex` and the traversal sets no flag of a worker between its lock and its last test.
-/

namespace JiaTuanServer.Workqueue

open Transition Machine

variable {n : ℕ} {κ J : Type}

/-- A flagged worker with the lock within reach is at most this many steps away from its exit. -/
def WorkerPc.stepsToExit : WorkerPc J → ℕ
  | .lock | .woken => 6
  | .testJobs => 5
  | .testTerminateInner => 4
  | .testTerminate => 3
  | .free => 2
  | .exit => 1
  | _ => 0

variable [DecidableEq κ] [DecidableEq J]

/-- The queue lock survives: a live thread inside its lock section owns it or nobody does, it can
become free again, after `workqueue_shutdown` every worker can still get to its exit or to a job,
and a caller that waits for the lock can still get it. -/
structure State.LockSurvives (s : State n κ J) : Prop where
  usable : s.LockUsable
  released : ∃ t, (machine n κ J).Leads Action.IsOwn s t ∧ t.jobsMutex = none
  unstuck : s.shutdown = .returned → ∀ w, s.pc w ≠ .notStarted →
    ∃ t, (machine n κ J).Leads Action.IsOwn s t ∧ (t.pc w = .exited ∨ ∃ j, t.pc w = .run j)
  acquired : ∀ c j, s.caller c = .lock j →
    ∃ t, (machine n κ J).Leads Action.IsOwn s t ∧ t.jobsMutex = some (.caller c)

variable {s u : State n κ J} {k : ℕ}

/-- A flagged worker that can get the lock, or has it, gets to its exit. -/
theorem worker_exits {w : Fin n} (flag : s.terminate w = true)
    (ready : (s.pc w).keepsLock = true ∨ s.jobsMutex = none ∧ (s.pc w = .lock ∨ s.pc w = .woken)) :
    ∃ t, (machine n κ J).Leads Action.IsOwn s t ∧ t.pc w = .exited := by
  refine Leads.of_rank (P := fun v => v.terminate w = true ∧ ((v.pc w).keepsLock = true ∨
    v.jobsMutex = none ∧ (v.pc w = .lock ∨ v.pc w = .woken)))
    (fun v => (v.pc w).stepsToExit) ?_ ⟨flag, ready⟩
  rintro v ⟨flag, ready⟩
  by_cases done : v.pc w = .exited
  · exact .inl done
  obtain ⟨u, taken⟩ : ∃ u, workerFunction v w = some u := by
    cases hpc : v.pc w <;> simp_all [workerFunction, WorkerPc.keepsLock]
  refine .inr ⟨.worker w, u, trivial, taken, ?_⟩
  cases workerFunction_cases taken with
  | acquire at_lock unowned =>
    refine ⟨⟨flag, .inl (by simp [WorkerPc.keepsLock])⟩, ?_⟩
    rcases at_lock with e | e <;> simp [e, WorkerPc.stepsToExit]
  | noJobs at_pc | someJob at_pc | breakInner at_pc | breakOuter at_pc | free at_pc | exit at_pc =>
    exact ⟨⟨flag, .inl (by simp [WorkerPc.keepsLock])⟩, by simp [at_pc, WorkerPc.stepsToExit]⟩
  | _ => simp_all [WorkerPc.keepsLock]

/-- After `workqueue_shutdown` has returned and while the lock is free, every worker gets to its
exit or to a job. -/
theorem worker_finishes (h : Sound s k) (returned : s.shutdown = .returned)
    (unowned : s.jobsMutex = none) {w : Fin n} (on : s.pc w ≠ .notStarted) :
    ∃ t, (machine n κ J).Leads Action.IsOwn s t ∧ (t.pc w = .exited ∨ ∃ j, t.pc w = .run j) := by
  have flag : s.terminate w = true :=
    h.workers.flag_of_hasLocked (by simp [returned, ShutdownPc.hasLocked]) on
  have outside : (s.pc w).holdsLock = false := by
    by_contra held
    have owner := (h.owned (.worker w)).mpr (by simpa [State.holdsLock] using held)
    simp [unowned] at owner
  cases hpc : s.pc w with
  | notStarted => exact absurd hpc on
  | lock | woken =>
    obtain ⟨t, leads, out⟩ := worker_exits flag (.inr ⟨unowned, by simp [hpc]⟩)
    exact ⟨t, leads, .inl out⟩
  | asleep =>
    exact absurd hpc (h.stopping.noSleep (by simp [returned, ShutdownPc.hasBroadcast]) w)
  | testJob job =>
    cases job with
    | none =>
      have taken : step s (.worker w) = some (s.goto w .lock) := by
        simp only [step, workerFunction, hpc]
      obtain ⟨t, leads, out⟩ := worker_exits (s := s.goto w .lock) flag
        (.inr ⟨unowned, by simp⟩)
      exact ⟨t, leads.head (a := .worker w) trivial taken, .inl out⟩
    | some job =>
      have taken : step s (.worker w) = some (s.goto w (.run job)) := by
        simp only [step, workerFunction, hpc]
      exact ⟨_, .single (a := .worker w) trivial taken, .inr ⟨job, by simp⟩⟩
  | run job => exact ⟨s, .refl _ _, .inr ⟨job, hpc⟩⟩
  | _ => simp [hpc, WorkerPc.holdsLock] at outside

theorem Leads.sound {A : Action n κ J → Prop} (h : Sound s k)
    (leads : (machine n κ J).Leads A s u) : ∃ k, Sound u k := by
  refine leads.invariant (I := fun s => ∃ k, Sound s k) ⟨k, h⟩ ?_
  rintro s a u ⟨k, h⟩ - taken
  obtain ⟨k', h', -⟩ := (step_cases taken).sound h
  exact ⟨k', h'⟩

/-- In a reachable state the lock survives exactly when no flagged worker is on its way out with
it. -/
theorem Sound.lockSurvives_iff (h : Sound s k) : s.LockSurvives ↔ s.Undoomed := by
  constructor
  · rintro survives w flag
    by_contra keeps
    obtain ⟨t, leads, free⟩ := survives.released
    have kept := h.kept_of_doomed ⟨flag, by simpa using keeps⟩ leads
    simp [free] at kept
  intro clear
  obtain ⟨u, leads, free, frame⟩ := lock_released h clear
  obtain ⟨k', h'⟩ := Leads.sound h leads
  refine ⟨h.lockUsable clear, ⟨u, leads, free⟩, fun returned w on => ?_, fun c j waits => ?_⟩
  · have returned' : u.shutdown = .returned := by
      rcases frame with ⟨-, rfl⟩ | ⟨t, owner, others⟩
      · exact returned
      · refine (others.shutdown ?_).trans returned
        rintro rfl
        have live := h.lockUsable clear _ owner
        simp [State.inSection, returned, ShutdownPc.inSection] at live
    have on' : u.pc w ≠ .notStarted := by
      refine leads.invariant (I := fun s => s.pc w ≠ .notStarted) on ?_
      exact fun s a u on _ taken => (step_cases taken).started on
    obtain ⟨t, rest, goal⟩ := worker_finishes h' returned' free on'
    exact ⟨t, leads.trans rest, goal⟩
  · have waits' : u.caller c = .lock j := by
      rcases frame with ⟨-, rfl⟩ | ⟨t, owner, others⟩
      · exact waits
      · refine (others.callers c ?_).trans waits
        rintro rfl
        have live := h.lockUsable clear _ owner
        simp [State.inSection, waits, CallerPc.inSection] at live
    have taken : step u (.caller c ∅) =
        some { u.callerGoto c (.add j) with jobsMutex := some (.caller c) } := by
      simp only [step, workqueueAddJob, waits', free, if_true]
    exact ⟨_, leads.trans (.single (a := .caller c ∅) trivial taken), rfl⟩

/-- Exactly in the runs in which no worker with its flag set locks `jobs_mutex`, and no flag is set
behind a worker's lock, the queue lock survives in every state. -/
theorem lock_survives_iff {s₀ s : State n κ J} {tr : List (State n κ J × Action n κ J)}
    (initial : Initial s₀) (run : (machine n κ J).Run s₀ tr s) :
    (∀ u ∈ visited tr s, u.LockSurvives) ↔ Along State.StopsOutside tr := by
  have undoomed : (∀ u ∈ visited tr s, u.Undoomed) ↔ Along State.StopsOutside tr := by
    refine run.forall_visited_iff (I := fun _ => True) trivial ?_ (fun _ _ _ _ _ => trivial) ?_ ?_
    · intro w flag
      simp [initial.terminate w] at flag
    · exact fun s a u _ clear ok taken => (step_cases taken).undoomed clear ok
    · exact fun s a u _ bad taken => (step_cases taken).not_undoomed bad
  rw [← undoomed]
  refine forall₂_congr fun u visited => ?_
  obtain ⟨tr', -, run'⟩ := run.prefix_of_visited visited
  obtain ⟨k, h⟩ := sound_of_run initial run'
  exact h.lockSurvives_iff

/-- A test of `StopsOutside`. -/
def State.stopsOutsideTest (s : State n κ J) : Action n κ J → Bool
  | .worker w => !s.terminate w
  | .shutdown => decide (∀ w, s.shutdown = .setTerminate w → (s.pc w).keepsLock = false)
  | _ => true

omit [DecidableEq κ] [DecidableEq J] in
theorem stopsOutside_of_test (s : State n κ J) (a : Action n κ J)
    (h : s.stopsOutsideTest a = true) : s.StopsOutside a := by
  cases a with
  | worker w => intro flag; simp [State.stopsOutsideTest, flag] at h
  | shutdown =>
    have behind : ∀ w, s.shutdown = .setTerminate w → (s.pc w).keepsLock = false :=
      of_decide_eq_true h
    exact behind
  | _ => trivial

/-- Two workers are started and the queue is stopped while both wait for a job: the flags are set
and the waiters woken, and the lock is free. -/
theorem lock_survives_waiting :
    ∃ (tr : List (State 2 Unit ℕ × Action 2 Unit ℕ)) (s : State 2 Unit ℕ),
      (machine 2 Unit ℕ).Run start tr s ∧ s.shutdown = .returned ∧ s.pc 0 = .woken ∧
      ∀ u ∈ visited tr s, u.LockSurvives := by
  let acts : List (Action 2 Unit ℕ) := List.flatten [
    List.replicate 5 (.init true), List.replicate 4 (.worker 0), List.replicate 4 (.worker 1),
    [.callShutdown], List.replicate 9 .shutdown]
  have ends : ((machine 2 Unit ℕ).exec start acts).map (fun s => (s.shutdown, s.pc 0)) =
      some (.returned, .woken) := by decide +kernel
  obtain ⟨s, hs, h⟩ := Option.map_eq_some_iff.mp ends
  obtain ⟨returned, woken⟩ := Prod.mk.inj h
  exact ⟨_, s, run_of_exec hs, returned, woken,
    (lock_survives_iff start_initial (run_of_exec hs)).mpr
      (along_of_check stopsOutside_of_test (by decide +kernel))⟩

/-- Two workers wait for a job when the queue is stopped. Worker 0 wakes up with the lock, leaves
both loops and exits, and from then on it owns `jobs_mutex` whatever happens. -/
theorem lock_lost_after_shutdown :
    ∃ (tr : List (State 2 Unit ℕ × Action 2 Unit ℕ)) (s : State 2 Unit ℕ),
      (machine 2 Unit ℕ).Run start tr s ∧ s.shutdown = .returned ∧ s.pc 0 = .exited ∧
      s.pc 1 = .woken ∧ ¬ s.LockUsable ∧ ¬ s.LockSurvives ∧
      ∀ t, (machine 2 Unit ℕ).Leads (fun _ => True) s t → t.jobsMutex = some (.worker 0) := by
  let acts : List (Action 2 Unit ℕ) := List.flatten [
    List.replicate 5 (.init true), List.replicate 4 (.worker 0), List.replicate 4 (.worker 1),
    [.callShutdown], List.replicate 9 .shutdown, List.replicate 6 (.worker 0)]
  have ends : ((machine 2 Unit ℕ).exec start acts).map
      (fun s => (s.shutdown, s.pc 0, s.pc 1, s.terminate 0)) =
      some (.returned, .exited, .woken, true) := by decide +kernel
  obtain ⟨s, hs, h⟩ := Option.map_eq_some_iff.mp ends
  simp only [Prod.mk.injEq] at h
  obtain ⟨returned, out, woken, flag⟩ := h
  have doomed : s.terminate 0 = true ∧ (s.pc 0).keepsLock = true :=
    ⟨flag, by simp [out, WorkerPc.keepsLock]⟩
  obtain ⟨k, sound⟩ := sound_of_run start_initial (run_of_exec hs)
  have kept : ∀ t, (machine 2 Unit ℕ).Leads (fun _ => True) s t → t.jobsMutex = some (.worker 0) :=
    fun t leads => sound.kept_of_doomed doomed leads
  have unusable : ¬ s.LockUsable := fun usable => by
    have live := usable _ (kept s (.refl _ _))
    simp [State.inSection, out, WorkerPc.inSection] at live
  exact ⟨_, s, run_of_exec hs, returned, out, woken, unusable,
    fun survives => unusable survives.usable, kept⟩

end JiaTuanServer.Workqueue

import JiaTuanServer.Workqueue.Invariant

/-!
# Nobody waits once the waiters have been woken

`workqueue_shutdown` sets every flag before it takes the lock, and a worker tests its flag under
the lock before it waits. So once the shutdown has had the lock no worker starts to wait, and after
its broadcast no worker waits on `jobs_cond` at all. `Sound` is the part of the invariant of the
work queue that holds whatever is added to the queue.
-/

namespace JiaTuanServer.Workqueue

open Transition Machine

variable {n : ℕ} {κ J : Type}

/-- `workqueue_shutdown` has locked `jobs_mutex`. -/
def ShutdownPc.hasLocked : ShutdownPc n → Bool
  | .clearWorkers | .clearJobs | .broadcast | .unlock | .returned => true
  | _ => false

/-- `workqueue_shutdown` has woken the waiters. -/
def ShutdownPc.hasBroadcast : ShutdownPc n → Bool
  | .unlock | .returned => true
  | _ => false

/-- Once `workqueue_shutdown` has the lock nobody starts to wait, and after its broadcast nobody
waits. -/
structure Stopping (s : State n κ J) : Prop where
  noWait : s.shutdown.hasLocked = true → ∀ w, s.pc w ≠ .condWait
  noSleep : s.shutdown.hasBroadcast = true → ∀ w, s.pc w ≠ .asleep

/-- The part of the invariant that does not depend on the jobs. -/
structure Sound (s : State n κ J) (k : ℕ) : Prop where
  owned : s.LockOwned
  workers : Workers s k
  stopping : Stopping s

variable {s u : State n κ J} {k : ℕ}

theorem Sound.of_initial (h : Initial s) : Sound s 0 where
  owned := (Coherent.of_initial h).owned
  workers := .of_initial h
  stopping := ⟨fun _ w => by simp [h.pc w], fun _ w => by simp [h.pc w]⟩

theorem ShutdownPc.hasLocked_of_hasBroadcast {pc : ShutdownPc n} (h : pc.hasBroadcast = true) :
    pc.hasLocked = true := by
  cases pc <;> simp_all [hasBroadcast, hasLocked]

@[simp] theorem ShutdownPc.hasLocked_traverse (p : Option (Fin n)) :
    (ShutdownPc.traverse p).hasLocked = false := by cases p <;> rfl

/-- Once the traversal of `workqueue_shutdown` is over every worker that runs is flagged. -/
theorem Workers.flag_of_traversed (h : Workers s k) (traversed : s.shutdown.traversed = true)
    {w : Fin n} (on : s.pc w ≠ .notStarted) : s.terminate w = true := by
  have called : s.init.isReturned = true := by
    apply h.called
    intro e
    simp [e, ShutdownPc.traversed] at traversed
  have started : w.val < k := by
    rcases (h.started w).mp on with lt | inserting
    · exact lt
    · simp [inserting, InitPc.isReturned] at called
  refine (h.flags w).mpr ⟨started, ?_⟩
  cases hs : s.shutdown <;> simp_all [ShutdownPc.traversed, ShutdownPc.flagged]

theorem Workers.flag_of_hasLocked (h : Workers s k) (locked : s.shutdown.hasLocked = true)
    {w : Fin n} (on : s.pc w ≠ .notStarted) : s.terminate w = true := by
  refine h.flag_of_traversed ?_ on
  cases hs : s.shutdown <;> simp_all [ShutdownPc.hasLocked, ShutdownPc.traversed]

/-- A step after which each worker stands where it stood, or neither waits nor sleeps. -/
theorem Stopping.of_awake (h : Stopping s) (hs : u.shutdown = s.shutdown)
    (hpc : ∀ w, u.pc w = s.pc w ∨ u.pc w ≠ .condWait ∧ u.pc w ≠ .asleep) : Stopping u where
  noWait locked w := by
    rcases hpc w with e | e
    · exact e ▸ h.noWait (hs ▸ locked) w
    · exact e.1
  noSleep sent w := by
    rcases hpc w with e | e
    · exact e ▸ h.noSleep (hs ▸ sent) w
    · exact e.2

theorem pc_of_move (P : WorkerPc J → Prop) {w : Fin n} {pc : WorkerPc J}
    (hpc : u.pc = Function.update s.pc w pc) (moved : P pc) (v : Fin n) :
    u.pc v = s.pc v ∨ P (u.pc v) := by
  by_cases hv : v = w
  · subst hv; simp [hpc, moved]
  · simp [hpc, hv]

theorem pc_of_wakeAll (P : WorkerPc J → Prop) (woken : P .woken) (ws : Finset (Fin n))
    (v : Fin n) : (s.wakeAll ws).pc v = s.pc v ∨ P ((s.wakeAll ws).pc v) := by
  by_cases hv : v ∈ ws <;> simp [hv, woken]

theorem awake_of_move {w : Fin n} {pc : WorkerPc J} (hpc : u.pc = Function.update s.pc w pc)
    (awake : pc ≠ .condWait ∧ pc ≠ .asleep) (v : Fin n) :
    u.pc v = s.pc v ∨ u.pc v ≠ .condWait ∧ u.pc v ≠ .asleep :=
  pc_of_move (fun pc => pc ≠ .condWait ∧ pc ≠ .asleep) hpc awake v

theorem awake_of_wakeAll (ws : Finset (Fin n)) (v : Fin n) : (s.wakeAll ws).pc v = s.pc v ∨
    (s.wakeAll ws).pc v ≠ .condWait ∧ (s.wakeAll ws).pc v ≠ .asleep :=
  pc_of_wakeAll (fun pc => pc ≠ .condWait ∧ pc ≠ .asleep) (by simp) ws v

variable [DecidableEq J]

theorem WorkerStep.stopping {w : Fin n} (st : WorkerStep s w u) (h : Sound s k) : Stopping u := by
  cases st with
  | goOn at_test flag =>
    -- the flag is clear, so `workqueue_shutdown` has not had the lock yet
    have early : s.shutdown.hasLocked = false := by
      by_contra locked
      have set := h.workers.flag_of_hasLocked (by simpa using locked) (w := w) (by simp [at_test])
      simp [set] at flag
    refine ⟨fun locked => absurd locked (by simp [early]), fun sent => ?_⟩
    have locked := ShutdownPc.hasLocked_of_hasBroadcast sent
    exact absurd locked (by simp [early])
  | sleep at_wait =>
    have early : s.shutdown.hasLocked = false := by
      by_contra locked
      exact h.stopping.noWait (by simpa using locked) w at_wait
    refine ⟨fun locked => absurd locked (by simp [early]), fun sent => ?_⟩
    have locked := ShutdownPc.hasLocked_of_hasBroadcast sent
    exact absurd locked (by simp [early])
  | _ => exact h.stopping.of_awake rfl (awake_of_move rfl (by simp))

omit [DecidableEq J] in
theorem ShutdownStep.stopping (st : ShutdownStep s u) (h : Sound s k) : Stopping u := by
  cases st with
  | acquire at_lock unowned =>
    refine ⟨fun _ w at_wait => ?_, by simp [ShutdownPc.hasBroadcast]⟩
    have holds : s.holdsLock (.worker w) = true := by
      have at_wait : s.pc w = .condWait := at_wait
      simp [State.holdsLock, at_wait, WorkerPc.holdsLock]
    simpa [unowned] using (h.owned _).mpr holds
  | broadcast at_broadcast =>
    have noWait := h.stopping.noWait (by simp [at_broadcast, ShutdownPc.hasLocked])
    refine ⟨fun _ w => ?_, fun _ w => ?_⟩
    · rcases awake_of_wakeAll (s := s) s.sleepers w with e | e
      · exact e ▸ noWait w
      · exact e.1
    · by_cases hw : s.pc w = .asleep <;> simp [hw]
  | readNext w at_next => exact ⟨by simp, fun sent => by
      simpa using ShutdownPc.hasLocked_of_hasBroadcast sent⟩
  | release at_unlock =>
    exact ⟨fun _ => h.stopping.noWait (by simp [at_unlock, ShutdownPc.hasLocked]),
      fun _ => h.stopping.noSleep (by simp [at_unlock, ShutdownPc.hasBroadcast])⟩
  | setTerminate w at_set =>
    exact ⟨by simp [ShutdownPc.hasLocked], by simp [ShutdownPc.hasBroadcast]⟩
  | _ =>
    exact ⟨fun _ => h.stopping.noWait (by simp [*, ShutdownPc.hasLocked]),
      by simp [ShutdownPc.hasBroadcast]⟩

variable [DecidableEq κ]

/-- A thread that has been created stays created. -/
theorem Step.started {a : Action n κ J} (st : Step s a u) {w : Fin n}
    (on : s.pc w ≠ .notStarted) : u.pc w ≠ .notStarted := by
  have moved {v : Fin n} {pc : WorkerPc J} (hpc : pc ≠ .notStarted) :
      Function.update s.pc v pc w ≠ .notStarted := by
    by_cases hw : w = v
    · subst hw; simpa using hpc
    · simpa [hw] using on
  have woken (ws : Finset (Fin n)) : (s.wakeAll ws).pc w ≠ .notStarted := by
    by_cases hw : w ∈ ws <;> simp [hw, on]
  cases st with
  | worker st => cases st <;> exact moved (by simp)
  | init st =>
    cases st with
    | create i at_create => exact moved (by simp)
    | _ => exact on
  | caller st =>
    cases st with
    | signal job at_signal waiting one => exact woken _
    | _ => exact on
  | shutdown st =>
    cases st with
    | broadcast at_broadcast => exact woken _
    | _ => exact on
  | jobReturns job at_run => exact moved (by simp)
  | wake at_wait => exact moved (by simp)
  | _ => exact on

theorem Step.stopping {a : Action n κ J} (st : Step s a u) (h : Sound s k) : Stopping u := by
  cases st with
  | worker st => exact st.stopping h
  | shutdown st => exact st.stopping h
  | init st =>
    cases st with
    | create i at_create => exact h.stopping.of_awake rfl (awake_of_move rfl (by simp))
    | _ => exact h.stopping.of_awake rfl fun _ => .inl rfl
  | caller st =>
    cases st with
    | signal job at_signal waiting one =>
      exact h.stopping.of_awake rfl (awake_of_wakeAll _)
    | _ => exact h.stopping.of_awake rfl fun _ => .inl rfl
  | callShutdown started at_start =>
    exact ⟨by simp, fun sent => by simpa using ShutdownPc.hasLocked_of_hasBroadcast sent⟩
  | jobReturns job at_run => exact h.stopping.of_awake rfl (awake_of_move rfl (by simp))
  | wake at_wait => exact h.stopping.of_awake rfl (awake_of_move rfl (by simp))
  | _ => exact h.stopping.of_awake rfl fun _ => .inl rfl

theorem Step.sound {a : Action n κ J} (st : Step s a u) (h : Sound s k) :
    ∃ k', Sound u k' ∧ (s.init.isReturned = true → k' = k) := by
  obtain ⟨k', workers, same⟩ := h.workers.step st
  exact ⟨k', ⟨st.lockOwned h.owned h.workers, workers, st.stopping h⟩, same⟩

theorem sound_of_run {s₀ : State n κ J} {tr : List (State n κ J × Action n κ J)}
    (initial : Initial s₀) (run : (machine n κ J).Run s₀ tr s) : ∃ k, Sound s k := by
  refine run.always (I := fun s => ∃ k, Sound s k) ⟨0, .of_initial initial⟩ ?_
  rintro s a u ⟨k, h⟩ taken
  obtain ⟨k', h', -⟩ := (step_cases taken).sound h
  exact ⟨k', h'⟩

end JiaTuanServer.Workqueue

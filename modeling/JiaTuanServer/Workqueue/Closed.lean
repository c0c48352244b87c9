import JiaTuanServer.Workqueue.HandOff
import JiaTuanServer.Workqueue.Stopping

/-!
# The queue after a shutdown

A worker tests its flag under the lock between its last wait and its removal of a job, and every
flag is set before `workqueue_shutdown` takes the lock. So from there on no worker stands before a
removal, and `Stopping` says the same of the wait: whatever is added later stays where it is, and
nobody sleeps.
-/

namespace JiaTuanServer.Workqueue

open Transition Machine

variable {n : ℕ} {κ J : Type}

namespace State

/-- The step is a call of `pthread_cond_wait`. -/
def StartsWait (s : State n κ J) : Action n κ J → Prop
  | .worker w => s.pc w = .condWait
  | _ => False

/-- Once `workqueue_shutdown` has had the lock no worker is about to remove a job. -/
def NoTake (s : State n κ J) : Prop := s.shutdown.hasLocked = true → ∀ w, s.pc w ≠ .takeJob

end State

variable {s u : State n κ J} {k : ℕ}

theorem State.NoTake.of_elsewhere (h : s.NoTake) (hs : u.shutdown = s.shutdown)
    (hpc : ∀ w, u.pc w = s.pc w ∨ u.pc w ≠ .takeJob) : u.NoTake := by
  intro locked w
  rcases hpc w with e | e
  · exact e ▸ h (hs ▸ locked) w
  · exact e

variable [DecidableEq J]

theorem WorkerStep.noTake {w : Fin n} (st : WorkerStep s w u) (sound : Sound s k)
    (h : s.NoTake) : u.NoTake := by
  cases st with
  | proceed at_test flag =>
    -- the flag is clear, so `workqueue_shutdown` has not had the lock yet
    intro locked
    have set := sound.workers.flag_of_hasLocked locked (w := w) (by simp [at_test])
    simp [set] at flag
  | _ => exact h.of_elsewhere rfl (pc_of_move (· ≠ .takeJob) rfl (by simp))

omit [DecidableEq J] in
theorem ShutdownStep.noTake (st : ShutdownStep s u) (sound : Sound s k) (h : s.NoTake) :
    u.NoTake := by
  cases st with
  | setTerminate w at_set => simp [State.NoTake, ShutdownPc.hasLocked]
  | readNext w at_next => simp [State.NoTake]
  | acquire at_lock unowned =>
    intro _ w at_take
    have at_take : s.pc w = .takeJob := at_take
    have holds : s.holdsLock (.worker w) = true := by
      simp [State.holdsLock, at_take, WorkerPc.holdsLock]
    simpa [unowned] using (sound.owned _).mpr holds
  | broadcast at_broadcast =>
    intro _ w
    rcases pc_of_wakeAll (s := s) (· ≠ .takeJob) (by simp) s.sleepers w with e | e
    · exact e ▸ h (by simp [at_broadcast, ShutdownPc.hasLocked]) w
    · exact e
  | _ => exact fun _ => h (by simp [*, ShutdownPc.hasLocked])

variable [DecidableEq κ]

theorem Step.noTake {a : Action n κ J} (st : Step s a u) (sound : Sound s k) (h : s.NoTake) :
    u.NoTake := by
  cases st with
  | worker st => exact st.noTake sound h
  | shutdown st => exact st.noTake sound h
  | init st =>
    cases st with
    | create i at_create => exact h.of_elsewhere rfl (pc_of_move (· ≠ .takeJob) rfl (by simp))
    | _ => exact h.of_elsewhere rfl fun _ => .inl rfl
  | caller st =>
    cases st with
    | signal job at_signal waiting one =>
      exact h.of_elsewhere rfl (pc_of_wakeAll (· ≠ .takeJob) (by simp) _)
    | _ => exact h.of_elsewhere rfl fun _ => .inl rfl
  | callShutdown started at_start => simp [State.NoTake]
  | jobReturns job at_run => exact h.of_elsewhere rfl (pc_of_move (· ≠ .takeJob) rfl (by simp))
  | wake at_wait => exact h.of_elsewhere rfl (pc_of_move (· ≠ .takeJob) rfl (by simp))
  | _ => exact h.of_elsewhere rfl fun _ => .inl rfl

/-- `workqueue_shutdown` is over for good. -/
theorem Step.returned {a : Action n κ J} (st : Step s a u) (ended : s.shutdown = .returned) :
    u.shutdown = .returned := by
  cases st with
  | shutdown st => cases st <;> simp_all
  | callShutdown started at_start => simp [ended] at at_start
  | init st => cases st <;> exact ended
  | worker st => cases st <;> exact ended
  | caller st => cases st <;> exact ended
  | _ => exact ended

/-- The invariant of the queue after a shutdown. -/
structure Closed (s : State n κ J) : Prop where
  sound : ∃ k, Sound s k
  noTake : s.NoTake
  ended : s.shutdown = .returned

theorem Step.closed {a : Action n κ J} (st : Step s a u) (h : Closed s) : Closed u := by
  obtain ⟨k, sound⟩ := h.sound
  obtain ⟨k', sound', -⟩ := st.sound sound
  exact ⟨⟨k', sound'⟩, st.noTake sound h.noTake, st.returned h.ended⟩

namespace Closed

omit [DecidableEq J] [DecidableEq κ]

theorem sleepers (h : Closed s) : s.sleepers = ∅ := by
  obtain ⟨k, sound⟩ := h.sound
  have nobody := sound.stopping.noSleep (by simp [h.ended, ShutdownPc.hasBroadcast])
  exact Finset.eq_empty_of_forall_notMem fun w hw => nobody w (mem_sleepers.mp hw)

theorem not_startsWait (h : Closed s) (a : Action n κ J) : ¬ s.StartsWait a := by
  obtain ⟨k, sound⟩ := h.sound
  have nobody := sound.stopping.noWait (by simp [h.ended, ShutdownPc.hasLocked])
  cases a with
  | worker w => exact nobody w
  | _ => exact id

theorem removed (h : Closed s) (a : Action n κ J) : s.removed a = none := by
  cases a with
  | worker w =>
    have elsewhere := h.noTake (by simp [h.ended, ShutdownPc.hasLocked]) w
    cases at_pc : s.pc w <;> simp_all [State.removed]
  | _ => rfl

end Closed

/-- After the lock section of `workqueue_shutdown` every state is closed. -/
theorem closed_of_run {s₀ t : State n κ J} {p r : List (State n κ J × Action n κ J)}
    (initial : Initial s₀) (run : (machine n κ J).Run s₀ (p ++ (t, .shutdown) :: r) s)
    (last : t.shutdown = .unlock) : ∀ v ∈ visited r s, Closed v := by
  obtain ⟨before, v, taken, after⟩ := run.at_step
  have early : (∃ k, Sound t k) ∧ t.NoTake := by
    refine before.always (I := fun s => (∃ k, Sound s k) ∧ s.NoTake)
      ⟨⟨0, .of_initial initial⟩, fun _ w => by simp [initial.pc w]⟩ ?_
    rintro s a u ⟨⟨k, sound⟩, h⟩ taken
    obtain ⟨k', sound', -⟩ := (step_cases taken).sound sound
    exact ⟨⟨k', sound'⟩, (step_cases taken).noTake sound h⟩
  obtain ⟨⟨k, sound⟩, h⟩ := early
  have st : Step t .shutdown v := step_cases taken
  have first : Closed v := by
    obtain ⟨k', sound', -⟩ := st.sound sound
    refine ⟨⟨k', sound'⟩, st.noTake sound h, ?_⟩
    cases st with
    | shutdown st => cases st <;> simp_all
  intro w hw
  obtain ⟨r', -, run'⟩ := after.prefix_of_visited hw
  exact run'.always first fun s a u h taken => (step_cases taken).closed h

/-- From the end of the lock section of `workqueue_shutdown` on, no worker removes a job, no
worker calls `pthread_cond_wait`, and no thread waits on `jobs_cond`. -/
theorem nothing_starts_after_shutdown {s₀ t : State n κ J}
    {p r : List (State n κ J × Action n κ J)} (initial : Initial s₀)
    (run : (machine n κ J).Run s₀ (p ++ (t, .shutdown) :: r) s) (last : t.shutdown = .unlock) :
    (∀ x ∈ r, x.1.removed x.2 = none) ∧ (∀ x ∈ r, ¬ x.1.StartsWait x.2) ∧
      ∀ v ∈ visited r s, v.sleepers = ∅ := by
  have closed := closed_of_run initial run last
  have before {x : State n κ J × Action n κ J} (hx : x ∈ r) : Closed x.1 :=
    closed x.1 (List.mem_append_left _ (List.mem_map_of_mem hx))
  refine ⟨fun x hx => ?_, fun x hx => ?_, fun v hv => ?_⟩
  · exact (before hx).removed x.2
  · exact (before hx).not_startsWait x.2
  · exact (closed v hv).sleepers

/-- Two sleeping workers and a shutdown; a job is added after it, and both workers wake up. -/
theorem nothing_starts_after_shutdown_twoWorkers :
    ∃ (p r : List (State 2 Unit ℕ × Action 2 Unit ℕ)) (t s : State 2 Unit ℕ),
      (machine 2 Unit ℕ).Run start (p ++ (t, .shutdown) :: r) s ∧ t.shutdown = .unlock ∧
      s.waitingJobs = some 7 ∧ (∀ x ∈ r, x.1.removed x.2 = none) ∧
      (∀ x ∈ r, ¬ x.1.StartsWait x.2) ∧ ∀ v ∈ visited r s, v.sleepers = ∅ := by
  let first : List (Action 2 Unit ℕ) := List.flatten [
    List.replicate 5 (.init true), List.replicate 4 (.worker 0), List.replicate 4 (.worker 1),
    [.callShutdown], List.replicate 8 .shutdown]
  let second : List (Action 2 Unit ℕ) :=
    [.call () 7, .caller () ∅, .caller () ∅, .caller () ∅, .caller () ∅, .worker 0, .worker 0,
      .worker 0]
  have ends : ((machine 2 Unit ℕ).exec start first).map (·.shutdown) = some .unlock := by
    decide +kernel
  obtain ⟨t, ht, last⟩ := Option.map_eq_some_iff.mp ends
  have ends' : (((machine 2 Unit ℕ).exec start first).bind fun t =>
      ((machine 2 Unit ℕ).exec t (.shutdown :: second)).map (·.waitingJobs)) = some (some 7) := by
    decide +kernel
  rw [ht, Option.bind_some] at ends'
  obtain ⟨s, hs, waiting⟩ := Option.map_eq_some_iff.mp ends'
  have run := (run_of_exec ht).append (run_of_exec hs)
  exact ⟨_, _, t, s, run, last, waiting, nothing_starts_after_shutdown start_initial run last⟩

end JiaTuanServer.Workqueue

import JiaTuanServer.Workqueue.Workers

/-!
# The unlocked traversal of workqueue_shutdown

The traversal writes `worker->terminate` and then reads `worker->next`, both without the lock. A
worker can leave its loop as soon as its flag is set, and it frees its own `worker_t`, so the read
that follows the write may touch a freed block. The write itself is always safe: an unflagged
worker never leaves. The result is therefore exact: a run of the queue never touches a freed
worker if and only if no worker frees itself while the traversal stands between the two accesses.
-/

namespace JiaTuanServer.Workqueue

open Transition Machine

variable {n : ℕ} {κ J : Type}

/-- The `worker_t` that the next step of the traversal reads or writes. -/
def ShutdownPc.touches : ShutdownPc n → Option (Fin n)
  | .setTerminate worker => some worker
  | .readNext worker => some worker
  | _ => none

namespace State

/-- The traversal is not about to touch a freed `worker_t`. -/
def TraversalSafe (s : State n κ J) : Prop :=
  ∀ w, s.shutdown.touches = some w → s.freed w = false

/-- The step is not the `free(worker)` of the worker whose `next` the traversal reads next. -/
def FreesBehind (s : State n κ J) (a : Action n κ J) : Prop :=
  ∀ w, a = .worker w → s.pc w = .free → s.shutdown ≠ .readNext w

end State

variable {s u : State n κ J} {k : ℕ}

/-- The flag of the worker that is about to be flagged is clear, so the worker is still there. -/
theorem Workers.not_freed_of_setTerminate (h : Workers s k) {w : Fin n}
    (hw : s.shutdown = .setTerminate w) : s.freed w = false := by
  by_contra hf
  have flag := h.leaving w (h.freed w (by simpa using hf))
  have visited := ((h.flags w).mp flag).2
  simp [hw, ShutdownPc.flagged] at visited

variable [DecidableEq κ] [DecidableEq J]

/-- A step that meets the condition keeps the traversal safe. -/
theorem Step.traversalSafe {a : Action n κ J} (st : Step s a u) (h : Workers u k)
    (safe : s.TraversalSafe) (ok : s.FreesBehind a) : u.TraversalSafe := by
  intro w hw
  -- the write is safe by the list invariant; only the read needs the condition
  have atRead : u.shutdown = .setTerminate w ∨ u.shutdown = .readNext w := by
    cases hu : u.shutdown <;> simp_all [ShutdownPc.touches]
  rcases atRead with hset | hread
  · exact h.not_freed_of_setTerminate hset
  cases st with
  | init st => cases st <;> exact safe w hw
  | @worker v u st =>
    cases st with
    | free at_free =>
      have hvw : w ≠ v := fun e => ok v rfl at_free (e ▸ hread)
      simpa [hvw] using safe w hw
    | _ => exact safe w hw
  | shutdown st =>
    cases st with
    | setTerminate v at_set =>
      have hv : v = w := by simpa using hread
      exact safe w (by rw [at_set, hv]; rfl)
    | readNext v at_next =>
      cases hn : s.workerLinks.next v <;> simp [hn, ShutdownPc.traverse] at hread
    | _ => simp at hread
  | caller st => cases st <;> exact safe w hw
  | callShutdown started at_start =>
    cases hn : s.workers <;> simp [hn, ShutdownPc.traverse] at hread
  | jobReturns | wake | call | reuse => exact safe w hw

/-- A step that breaks the condition makes the traversal unsafe. -/
theorem Step.not_traversalSafe {a : Action n κ J} (st : Step s a u) (bad : ¬ s.FreesBehind a) :
    ¬ u.TraversalSafe := by
  simp only [State.FreesBehind, not_forall, not_not] at bad
  obtain ⟨w, rfl, at_free, hread⟩ := bad
  intro safe
  cases st with
  | worker st =>
    cases st <;> simp_all
    have alive := safe w (by simp [ShutdownPc.touches])
    simp at alive

/-- In every run of the queue, the traversal of `workqueue_shutdown` touches no freed `worker_t`
exactly when no worker executes `free(worker)` between the traversal's write of its `terminate`
and the traversal's read of its `next`. -/
theorem traversal_touches_live_iff {s₀ s : State n κ J} {tr : List (State n κ J × Action n κ J)}
    (initial : Initial s₀) (run : (machine n κ J).Run s₀ tr s) :
    (∀ t ∈ visited tr s, t.TraversalSafe) ↔ Along State.FreesBehind tr := by
  refine run.forall_visited_iff (I := fun s => ∃ k, Workers s k)
    ⟨0, .of_initial initial⟩ ?_ ?_ ?_ ?_
  · intro w hw
    simp [initial.shutdown, ShutdownPc.touches] at hw
  · rintro s a u ⟨k, h⟩ taken
    obtain ⟨k', hk, -⟩ := h.step (step_cases taken)
    exact ⟨k', hk⟩
  · rintro s a u ⟨k, h⟩ safe ok taken
    obtain ⟨k', hk, -⟩ := h.step (step_cases taken)
    exact (step_cases taken).traversalSafe hk safe ok
  · rintro s a u - bad taken
    exact (step_cases taken).not_traversalSafe bad

/-- A step of `worker_function`. -/
def Action.isWorker : Action n κ J → Bool
  | .worker _ => true
  | _ => false

omit [DecidableEq κ] [DecidableEq J] in
theorem freesBehind_of_test (s : State n κ J) (a : Action n κ J) (h : (!a.isWorker) = true) :
    s.FreesBehind a := by
  rintro w rfl
  simp [Action.isWorker] at h

/-- Start-up of a queue with two workers and a shutdown while both stand at the top of their loop:
nobody frees itself between the two accesses. -/
theorem traversal_touches_live_twoWorkers :
    ∃ (tr : List (State 2 Unit ℕ × Action 2 Unit ℕ)) (s : State 2 Unit ℕ),
      (machine 2 Unit ℕ).Run start tr s ∧ s.shutdown = .returned ∧
      ∀ t ∈ visited tr s, t.TraversalSafe := by
  let acts : List (Action 2 Unit ℕ) := List.flatten [
    List.replicate 5 (.init true), [.callShutdown], List.replicate 9 .shutdown]
  have ends : ((machine 2 Unit ℕ).exec start acts).map (·.shutdown) = some .returned := by
    decide +kernel
  obtain ⟨s, hs, returned⟩ := Option.map_eq_some_iff.mp ends
  exact ⟨_, s, run_of_exec hs, returned,
    (traversal_touches_live_iff start_initial (run_of_exec hs)).mpr
      (along_of_check freesBehind_of_test (by decide +kernel))⟩

/-- One worker at the top of its loop is flagged, finds the flag, frees itself and only then does
the traversal read its `next`. -/
theorem traversal_reads_freed_worker :
    ∃ (tr : List (State 1 Unit ℕ × Action 1 Unit ℕ)) (s : State 1 Unit ℕ),
      (machine 1 Unit ℕ).Run start tr s ∧ s.shutdown = .readNext 0 ∧ s.freed 0 = true ∧
      ¬ s.TraversalSafe := by
  let acts : List (Action 1 Unit ℕ) := List.flatten [
    List.replicate 3 (.init true), [.callShutdown, .shutdown], List.replicate 5 (.worker 0)]
  have ends : ((machine 1 Unit ℕ).exec start acts).map (fun s => (s.shutdown, s.freed 0)) =
      some (.readNext 0, true) := by decide +kernel
  obtain ⟨s, hs, h⟩ := Option.map_eq_some_iff.mp ends
  obtain ⟨hread, hfreed⟩ := Prod.mk.inj h
  refine ⟨_, s, run_of_exec hs, hread, hfreed, fun safe => ?_⟩
  have alive := safe 0 (by simp [hread, ShutdownPc.touches])
  simp [hfreed] at alive

end JiaTuanServer.Workqueue

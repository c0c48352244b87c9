import JiaTuanServer.Server.Steps
import JiaTuanServer.Workqueue.HandOff

/-!
# The server runs the queue

Every step of the server is a step of the queue of `workqueue.c` or leaves the queue alone, so a
run of the server contains a run of the queue and inherits its invariants.
-/

namespace JiaTuanServer.Server

open Transition Workqueue Machine

variable {n : ℕ} {s u : State n}

/-- The step of the queue that a step of the server makes. -/
def State.onQueue (s : State n) : Action n → Option (Workqueue.Action n Unit ℕ)
  | .queue a => some a
  | .onAccept _ => match s.accept with
    | .addJob c => some (.call () c)
    | _ => none
  | .job w => match s.job w with
    | .returned => some (.jobReturns w)
    | _ => none
  | _ => none

/-- The step of the queue is its own, the call of `workqueue_add_job` by `on_accept` or the return
of a job function. -/
theorem onQueue_cases {a : Action n} {b : Workqueue.Action n Unit ℕ} (hb : s.onQueue a = some b) :
    a = .queue b ∨ (∃ ok c, a = .onAccept ok ∧ b = .call () c) ∨
      ∃ w, a = .job w ∧ s.job w = .returned ∧ b = .jobReturns w := by
  cases a with
  | queue a => exact .inl (congrArg _ (by simpa [State.onQueue] using hb))
  | onAccept ok =>
    simp only [State.onQueue] at hb
    split at hb <;> cases hb
    exact .inr (.inl ⟨ok, _, rfl, rfl⟩)
  | job w =>
    simp only [State.onQueue] at hb
    split at hb <;> cases hb
    exact .inr (.inr ⟨w, rfl, ‹_›, rfl⟩)
  | accept fd => cases hb
  | callback w cb => cases hb

/-- A step of the queue's own is one of those that the server leaves to the queue. -/
theorem ofQueue_of_step {b : Workqueue.Action n Unit ℕ} (sound : s.fault = none)
    (taken : step s (.queue b) = some u) : ofQueue b = true := by
  by_contra other
  simp [step, sound, queueStep, other] at taken

/-- Only the job function that a worker runs makes it return. -/
theorem job_of_jobReturns {a : Action n} {w : Fin n} (sound : s.fault = none)
    (taken : step s a = some u) (hb : s.onQueue a = some (.jobReturns w)) :
    a = .job w ∧ s.job w = .returned := by
  rcases onQueue_cases hb with rfl | ⟨ok, c, -, e⟩ | ⟨v, rfl, at_end, e⟩
  · have internal := ofQueue_of_step sound taken
    simp [ofQueue] at internal
  · cases e
  · cases e
    exact ⟨rfl, at_end⟩

theorem perform_cases {α : Type} {op : Op α} {next : α → State n → State n}
    (taken : perform s op next = some u) :
    (∃ x m, u = next x { s with mem := m }) ∨ ∃ f, u = { s with fault := some f } := by
  unfold perform at taken
  split at taken
  · exact .inl ⟨_, _, (Option.some.inj taken).symm⟩
  · exact .inr ⟨_, (Option.some.inj taken).symm⟩

/-- Code that does not go through the queue leaves it alone. -/
theorem perform_queue {α : Type} {op : Op α} {next : α → State n → State n}
    (taken : perform s op next = some u) (same : ∀ x s, (next x s).queue = s.queue) :
    u.queue = s.queue := by
  rcases perform_cases taken with ⟨x, m, rfl⟩ | ⟨f, rfl⟩
  · exact same x _
  · rfl

/-- What a step of the server does to the queue, unless it faults. -/
theorem step_onQueue {a : Action n} (taken : step s a = some u) (sound : u.fault = none) :
    match s.onQueue a with
    | some b => Workqueue.step s.queue b = some u.queue
    | none => u.queue = s.queue := by
  simp only [step] at taken
  split at taken
  on_goal 2 => cases taken
  cases a with
  | queue b =>
    simp only [queueStep] at taken
    split at taken
    · obtain ⟨q, moved, taken⟩ := Option.bind_eq_some_iff.mp taken
      rcases perform_cases taken with ⟨x, m, rfl⟩ | ⟨f, rfl⟩
      · exact moved
      · cases sound
    · cases taken
  | accept fd =>
    simp only [acceptStep] at taken
    split at taken
    · cases fd with
      | none => exact perform_queue taken fun _ _ => rfl
      | some fd =>
        simp only at taken
        split at taken
        · exact perform_queue taken fun _ _ => rfl
        · cases taken
    · cases taken
  | onAccept ok =>
    cases at_pc : s.accept <;> simp only [onAcceptStep, at_pc] at taken <;>
      simp only [State.onQueue, at_pc]
    case idle => cases taken
    case addJob c =>
      obtain ⟨q, moved, taken⟩ := Option.bind_eq_some_iff.mp taken
      rcases perform_cases taken with ⟨x, m, rfl⟩ | ⟨f, rfl⟩
      · exact moved
      · cases sound
    case mallocClient | mallocJob | adding =>
      split at taken
      · exact perform_queue taken fun _ _ => rfl
      · first
          | exact perform_queue taken fun _ _ => rfl
          | cases taken
    all_goals exact perform_queue taken fun _ _ => rfl
  | job w =>
    simp only [jobStep] at taken
    split at taken
    on_goal 2 => cases taken
    cases at_pc : s.job w <;> simp only [at_pc] at taken <;> simp only [State.onQueue, at_pc]
    case returned =>
      obtain ⟨q, moved, taken⟩ := Option.bind_eq_some_iff.mp taken
      rcases perform_cases taken with ⟨x, m, rfl⟩ | ⟨f, rfl⟩
      · exact moved
      · cases sound
    all_goals exact perform_queue taken fun _ _ => rfl
  | callback w cb =>
    simp only [callbackStep] at taken
    split at taken
    · exact perform_queue taken fun _ _ => rfl
    · cases taken

/-- A run of the server contains a run of the queue, in which `workqueue_add_job` is never called
for a job that is waiting. -/
theorem queue_run {s₀ : State n} {tr : List (State n × Action n)} (initial : Initial s₀)
    (run : (machine n).Run s₀ tr s) :
    ∃ qtr, (Workqueue.machine n Unit ℕ).Run s₀.queue qtr s.queue ∧
      Along Workqueue.State.OwnsBlock qtr ∧
      ∀ x ∈ qtr, ∃ y ∈ tr, y.1.queue = x.1 ∧ y.1.onQueue y.2 = some x.2 := by
  induction run with
  | nil => exact ⟨[], .nil _, along_nil _, by simp⟩
  | @snoc s u tr a run taken ih =>
    obtain ⟨qtr, qrun, own, from_tr⟩ := ih
    obtain ⟨k, l, place, h⟩ := inv_of_run initial run
    obtain ⟨k', l', place', h', -⟩ := h.step taken
    have moved := step_onQueue taken h'.fault
    have earlier : ∀ x ∈ qtr, ∃ y ∈ tr ++ [(s, a)], y.1.queue = x.1 ∧ y.1.onQueue y.2 = some x.2 :=
      fun x hx => (from_tr x hx).imp fun y hy => ⟨List.mem_append_left _ hy.1, hy.2⟩
    cases hb : s.onQueue a with
    | none =>
      rw [hb] at moved
      exact ⟨qtr, moved ▸ qrun, own, earlier⟩
    | some b =>
      rw [hb] at moved
      refine ⟨qtr ++ [(s.queue, b)], .snoc qrun moved, ?_, fun x hx => ?_⟩
      · refine (along_append _ _ _).mpr ⟨own, (along_singleton _ _ _).mpr ?_⟩
        rcases onQueue_cases hb with rfl | ⟨ok, c, -, rfl⟩ | ⟨w, -, -, rfl⟩
        · exact h.ownsBlock (ofQueue_of_step h.fault taken)
        · trivial
        · trivial
      · rcases List.mem_append.mp hx with hx | hx
        · exact earlier x hx
        · rw [List.mem_singleton.mp hx]
          exact ⟨(s, a), by simp, rfl, hb⟩

/-- Before `workqueue_shutdown` is called. -/
def NoShutdown (_ : State n) (a : Action n) : Prop := a ≠ .queue .callShutdown

/-- A test that settles `NoShutdown` on a concrete run. -/
def noShutdownTest (_ : State n) : Action n → Bool
  | .queue .callShutdown => false
  | _ => true

theorem noShutdown_of_test (s : State n) (a : Action n) (h : noShutdownTest s a = true) :
    NoShutdown s a := by
  rintro rfl
  simp [noShutdownTest] at h

theorem notCalled_of_run {s₀ : State n} {tr : List (State n × Action n)} (initial : Initial s₀)
    (run : (machine n).Run s₀ tr s) (calm : Along NoShutdown tr) :
    s.queue.shutdown = .notCalled := by
  obtain ⟨qtr, qrun, -, from_tr⟩ := queue_run initial run
  refine qrun.invariant (C := Workqueue.NoShutdown) (fun x hx => ?_) initial.queue.shutdown
    fun s a u idle calm taken => (step_cases taken).notCalled idle calm
  obtain ⟨y, hy, -, hb⟩ := from_tr x hx
  intro hx
  have shuts : y.2 = .queue .callShutdown := by
    rw [hx] at hb
    simp only [State.onQueue] at hb
    split at hb
    · rename_i b queued
      rw [queued, Option.some.inj hb]
    · split at hb <;> simp at hb
    · split at hb <;> simp at hb
    · simp at hb
  exact calm y hy shuts

end JiaTuanServer.Server

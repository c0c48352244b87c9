import JiaTuanServer.Signals.Steps
import JiaTuanServer.Workqueue.Stopping

/-!
# The threads that exist

`workqueue_init` creates the workers one by one whatever the handlers do meanwhile: `Created`
counts them. A handler runs on a thread that has been created.
-/

namespace JiaTuanServer.Signals

open Transition Machine Workqueue

variable {n : ℕ} {J : Type}

/-- `workqueue_init` has inserted the first `k` workers, and at most one more is created. -/
structure Created (q : Workqueue.State n Unit J) (k : ℕ) : Prop where
  bound : k ≤ n
  counted : ∀ i, q.init.inserted = some i → i = k
  started : ∀ w, q.pc w ≠ .notStarted ↔ w.val < k ∨ q.init = .insert w

/-- Handlers run on the main thread and on created workers. -/
structure Threads (s : State n J) (k : ℕ) : Prop where
  created : Created s.queue k
  quiet : ∀ w, s.queue.pc w = .notStarted → s.handlers (.worker w) = []

variable {q v : Workqueue.State n Unit J} {s u : State n J} {k : ℕ}

theorem Created.of_initial (h : Workqueue.Initial q) : Created q 0 where
  bound := Nat.zero_le n
  counted i hi := by simpa [h.init, InitPc.inserted, eq_comm] using hi
  started w := by simp [h.pc w, h.init]

theorem Created.same (h : Created q k) (init : v.init = q.init)
    (pc : ∀ w, v.pc w = .notStarted ↔ q.pc w = .notStarted) : Created v k where
  bound := h.bound
  counted i hi := h.counted i (init ▸ hi)
  started w := by rw [init, ← h.started w, ne_eq, pc w]

theorem wakeAll_notStarted {ws : Finset (Fin n)} (asleep : ws ⊆ q.sleepers) (w : Fin n) :
    (q.wakeAll ws).pc w = .notStarted ↔ q.pc w = .notStarted := by
  by_cases hw : w ∈ ws
  · have := mem_sleepers.mp (asleep hw)
    simp [hw, this]
  · simp [hw]

theorem ShutdownOn.created {t : Thread n} {pc pc' : ShutdownPc n} (st : ShutdownOn q t pc v pc')
    (h : Created q k) : Created v k := by
  cases st with
  | broadcast => exact h.same rfl (wakeAll_notStarted subset_rfl)
  | _ => exact h.same rfl fun _ => Iff.rfl

theorem move_notStarted {w : Fin n} {pc : WorkerPc J} (on : q.pc w ≠ .notStarted)
    (on' : pc ≠ .notStarted) (v : Fin n) :
    Function.update q.pc w pc v = .notStarted ↔ q.pc v = .notStarted := by
  by_cases hv : v = w
  · subst hv; simp [on, on']
  · simp [hv]

variable [DecidableEq J]

theorem Created.step {a : Workqueue.Action n Unit J} (h : Created q k)
    (st : Workqueue.Step q a v) :
    ∃ k', Created v k' ∧ ((∀ i, q.init = .insert i → v.init = .insert i) → k' = k) := by
  cases st with
  | init st =>
    cases st with
    | create i at_create =>
      obtain rfl : i.val = k := h.counted i (by simp [at_create, InitPc.inserted])
      have off (w : Fin n) : q.pc w ≠ .notStarted ↔ w < i := by
        simpa [at_create] using h.started w
      refine ⟨i, ⟨h.bound, by simp [InitPc.inserted], fun w => ?_⟩, fun _ => rfl⟩
      by_cases hw : w = i
      · subst hw; simp
      · have other : i.val ≠ w.val := fun e => hw (Fin.ext e.symm)
        simpa [hw, other] using off w
    | insert i at_insert =>
      obtain rfl : i.val = k := h.counted i (by simp [at_insert, InitPc.inserted])
      refine ⟨i + 1, ⟨i.isLt, by simp [InitPc.inserted], fun w => ?_⟩, by simp [at_insert]⟩
      have on := h.started w
      simp only [at_insert, InitPc.insert.injEq, reduceCtorEq, or_false] at on ⊢
      rw [on]
      omega
    | fail i at_create | done i all at_create =>
      have started (w : Fin n) := h.started w
      simp only [at_create] at started
      exact ⟨k, ⟨h.bound, by simp [InitPc.inserted], by simpa using started⟩, fun _ => rfl⟩
  | worker st =>
    refine ⟨k, ?_, fun _ => rfl⟩
    cases st with
    | acquire at_lock unowned =>
      refine h.same rfl (move_notStarted ?_ (by simp))
      rcases at_lock with e | e <;> simp [e]
    | _ => exact h.same rfl (move_notStarted (by simp [*]) (by simp))
  | jobReturns job at_run =>
    exact ⟨k, h.same rfl (move_notStarted (by simp [at_run]) (by simp)), fun _ => rfl⟩
  | wake at_wait =>
    exact ⟨k, h.same rfl (move_notStarted (by simp [at_wait]) (by simp)), fun _ => rfl⟩
  | caller st =>
    refine ⟨k, ?_, fun _ => rfl⟩
    cases st with
    | signal job at_signal waiting one => exact h.same rfl (wakeAll_notStarted waiting)
    | _ => exact h.same rfl fun _ => Iff.rfl
  | shutdown st =>
    refine ⟨k, ?_, fun _ => rfl⟩
    cases st with
    | broadcast at_broadcast => exact h.same rfl (wakeAll_notStarted subset_rfl)
    | _ => exact h.same rfl fun _ => Iff.rfl
  | _ => exact ⟨k, h.same rfl fun _ => Iff.rfl, fun _ => rfl⟩

omit [DecidableEq J] in
theorem Threads.of_initial (h : Initial s) : Threads s 0 :=
  ⟨.of_initial h.queue, fun w _ => h.handlers (.worker w)⟩

omit [DecidableEq J] in
/-- The queue goes on and the handlers stay. -/
theorem Threads.queue (h : Threads s k) {k' : ℕ} (created : Created v k')
    (on : ∀ w, s.queue.pc w ≠ .notStarted → v.pc w ≠ .notStarted)
    (queue : u.queue = v) (handlers : u.handlers = s.handlers) : Threads u k' where
  created := queue ▸ created
  quiet w off := by
    rw [handlers]
    refine h.quiet w ?_
    by_contra was
    exact on w was (queue ▸ off)

omit [DecidableEq J] in
theorem ShutdownOn.on {t : Thread n} {pc pc' : ShutdownPc n} (st : ShutdownOn q t pc v pc')
    {w : Fin n} (on : q.pc w ≠ .notStarted) : v.pc w ≠ .notStarted := by
  cases st with
  | broadcast => rwa [ne_eq, wakeAll_notStarted subset_rfl]
  | _ => exact on

omit [DecidableEq J] in
theorem Threads.setHandlers (h : Threads s k) {t : Thread n} (fs : List (Frame n))
    (alive : s.Alive t ∨ s.handlers t ≠ []) : Threads (s.setHandlers t fs) k where
  created := h.created
  quiet w off := by
    have other : t ≠ .worker w := by
      rintro rfl
      rcases alive with alive | busy
      · exact alive.1 off
      · exact busy (h.quiet w off)
    simpa [State.setHandlers, Ne.symm other] using h.quiet w off

/-- Every step keeps the invariant, and only an insertion changes the number of workers. -/
theorem Step.threads {a : Action n J} (st : Step s a u) (h : Threads s k) :
    ∃ k', Threads u k' ∧
      ((∀ i, s.queue.init = .insert i → u.queue.init = .insert i) → k' = k) := by
  cases st with
  | queue runs st =>
    obtain ⟨k', created, same⟩ := h.created.step st
    exact ⟨k', h.queue created (fun w => st.started) rfl rfl, same⟩
  | server calm st =>
    refine ⟨k, ?_, fun _ => rfl⟩
    cases st with
    | shutdown pc pc' q at_shutdown st =>
      exact h.queue (st.created h.created) (fun w => st.on) rfl rfl
    | memset at_memset =>
      have created : Created (clear s.queue) k := h.created.same rfl fun _ => Iff.rfl
      exact h.queue created (fun w => id) rfl rfl
    | _ => exact h.queue h.created (fun w => id) rfl rfl
  | deliver alive unblocked => exact ⟨k, h.setHandlers _ (.inl alive), fun _ => rfl⟩
  | handler st =>
    refine ⟨k, ?_, fun _ => rfl⟩
    cases st with
    | loopexit signal below top =>
      exact (h.setHandlers _ (.inr (by simp [top]))).queue h.created (fun w => id) rfl rfl
    | shutdown signal below pc pc' q top st =>
      exact (h.setHandlers _ (.inr (by simp [top]))).queue (st.created h.created)
        (fun w => st.on) rfl rfl
    | callShutdown signal below top => exact h.setHandlers _ (.inr (by simp [top]))
    | done signal below top => exact h.setHandlers _ (.inr (by simp [top]))

end JiaTuanServer.Signals

import JiaTuanServer.Library.Tally
import JiaTuanServer.Workqueue.Lock
import JiaTuanServer.Workqueue.Workers

/-!
# The waiting jobs

What the list of waiting jobs keeps under every step, and how many workers are on their way to it.
The callers and the allocator are held to one rule, `OwnsBlock`: a block that is waiting is neither
added again nor overwritten. Under it the waiting jobs always form a chain of nodes with null
`prev` fields (`Pushed`), each step adds or removes what `added` and `removed` say, and the count
`Balanced` holds: beside a sleeping worker there are never more jobs than workers that will look
at the queue, except for the one whose signal is still to come.
-/

namespace JiaTuanServer.Workqueue

open Transition Linked Counting

variable {n : ℕ} {κ J : Type}

namespace State

/-- Job `j` is found by following `next` from `waiting_jobs`. -/
def InQueue (s : State n κ J) (j : J) : Prop :=
  ∃ l, Chain s.jobLinks.next s.waitingJobs l ∧ j ∈ l

/-- The step neither adds a job that is waiting nor overwrites the block of one. -/
def OwnsBlock (s : State n κ J) : Action n κ J → Prop
  | .caller c _ => ∀ j, s.caller c = .add j → ¬ s.InQueue j
  | .reuse j _ _ => ¬ s.InQueue j
  | _ => True

/-- The job that the step inserts into the queue. -/
def added (s : State n κ J) : Action n κ J → Option J
  | .caller c _ => match s.caller c with
    | .add j => some j
    | _ => none
  | _ => none

/-- The job that the step removes from the queue, with the worker that takes it. -/
def removed (s : State n κ J) : Action n κ J → Option (Fin n × J)
  | .worker w => match s.pc w with
    | .takeJob => s.waitingJobs.map fun j => (w, j)
    | _ => none
  | _ => none

/-- The step is the one by which `workqueue_shutdown` drops the waiting jobs. -/
def drops (s : State n κ J) : Action n κ J → Prop
  | .shutdown => s.shutdown = .clearJobs
  | _ => False

/-- A worker that has seen the queue empty inside its lock section is right. -/
def SeenEmpty (s : State n κ J) : Prop :=
  ∀ w, s.pc w = .testTerminateInner ∨ s.pc w = .condWait → s.waitingJobs = none

/-- The signal for the job added last is still to come. -/
def signalPending (s : State n κ J) : ℕ :=
  match s.jobsMutex with
  | some (.caller c) => match s.caller c with
    | .signal _ => 1
    | _ => 0
  | _ => 0

end State

/-- The worker will look at the queue before it can sleep. -/
def WorkerPc.examining : WorkerPc J → Bool
  | .lock | .woken | .testJobs | .testTerminateInner | .condWait | .testTerminate | .takeJob => true
  | _ => false

/-- While no worker has been told to stop: beside a sleeper, the jobs are covered by the workers
that will look at the queue and by the signal still to come. -/
def State.Balanced (s : State n κ J) (l : List J) : Prop :=
  (∀ w, s.terminate w = false) → s.sleepers.Nonempty →
    l.length ≤ tally WorkerPc.examining s.pc + s.signalPending

theorem State.inQueue_iff {s : State n κ J} {l : List J}
    (h : Chain s.jobLinks.next s.waitingJobs l) (j : J) : s.InQueue j ↔ j ∈ l :=
  ⟨fun ⟨_, hl', hj⟩ => h.unique hl' ▸ hj, fun hj => ⟨l, h, hj⟩⟩

variable [DecidableEq κ] [DecidableEq J] {s u : State n κ J} {l l' : List J}

/-- Overwriting a block outside the queue. -/
theorem Pushed.reuse {m : Links J} {head : Option J} (h : Pushed m head l) {j : J} (hj : j ∉ l)
    (prev next : Option J) :
    Pushed { prev := Function.update m.prev j prev, next := Function.update m.next j next }
      head l where
  chain := h.chain.update hj next
  prev x hx := (Function.update_of_ne (ne_of_mem_of_not_mem hx hj) _ _).trans (h.prev x hx)

/-- What a step does to the waiting jobs: apart from the drop by `workqueue_shutdown`, they change
by the job added and the job removed. -/
theorem Step.pushed {a : Action n κ J} (st : Step s a u)
    (h : Pushed s.jobLinks s.waitingJobs l) (own : s.OwnsBlock a) :
    ∃ l', Pushed u.jobLinks u.waitingJobs l' ∧ (s.drops a ∧ l' = [] ∨ ¬ s.drops a ∧
      (s.added a).toList ++ l = ((s.removed a).map Prod.snd).toList ++ l') := by
  cases st with
  | worker st =>
    cases st with
    | take job at_take head =>
      rw [head] at h
      obtain ⟨rest, rfl, -, hrest⟩ := h.llRemove
      exact ⟨rest, hrest, .inr ⟨id, by simp [State.added, State.removed, at_take, head]⟩⟩
    | acquire at_lock unowned =>
      refine ⟨l, h, .inr ⟨id, ?_⟩⟩
      rcases at_lock with e | e <;> simp [State.added, State.removed, e]
    | takeNothing at_take empty =>
      exact ⟨l, h, .inr ⟨id, by simp [State.added, State.removed, at_take, empty]⟩⟩
    | _ => exact ⟨l, h, .inr ⟨id, by simp [State.added, State.removed, *]⟩⟩
  | @caller c signalled u st =>
    cases st with
    | add job at_add =>
      have fresh : job ∉ l := fun hj => own job at_add ⟨l, h.chain, hj⟩
      exact ⟨job :: l, h.llAdd fresh, .inr ⟨id, by simp [State.added, State.removed, at_add]⟩⟩
    | _ => exact ⟨l, h, .inr ⟨id, by simp [State.added, State.removed, *]⟩⟩
  | shutdown st =>
    cases st with
    | clearJobs at_clear => exact ⟨[], pushed_nil _, .inl ⟨at_clear, rfl⟩⟩
    | _ => exact ⟨l, h, .inr ⟨by simp [State.drops, *], rfl⟩⟩
  | @reuse job prev next =>
    have fresh : job ∉ l := fun hj => own ⟨l, h.chain, hj⟩
    exact ⟨l, h.reuse fresh prev next, .inr ⟨id, rfl⟩⟩
  | init st => cases st <;> exact ⟨l, h, .inr ⟨id, rfl⟩⟩
  | _ => exact ⟨l, h, .inr ⟨id, rfl⟩⟩

/-- Only the owner of the lock changes the queue, so what another worker saw stays true. -/
theorem Step.seenEmpty {a : Action n κ J} (st : Step s a u) (owned : s.LockOwned)
    (h : s.SeenEmpty) : u.SeenEmpty := by
  -- nobody else holds the lock while worker `w` does
  have alone {t : Thread n κ} {w : Fin n} (ht : s.holdsLock t = true) (hne : t ≠ .worker w) :
      ¬ (s.pc w = .testTerminateInner ∨ s.pc w = .condWait) := fun hw => by
    refine hne (owned.unique ht ?_)
    rcases hw with e | e <;> simp [State.holdsLock, e, WorkerPc.holdsLock]
  have moved {v w : Fin n} {pc : WorkerPc J} (other : pc ≠ .testTerminateInner ∧ pc ≠ .condWait)
      (hw : Function.update s.pc v pc w = .testTerminateInner ∨
        Function.update s.pc v pc w = .condWait) : s.waitingJobs = none := by
    by_cases hwv : w = v
    · subst hwv; simp [other] at hw
    · exact h w (by simpa [hwv] using hw)
  have woken {ws : Finset (Fin n)} {w : Fin n} (hw : (s.wakeAll ws).pc w = .testTerminateInner ∨
      (s.wakeAll ws).pc w = .condWait) : s.waitingJobs = none := by
    by_cases hws : w ∈ ws
    · simp [hws] at hw
    · exact h w (by simpa [hws] using hw)
  cases st with
  | @worker v u st =>
    cases st with
    | noJobs at_test empty => exact fun _ _ => empty
    | goOn at_test flag => exact fun _ _ => h v (.inl at_test)
    | take job at_take head =>
      intro w hw
      by_cases hwv : w = v
      · subst hwv; simp at hw
      · have held : s.holdsLock (.worker v) = true := by
          simp [State.holdsLock, at_take, WorkerPc.holdsLock]
        refine absurd (by simpa [hwv] using hw) (alone held ?_)
        exact fun e => hwv (Thread.worker.inj e).symm
    | _ => exact fun w hw => moved (by simp) hw
  | @caller c signalled u st =>
    cases st with
    | add job at_add =>
      intro w hw
      have mine : s.holdsLock (.caller c) = true := by
        simp [State.holdsLock, at_add, CallerPc.inSection]
      exact absurd hw (alone mine (by simp))
    | signal job at_signal waiting one => exact fun w hw => woken hw
    | _ => exact h
  | shutdown st =>
    cases st with
    | clearJobs at_clear => exact fun _ _ => rfl
    | broadcast at_broadcast => exact fun w hw => woken hw
    | _ => exact h
  | init st =>
    cases st with
    | create i at_create => exact fun w hw => moved (by simp) hw
    | _ => exact h
  | jobReturns job at_run => exact fun w hw => moved (by simp) hw
  | wake at_wait => exact fun w hw => moved (by simp) hw
  | _ => exact h

end JiaTuanServer.Workqueue

import JiaTuanServer.Workqueue.Invariant
import Mathlib.Algebra.Order.Group.Multiset
import Mathlib.Tactic.Abel

/-!
# From the callers to the workers

What `workqueue_add_job` and `worker_function` guarantee together before any shutdown. The history
of a run is read off its trace: the jobs added, the jobs removed with the worker that removed them,
and the jobs whose function was called. Job addresses may come back after a job is freed, so the
histories are compared as multisets, and as lists for one worker.
-/

namespace JiaTuanServer.Workqueue

open Transition Linked Counting Machine

variable {n : ℕ} {κ J : Type}

namespace State

/-- The job whose function the step starts, with the worker that runs it. -/
def executed (s : State n κ J) : Action n κ J → Option (Fin n × J)
  | .worker w => match s.pc w with
    | .testJob (some j) => some (w, j)
    | _ => none
  | _ => none

end State

/-- The job that a worker has removed from the queue and not yet started. -/
def WorkerPc.inHand : WorkerPc J → List J
  | .unlock job => job.toList
  | .testJob job => job.toList
  | _ => []

/-- Before `workqueue_shutdown` is called. -/
def NoShutdown (_ : State n κ J) (a : Action n κ J) : Prop := a ≠ .callShutdown

variable (tr : List (State n κ J × Action n κ J))

def additions : List J := tr.filterMap fun x => x.1.added x.2

def removals : List (Fin n × J) := tr.filterMap fun x => x.1.removed x.2

def executions : List (Fin n × J) := tr.filterMap fun x => x.1.executed x.2

/-- The jobs of a history that belong to worker `w`, in order. -/
def jobsOf (w : Fin n) (h : List (Fin n × J)) : List J :=
  h.filterMap fun x => if x.1 = w then some x.2 else none

variable {tr}

theorem State.removed_fst {s : State n κ J} {w : Fin n} {y : Fin n × J}
    (h : s.removed (.worker w) = some y) : y.1 = w := by
  simp only [State.removed] at h
  split at h
  · obtain ⟨j, -, rfl⟩ := Option.map_eq_some_iff.mp h
    rfl
  · cases h

theorem State.executed_fst {s : State n κ J} {w : Fin n} {y : Fin n × J}
    (h : s.executed (.worker w) = some y) : y.1 = w := by
  simp only [State.executed] at h
  split at h <;> cases h
  rfl

variable [DecidableEq κ] [DecidableEq J] {s u : State n κ J} {l l' : List J} {k : ℕ}

omit [DecidableEq κ] in
theorem WorkerStep.inHand {w : Fin n} (st : WorkerStep s w u) (v : Fin n) :
    (s.pc v).inHand ++ jobsOf v (s.removed (.worker w : Action n κ J)).toList =
      jobsOf v (s.executed (.worker w : Action n κ J)).toList ++ (u.pc v).inHand := by
  by_cases hv : v = w
  · subst hv
    cases st with
    | acquire at_lock unowned =>
      rcases at_lock with e | e <;>
        simp [State.removed, State.executed, jobsOf, WorkerPc.inHand, e]
    | release job at_unlock =>
      cases job <;> simp [State.removed, State.executed, jobsOf, WorkerPc.inHand, at_unlock]
    | _ => simp [State.removed, State.executed, jobsOf, WorkerPc.inHand, *]
  · have other (x : Option (Fin n × J)) (hx : ∀ y ∈ x, y.1 = w) : jobsOf v x.toList = [] := by
      cases x with
      | none => rfl
      | some y => simp [jobsOf, hx y rfl, Ne.symm hv]
    rw [other _ fun y hy => State.removed_fst hy, other _ fun y hy => State.executed_fst hy]
    cases st <;> simp [hv]

/-- Jobs are started by the worker that removed them, one by one, in the order of removal. -/
theorem Step.inHand {a : Action n κ J} (st : Step s a u) (workers : Workers s k) (v : Fin n) :
    (s.pc v).inHand ++ jobsOf v (s.removed a).toList =
      jobsOf v (s.executed a).toList ++ (u.pc v).inHand := by
  have moved {w : Fin n} {p : WorkerPc J} (h : (s.pc w).inHand = []) (h' : p.inHand = []) :
      (s.pc v).inHand = (Function.update s.pc w p v).inHand := by
    by_cases hv : v = w
    · subst hv; simp [h, h']
    · simp [hv]
  have woken {ws : Finset (Fin n)} (hws : ws ⊆ s.sleepers) :
      (s.pc v).inHand = ((s.wakeAll ws).pc v).inHand := by
    by_cases hv : v ∈ ws
    · simp [hv, mem_sleepers.mp (hws hv), WorkerPc.inHand]
    · simp [hv]
  cases st with
  | worker st => exact st.inHand v
  | init st =>
    cases st with
    | create i at_create =>
      simpa [State.removed, State.executed, jobsOf] using
        moved (w := i) (p := .lock) (by simp [workers.notStarted at_create, WorkerPc.inHand]) rfl
    | _ => simp [State.removed, State.executed, jobsOf]
  | @jobReturns w job at_run =>
    simpa [State.removed, State.executed, jobsOf] using
      moved (w := w) (p := .lock) (by simp [at_run, WorkerPc.inHand]) rfl
  | @wake w at_wait =>
    simpa [State.removed, State.executed, jobsOf] using
      moved (w := w) (p := .woken) (by simp [at_wait, WorkerPc.inHand]) rfl
  | caller st =>
    cases st with
    | signal job at_signal waiting one =>
      simpa [State.removed, State.executed, jobsOf] using woken waiting
    | _ => simp [State.removed, State.executed, jobsOf]
  | shutdown st =>
    cases st with
    | broadcast at_broadcast =>
      simpa [State.removed, State.executed, jobsOf] using woken subset_rfl
    | _ => simp [State.removed, State.executed, jobsOf]
  | _ => simp [State.removed, State.executed, jobsOf]

/-- What the history and the state of a run say about the jobs. -/
structure Accounted (tr : List (State n κ J × Action n κ J)) (s : State n κ J) (l : List J) :
    Prop where
  jobs : (additions tr : Multiset J) = l + ((removals tr).map Prod.snd : List J)
  inHand : ∀ w, jobsOf w (removals tr) = jobsOf w (executions tr) ++ (s.pc w).inHand

omit [DecidableEq κ] [DecidableEq J] in
theorem additions_snoc (s : State n κ J) (a : Action n κ J) :
    additions (tr ++ [(s, a)]) = additions tr ++ (s.added a).toList := by
  cases h : s.added a <;> simp [additions, h]

omit [DecidableEq κ] [DecidableEq J] in
theorem removals_snoc (s : State n κ J) (a : Action n κ J) :
    removals (tr ++ [(s, a)]) = removals tr ++ (s.removed a).toList := by
  cases h : s.removed a <;> simp [removals, h]

omit [DecidableEq κ] [DecidableEq J] in
theorem executions_snoc (s : State n κ J) (a : Action n κ J) :
    executions (tr ++ [(s, a)]) = executions tr ++ (s.executed a).toList := by
  cases h : s.executed a <;> simp [executions, h]

theorem Accounted.snoc {a : Action n κ J} (h : Accounted tr s l) (st : Step s a u)
    (workers : Workers s k) (keeps : ¬ s.drops a) (change : s.JobsChange a l l') :
    Accounted (tr ++ [(s, a)]) u l' where
  jobs := by
    have moved := (change.resolve_left fun hd => keeps hd.1).2
    have moved' : ((s.added a).toList : Multiset J) + l =
        (((s.removed a).map Prod.snd).toList : List J) + l' := by
      rw [Multiset.coe_add, Multiset.coe_add, moved]
    have removed : ((s.removed a).toList.map Prod.snd : List J) =
        ((s.removed a).map Prod.snd).toList := by cases s.removed a <;> rfl
    rw [additions_snoc, removals_snoc, List.map_append, removed, ← Multiset.coe_add,
      ← Multiset.coe_add, h.jobs]
    calc (l : Multiset J) + ((removals tr).map Prod.snd : List J) + (s.added a).toList
        = ((removals tr).map Prod.snd : List J) + ((s.added a).toList + l) := by abel
      _ = ((removals tr).map Prod.snd : List J) +
            ((((s.removed a).map Prod.snd).toList : List J) + l') := by rw [moved']
      _ = l' + (((removals tr).map Prod.snd : List J) +
            (((s.removed a).map Prod.snd).toList : List J)) := by abel
  inHand w := by
    have step := st.inHand workers w
    rw [removals_snoc, executions_snoc]
    simp only [jobsOf, List.filterMap_append] at step ⊢
    have old := h.inHand w
    simp only [jobsOf] at old
    rw [old, List.append_assoc, step, List.append_assoc]

/-- Only the call itself starts `workqueue_shutdown`. -/
theorem Step.notCalled {a : Action n κ J} (st : Step s a u) (idle : s.shutdown = .notCalled)
    (calm : NoShutdown s a) : u.shutdown = .notCalled := by
  cases st with
  | callShutdown => exact absurd rfl calm
  | shutdown st => cases st <;> simp_all
  | init st => cases st <;> exact idle
  | worker st => cases st <;> exact idle
  | caller st => cases st <;> exact idle
  | _ => exact idle

/-- Before any shutdown every job added is either still waiting, once, or was removed by exactly
one worker, and that worker starts it exactly once; `LL_REMOVE` writes only to waiting jobs. -/
theorem jobs_handed_off_once {s₀ s : State n κ J} {tr : List (State n κ J × Action n κ J)}
    (initial : Initial s₀) (run : (machine n κ J).Run s₀ tr s) (own : Along State.OwnsBlock tr)
    (calm : Along NoShutdown tr) :
    ∃ l, Chain s.jobLinks.next s.waitingJobs l ∧ l.Nodup ∧
      (additions tr : Multiset J) = l + ((removals tr).map Prod.snd : List J) ∧
      (∀ w, jobsOf w (removals tr) = jobsOf w (executions tr) ++ (s.pc w).inHand) ∧
      ∀ w j, s.pc w = .takeJob → s.waitingJobs = some j →
        ∀ x ∈ llRemoveWrites s.jobLinks j, x ∈ l := by
  have both : Along (fun s a => s.OwnsBlock a ∧ NoShutdown s a) tr :=
    fun x hx => ⟨own x hx, calm x hx⟩
  have key : (∃ k l, Coherent s k l ∧ Accounted tr s l) ∧ s.shutdown = .notCalled := by
    refine run.history (I := fun tr s => (∃ k l, Coherent s k l ∧ Accounted tr s l) ∧
      s.shutdown = .notCalled) both ?_ ?_
    · exact ⟨⟨0, [], .of_initial initial, by simp [additions, removals], fun w => by
        simp [removals, executions, jobsOf, initial.pc w, WorkerPc.inHand]⟩, initial.shutdown⟩
    · rintro tr s a u ⟨⟨k, l, h, acc⟩, idle⟩ ⟨owns, calm⟩ taken
      have st := step_cases taken
      obtain ⟨k', l', h', -, change⟩ := st.coherent h owns
      have keeps : ¬ s.drops a := by cases a <;> simp [State.drops, idle]
      exact ⟨⟨k', l', h', acc.snoc st h.workers keeps change⟩, st.notCalled idle calm⟩
  obtain ⟨⟨k, l, h, acc⟩, -⟩ := key
  refine ⟨l, h.jobs.chain, h.jobs.chain.nodup, acc.jobs, acc.inHand, fun w j _ head => ?_⟩
  exact (head ▸ h.jobs).llRemoveWrites_subset

/-- A test that settles `OwnsBlock` on runs that only add to an empty queue. -/
def addsToEmpty (s : State n κ J) : Action n κ J → Bool
  | .caller c _ => match s.caller c with
    | .add _ => s.waitingJobs.isNone
    | _ => true
  | .reuse _ _ _ => s.waitingJobs.isNone
  | _ => true

omit [DecidableEq κ] [DecidableEq J] in
theorem ownsBlock_of_addsToEmpty (s : State n κ J) (a : Action n κ J)
    (h : addsToEmpty s a = true) : s.OwnsBlock a := by
  have nobody (hw : s.waitingJobs = none) (j : J) : ¬ s.InQueue j := by
    rintro ⟨l, hl, hj⟩
    rw [hw] at hl
    rw [hl.of_none] at hj
    cases hj
  cases a with
  | caller c signalled =>
    intro j hj
    exact nobody (by simpa [addsToEmpty, hj] using h) j
  | reuse j prev next => exact nobody (by simpa [addsToEmpty] using h) j
  | _ => trivial

/-- A test that settles `NoShutdown` on a concrete run. -/
def noShutdownTest (_ : State n κ J) : Action n κ J → Bool
  | .callShutdown => false
  | _ => true

omit [DecidableEq κ] [DecidableEq J] in
theorem noShutdown_of_test (s : State n κ J) (a : Action n κ J)
    (h : noShutdownTest s a = true) : NoShutdown s a := by
  rintro rfl
  simp [noShutdownTest] at h

/-- Two workers; job 7 is added, taken and run, its block is overwritten, and 7 is added again. -/
theorem jobs_handed_off_once_reused :
    ∃ (tr : List (State 2 Unit ℕ × Action 2 Unit ℕ)) (s : State 2 Unit ℕ),
      (machine 2 Unit ℕ).Run start tr s ∧ s.waitingJobs = some 7 ∧
      ∃ l, Chain s.jobLinks.next s.waitingJobs l ∧ l.Nodup ∧
        (additions tr : Multiset ℕ) = l + ((removals tr).map Prod.snd : List ℕ) ∧
        (∀ w, jobsOf w (removals tr) = jobsOf w (executions tr) ++ (s.pc w).inHand) ∧
        ∀ w j, s.pc w = .takeJob → s.waitingJobs = some j →
          ∀ x ∈ llRemoveWrites s.jobLinks j, x ∈ l := by
  let acts : List (Action 2 Unit ℕ) := List.flatten [
    List.replicate 5 (.init true), [.call () 7], List.replicate 4 (.caller () ∅),
    List.replicate 6 (.worker 0),
    [.jobReturns 0, .reuse 7 (some 7) (some 3), .call () 7, .caller () ∅, .caller () ∅]]
  have ends : ((machine 2 Unit ℕ).exec start acts).map (·.waitingJobs) = some (some 7) := by
    decide +kernel
  obtain ⟨s, hs, waiting⟩ := Option.map_eq_some_iff.mp ends
  have own : Along State.OwnsBlock ((machine 2 Unit ℕ).trace start acts) :=
    along_of_check ownsBlock_of_addsToEmpty (by decide +kernel)
  have calm : Along NoShutdown ((machine 2 Unit ℕ).trace start acts) :=
    along_of_check noShutdown_of_test (by decide +kernel)
  exact ⟨_, s, run_of_exec hs, waiting,
    jobs_handed_off_once start_initial (run_of_exec hs) own calm⟩

/-- The worker is awake and on its way to the queue, without the lock. -/
def WorkerPc.onTheWay : WorkerPc J → Bool
  | .lock | .woken => true
  | _ => false

omit [DecidableEq κ] [DecidableEq J] in
/-- While nobody owns the lock, the workers that will look at the queue are those on their way. -/
theorem tally_examining_of_unowned (owned : s.LockOwned) (unowned : s.jobsMutex = none) :
    tally WorkerPc.examining s.pc = tally WorkerPc.onTheWay s.pc := by
  have outside (w : Fin n) : (s.pc w).holdsLock = false := by
    by_contra held
    have mine : s.holdsLock (.worker w) = true := by simpa [State.holdsLock] using held
    simpa [unowned] using (owned (.worker w)).mpr mine
  have same (w : Fin n) : (s.pc w).examining = (s.pc w).onTheWay := by
    have out := outside w
    cases hw : s.pc w <;> simp_all [WorkerPc.holdsLock, WorkerPc.examining, WorkerPc.onTheWay]
  simp [tally, same]

/-- The queue is work-conserving: before any shutdown, while the lock is free and some worker
sleeps, the waiting jobs are no more than the workers that are awake and on their way to them. -/
theorem waiting_le_onTheWay {s₀ s : State n κ J} {tr : List (State n κ J × Action n κ J)}
    (initial : Initial s₀) (run : (machine n κ J).Run s₀ tr s) (own : Along State.OwnsBlock tr)
    (calm : Along NoShutdown tr) (unowned : s.jobsMutex = none) (asleep : ∃ w, s.pc w = .asleep) :
    ∃ l, Chain s.jobLinks.next s.waitingJobs l ∧ l.length ≤ tally WorkerPc.onTheWay s.pc := by
  obtain ⟨k, l, h⟩ := coherent_of_run initial run own
  have idle : s.shutdown = .notCalled :=
    run.invariant calm initial.shutdown fun s a u idle calm taken =>
      (step_cases taken).notCalled idle calm
  have clear (w : Fin n) : s.terminate w = false := by
    simpa [idle, ShutdownPc.flagged] using h.workers.flags w
  have sleepers : s.sleepers.Nonempty := asleep.imp fun w hw => mem_sleepers.mpr hw
  have count := h.balanced clear sleepers
  have quiet : s.signalPending = 0 := signalPending_of_owner (by simp [unowned])
  rw [quiet, tally_examining_of_unowned h.owned unowned, Nat.add_zero] at count
  exact ⟨l, h.jobs.chain, count⟩

/-- Two sleeping workers and one job: the signal wakes worker 0, worker 1 sleeps on. -/
theorem waiting_le_onTheWay_twoWorkers :
    ∃ (tr : List (State 2 Unit ℕ × Action 2 Unit ℕ)) (s : State 2 Unit ℕ),
      (machine 2 Unit ℕ).Run start tr s ∧ s.waitingJobs = some 7 ∧ s.pc 1 = .asleep ∧
      ∃ l, Chain s.jobLinks.next s.waitingJobs l ∧ l.length ≤ tally WorkerPc.onTheWay s.pc := by
  let acts : List (Action 2 Unit ℕ) := List.flatten [
    List.replicate 5 (.init true), List.replicate 4 (.worker 0), List.replicate 4 (.worker 1),
    [.call () 7, .caller () ∅, .caller () ∅, .caller () {0}, .caller () ∅]]
  have ends : ((machine 2 Unit ℕ).exec start acts).map
      (fun s => (s.waitingJobs, s.jobsMutex, s.pc 1)) = some (some 7, none, .asleep) := by
    decide +kernel
  obtain ⟨s, hs, h⟩ := Option.map_eq_some_iff.mp ends
  obtain ⟨waiting, h'⟩ := Prod.mk.inj h
  obtain ⟨unowned, asleep⟩ := Prod.mk.inj h'
  have own : Along State.OwnsBlock ((machine 2 Unit ℕ).trace start acts) :=
    along_of_check ownsBlock_of_addsToEmpty (by decide +kernel)
  have calm : Along NoShutdown ((machine 2 Unit ℕ).trace start acts) :=
    along_of_check noShutdown_of_test (by decide +kernel)
  exact ⟨_, s, run_of_exec hs, waiting, asleep,
    waiting_le_onTheWay start_initial (run_of_exec hs) own calm unowned ⟨1, asleep⟩⟩

end JiaTuanServer.Workqueue

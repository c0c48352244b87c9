import JiaTuanServer.Workqueue.Doomed

/-!
# The owner of jobs_mutex gets to its unlock

While no worker is doomed, the thread that owns the lock is always able to move, whoever it is, and
`stepsLeft` counts down to its unlock. Its steps leave the other threads where they are, except
that they may wake the workers that wait.
-/

namespace JiaTuanServer.Workqueue

open Transition Machine

variable {n : ℕ} {κ J : Type}

/-- The owner is at most this many of its own steps away from its unlock. -/
def WorkerPc.stepsLeft : WorkerPc J → ℕ
  | .testJobs => 5
  | .testTerminateInner => 4
  | .testTerminate => 3
  | .takeJob => 2
  | .condWait | .unlock _ => 1
  | _ => 0

def CallerPc.stepsLeft : CallerPc J → ℕ
  | .add _ => 3
  | .signal _ => 2
  | .unlock _ => 1
  | _ => 0

def ShutdownPc.stepsLeft : ShutdownPc n → ℕ
  | .clearWorkers => 4
  | .clearJobs => 3
  | .broadcast => 2
  | .unlock => 1
  | _ => 0

/-- A step of a thread inside one of the four functions: no new call, no return of a job function,
no spurious wake-up. -/
def Action.IsOwn : Action n κ J → Prop
  | .worker _ | .caller _ _ | .shutdown => True
  | _ => False

def State.stepsLeft (s : State n κ J) : Thread n κ → ℕ
  | .worker w => (s.pc w).stepsLeft
  | .caller c => (s.caller c).stepsLeft
  | .shutdown => s.shutdown.stepsLeft

variable {s u v : State n κ J} {k : ℕ}

/-- What the steps of thread `t` inside its lock section do to the other threads. -/
structure Others (t : Thread n κ) (s u : State n κ J) : Prop where
  workers : ∀ w, t ≠ .worker w → u.pc w = s.pc w ∨ s.pc w = .asleep ∧ u.pc w = .woken
  callers : ∀ c, t ≠ .caller c → u.caller c = s.caller c
  shutdown : t ≠ .shutdown → u.shutdown = s.shutdown

theorem Others.refl (t : Thread n κ) (s : State n κ J) : Others t s s :=
  ⟨fun _ _ => .inl rfl, fun _ _ => rfl, fun _ => rfl⟩

theorem Others.trans {t : Thread n κ} (h : Others t s u) (h' : Others t u v) : Others t s v where
  workers w hw := by
    rcases h.workers w hw with e | ⟨e, e'⟩ <;> rcases h'.workers w hw with f | ⟨f, f'⟩ <;>
      simp_all
  callers c hc := (h'.callers c hc).trans (h.callers c hc)
  shutdown ht := (h'.shutdown ht).trans (h.shutdown ht)

/-- Worker `w` moves. -/
theorem Others.of_move {w : Fin n} {pc : WorkerPc J} (hpc : u.pc = Function.update s.pc w pc)
    (hc : u.caller = s.caller) (hs : u.shutdown = s.shutdown) : Others (.worker w) s u where
  workers v hv := by
    have hne : v ≠ w := fun e => hv (e ▸ rfl)
    simp [hpc, hne]
  callers c _ := by rw [hc]
  shutdown _ := hs

/-- Caller `c` moves. -/
theorem Others.of_caller [DecidableEq κ] {c : κ} {pc : CallerPc J} (hpc : u.pc = s.pc)
    (hc : u.caller = Function.update s.caller c pc) (hs : u.shutdown = s.shutdown) :
    Others (.caller c) s u where
  workers v _ := .inl (by rw [hpc])
  callers d hd := by
    have hne : d ≠ c := fun e => hd (e ▸ rfl)
    simp [hc, hne]
  shutdown _ := hs

theorem woken_of_wakeAll {ws : Finset (Fin n)} (hws : ws ⊆ s.sleepers) (w : Fin n) :
    (s.wakeAll ws).pc w = s.pc w ∨ s.pc w = .asleep ∧ (s.wakeAll ws).pc w = .woken := by
  by_cases hw : w ∈ ws
  · exact .inr ⟨mem_sleepers.mp (hws hw), by simp [hw]⟩
  · exact .inl (by simp [hw])

/-- Where nobody is doomed the owner of the lock is inside its lock section. -/
theorem Sound.lockUsable (h : Sound s k) (clear : s.Undoomed) : s.LockUsable := by
  intro t owner
  have held := (h.owned t).mp owner
  cases t with
  | worker w =>
    have stay : (s.pc w).leaving = false := by
      by_contra leaving
      have kept := clear w (h.workers.leaving w (by simpa using leaving))
      cases hpc : s.pc w <;> simp_all [WorkerPc.leaving, WorkerPc.keepsLock]
    cases hpc : s.pc w <;>
      simp_all [State.inSection, State.holdsLock, WorkerPc.holdsLock, WorkerPc.inSection,
        WorkerPc.leaving]
  | caller c => exact held
  | shutdown => exact held

variable [DecidableEq κ] [DecidableEq J]

omit [DecidableEq κ] in
/-- Nothing holds up a worker in its lock section. -/
theorem worker_enabled {w : Fin n} (live : (s.pc w).inSection = true) :
    ∃ u, workerFunction s w = some u := by
  cases hpc : s.pc w with
  | takeJob => cases head : s.waitingJobs <;> simp [workerFunction, hpc, head]
  | _ => simp_all [workerFunction, WorkerPc.inSection]

/-- A worker in its lock section moves towards its unlock. -/
theorem worker_progress {w : Fin n} (live : (s.pc w).inSection = true) (clear : s.Undoomed) :
    ∃ u, step s (.worker w) = some u ∧ Others (.worker w) s u ∧
      (u.pc w).stepsLeft < (s.pc w).stepsLeft ∧
      (u.jobsMutex = none ∨ u.jobsMutex = s.jobsMutex) := by
  obtain ⟨u, taken⟩ := worker_enabled live
  refine ⟨u, taken, ?_⟩
  cases workerFunction_cases taken with
  | acquire at_lock unowned => rcases at_lock with e | e <;> simp [e, WorkerPc.inSection] at live
  | breakInner at_test flag | breakOuter at_test flag =>
    have stay := clear w flag
    simp [at_test, WorkerPc.keepsLock] at stay
  | sleep at_wait =>
    exact ⟨.of_move rfl rfl rfl, by simp [at_wait, WorkerPc.stepsLeft], .inl rfl⟩
  | release job at_unlock =>
    exact ⟨.of_move rfl rfl rfl, by simp [at_unlock, WorkerPc.stepsLeft], .inl rfl⟩
  | nothing at_test | start job at_test | free at_test | exit at_test =>
    simp [at_test, WorkerPc.inSection] at live
  | _ => exact ⟨.of_move rfl rfl rfl, by simp [*, WorkerPc.stepsLeft], .inr rfl⟩

/-- A caller in its lock section moves towards its unlock; its signal may wake every waiter. -/
theorem caller_progress {c : κ} (live : (s.caller c).inSection = true) :
    ∃ u, step s (.caller c s.sleepers) = some u ∧ Others (.caller c) s u ∧
      (u.caller c).stepsLeft < (s.caller c).stepsLeft ∧
      (u.jobsMutex = none ∨ u.jobsMutex = s.jobsMutex) := by
  obtain ⟨u, taken⟩ : ∃ u, workqueueAddJob s c s.sleepers = some u := by
    cases hpc : s.caller c <;> simp_all [workqueueAddJob, CallerPc.inSection]
  refine ⟨u, taken, ?_⟩
  cases workqueueAddJob_cases taken with
  | acquire job at_lock unowned => simp [at_lock, CallerPc.inSection] at live
  | add job at_add =>
    exact ⟨.of_caller rfl rfl rfl, by simp [at_add, CallerPc.stepsLeft], .inr rfl⟩
  | signal job at_signal waiting one =>
    have woken : Others (.caller c) s (s.wakeAll s.sleepers) :=
      ⟨fun w _ => woken_of_wakeAll waiting w, fun _ _ => rfl, fun _ => rfl⟩
    exact ⟨woken.trans (.of_caller rfl rfl rfl), by simp [at_signal, CallerPc.stepsLeft], .inr rfl⟩
  | release job at_unlock =>
    exact ⟨.of_caller rfl rfl rfl, by simp [at_unlock, CallerPc.stepsLeft], .inl rfl⟩

theorem shutdown_progress (live : s.shutdown.inSection = true) :
    ∃ u, step s (.shutdown : Action n κ J) = some u ∧ Others .shutdown s u ∧
      u.shutdown.stepsLeft < s.shutdown.stepsLeft ∧
      (u.jobsMutex = none ∨ u.jobsMutex = s.jobsMutex) := by
  obtain ⟨u, taken⟩ : ∃ u, workqueueShutdown s = some u := by
    cases hpc : s.shutdown <;> simp_all [workqueueShutdown, ShutdownPc.inSection]
  have others {u : State n κ J} (hc : u.caller = s.caller)
      (hw : ∀ w, u.pc w = s.pc w ∨ s.pc w = .asleep ∧ u.pc w = .woken) : Others .shutdown s u :=
    ⟨fun w _ => hw w, fun c _ => by rw [hc], fun e => absurd rfl e⟩
  refine ⟨u, taken, ?_⟩
  cases workqueueShutdown_cases taken with
  | setTerminate w at_pc | readNext w at_pc => simp [at_pc, ShutdownPc.inSection] at live
  | acquire at_lock unowned => simp [at_lock, ShutdownPc.inSection] at live
  | broadcast at_broadcast =>
    exact ⟨others rfl (woken_of_wakeAll subset_rfl), by simp [at_broadcast, ShutdownPc.stepsLeft],
      .inr rfl⟩
  | release at_unlock =>
    exact ⟨others rfl fun _ => .inl rfl, by simp [at_unlock, ShutdownPc.stepsLeft], .inl rfl⟩
  | _ => exact ⟨others rfl fun _ => .inl rfl, by simp [*, ShutdownPc.stepsLeft], .inr rfl⟩

/-- The owner of the lock moves towards its unlock and dooms nobody. -/
theorem owner_progress {t : Thread n κ} (live : s.inSection t = true) (clear : s.Undoomed) :
    ∃ a u, a.IsOwn ∧ (machine n κ J).step s a = some u ∧ Others t s u ∧ u.Undoomed ∧
      u.stepsLeft t < s.stepsLeft t ∧ (u.jobsMutex = none ∨ u.jobsMutex = s.jobsMutex) := by
  cases t with
  | worker w =>
    obtain ⟨u, taken, others, fewer, mutex⟩ := worker_progress live clear
    have ok : s.StopsOutside (.worker w) := fun _ =>
      ⟨fun e => by simp [State.inSection, e, WorkerPc.inSection] at live,
        fun e => by simp [State.inSection, e, WorkerPc.inSection] at live⟩
    exact ⟨.worker w, u, trivial, taken, others, (step_cases taken).undoomed clear ok, fewer, mutex⟩
  | caller c =>
    obtain ⟨u, taken, others, fewer, mutex⟩ := caller_progress live
    exact ⟨.caller c s.sleepers, u, trivial, taken, others,
      (step_cases taken).undoomed clear trivial, fewer, mutex⟩
  | shutdown =>
    obtain ⟨u, taken, others, fewer, mutex⟩ := shutdown_progress live
    have ok : s.StopsOutside .shutdown := fun w e => by
      simp [State.inSection, e, ShutdownPc.inSection] at live
    exact ⟨.shutdown, u, trivial, taken, others, (step_cases taken).undoomed clear ok, fewer, mutex⟩

/-- The owner of the lock unlocks it, and the other threads only see themselves woken. -/
theorem owner_releases {t : Thread n κ} (h : Sound s k) (clear : s.Undoomed)
    (owner : s.jobsMutex = some t) :
    ∃ u, (machine n κ J).Leads Action.IsOwn s u ∧ u.jobsMutex = none ∧ Others t s u := by
  refine Leads.of_rank (P := fun v => Others t s v ∧ (∃ k, Sound v k) ∧ v.Undoomed ∧
    (v.jobsMutex = none ∨ v.jobsMutex = some t)) (fun v => v.stepsLeft t) ?_
    ⟨.refl t s, ⟨k, h⟩, clear, .inr owner⟩
  rintro v ⟨others, ⟨k, h⟩, clear, free | owner⟩
  · exact .inl ⟨free, others⟩
  · obtain ⟨a, u, own, taken, others', clear', fewer, mutex⟩ :=
      owner_progress (h.lockUsable clear t owner) clear
    obtain ⟨k', h', -⟩ := (step_cases taken).sound h
    exact .inr ⟨a, u, own, taken, ⟨others.trans others', ⟨k', h'⟩, clear', owner ▸ mutex⟩, fewer⟩

/-- Whoever owns the lock, it becomes free, and threads that neither own it nor sleep stay where
they are. -/
theorem lock_released (h : Sound s k) (clear : s.Undoomed) :
    ∃ u, (machine n κ J).Leads Action.IsOwn s u ∧ u.jobsMutex = none ∧
      (s.jobsMutex = none ∧ u = s ∨ ∃ t, s.jobsMutex = some t ∧ Others t s u) := by
  cases owner : s.jobsMutex with
  | none => exact ⟨s, .refl _ _, owner, .inl ⟨rfl, rfl⟩⟩
  | some t =>
    obtain ⟨u, leads, free, others⟩ := owner_releases h clear owner
    exact ⟨u, leads, free, .inr ⟨t, rfl, others⟩⟩

end JiaTuanServer.Workqueue

import JiaTuanServer.Workqueue.Steps

/-!
# Who owns jobs_mutex

Ownership of the lock is a matter of program counters: `LockOwned` says that the owner recorded in
the mutex is the one thread whose program counter lies between a lock and the matching unlock.
A worker that leaves its loop by a `break` keeps the lock, so `free`, `exit` and `exited` count as
holding it; `inSection` is the part where the thread is alive and will unlock.
-/

namespace JiaTuanServer.Workqueue

open Transition

variable {n : ℕ} {κ J : Type}

/-- A worker that has locked `jobs_mutex` and not unlocked it. -/
def WorkerPc.holdsLock : WorkerPc J → Bool
  | .testJobs | .testTerminateInner | .condWait | .testTerminate | .takeJob | .unlock _
  | .free | .exit | .exited => true
  | _ => false

/-- A worker between the lock of `jobs_mutex` and its unlock. -/
def WorkerPc.inSection : WorkerPc J → Bool
  | .testJobs | .testTerminateInner | .condWait | .testTerminate | .takeJob | .unlock _ => true
  | _ => false

def CallerPc.inSection : CallerPc J → Bool
  | .add _ | .signal _ | .unlock _ => true
  | _ => false

def ShutdownPc.inSection : ShutdownPc n → Bool
  | .clearWorkers | .clearJobs | .broadcast | .unlock => true
  | _ => false

namespace State

/-- Thread `t` has locked `jobs_mutex` and not unlocked it. -/
def holdsLock (s : State n κ J) : Thread n κ → Bool
  | .worker w => (s.pc w).holdsLock
  | .caller c => (s.caller c).inSection
  | .shutdown => s.shutdown.inSection

/-- Thread `t` is alive and inside its lock section. -/
def inSection (s : State n κ J) : Thread n κ → Bool
  | .worker w => (s.pc w).inSection
  | .caller c => (s.caller c).inSection
  | .shutdown => s.shutdown.inSection

/-- `jobs_mutex` is free or owned by a live thread inside its lock section. -/
def LockUsable (s : State n κ J) : Prop := ∀ t, s.jobsMutex = some t → s.inSection t = true

/-- The recorded owner is the one thread that holds the lock. -/
def LockOwned (s : State n κ J) : Prop := ∀ t, s.jobsMutex = some t ↔ s.holdsLock t = true

end State

@[simp] theorem ShutdownPc.inSection_traverse (p : Option (Fin n)) :
    (ShutdownPc.traverse p).inSection = false := by cases p <;> rfl

namespace State.LockOwned

variable {s u : State n κ J} {t : Thread n κ}

/-- A step that leaves the mutex alone and makes no thread gain or lose it. -/
theorem same (h : s.LockOwned) (mutex : u.jobsMutex = s.jobsMutex)
    (others : ∀ t, u.holdsLock t = s.holdsLock t) : u.LockOwned := fun t => by
  rw [mutex, others t]; exact h t

/-- Thread `t` locks a free mutex. -/
theorem acquire (h : s.LockOwned) (unowned : s.jobsMutex = none) (mutex : u.jobsMutex = some t)
    (gain : u.holdsLock t = true) (others : ∀ t', t' ≠ t → u.holdsLock t' = s.holdsLock t') :
    u.LockOwned := fun t' => by
  rw [mutex]
  by_cases ht : t' = t
  · simp [ht, gain]
  · have hs : s.holdsLock t' ≠ true := fun held => by simpa [unowned] using (h t').mpr held
    simpa [others t' ht, hs] using Ne.symm ht

/-- Thread `t` unlocks the mutex it holds. -/
theorem release (h : s.LockOwned) (held : s.holdsLock t = true) (mutex : u.jobsMutex = none)
    (loss : u.holdsLock t = false) (others : ∀ t', t' ≠ t → u.holdsLock t' = s.holdsLock t') :
    u.LockOwned := fun t' => by
  rw [mutex]
  by_cases ht : t' = t
  · simp [ht, loss]
  · have hs : s.holdsLock t' ≠ true := fun held' =>
      ht (Option.some.inj (((h t').mpr held').symm.trans ((h t).mpr held)))
    simpa [others t' ht] using hs

/-- Two threads never hold the lock together. -/
theorem unique (h : s.LockOwned) {t' : Thread n κ} (ht : s.holdsLock t = true)
    (ht' : s.holdsLock t' = true) : t = t' :=
  Option.some.inj (((h t).mpr ht).symm.trans ((h t').mpr ht'))

end State.LockOwned

/-! ## What the state updates do to the holders -/

section Updates

variable (s : State n κ J)

theorem holdsLock_of_pc {u : State n κ J} (w : Fin n) (pc : WorkerPc J)
    (hpc : u.pc = Function.update s.pc w pc) (hc : u.caller = s.caller)
    (hs : u.shutdown = s.shutdown) {t : Thread n κ} (ht : t ≠ .worker w) :
    u.holdsLock t = s.holdsLock t := by
  cases t with
  | worker v =>
    have hv : v ≠ w := fun e => ht (e ▸ rfl)
    simp [State.holdsLock, hpc, hv]
  | caller c => simp [State.holdsLock, hc]
  | shutdown => simp [State.holdsLock, hs]

theorem holdsLock_of_caller [DecidableEq κ] {u : State n κ J} (c : κ) (pc : CallerPc J)
    (hc : u.caller = Function.update s.caller c pc)
    (hp : ∀ w, (u.pc w).holdsLock = (s.pc w).holdsLock)
    (hs : u.shutdown = s.shutdown) {t : Thread n κ} (ht : t ≠ .caller c) :
    u.holdsLock t = s.holdsLock t := by
  cases t with
  | worker v => exact hp v
  | caller d =>
    have hd : d ≠ c := fun e => ht (e ▸ rfl)
    simp [State.holdsLock, hc, hd]
  | shutdown => simp [State.holdsLock, hs]

theorem holdsLock_of_shutdown {u : State n κ J} (hc : u.caller = s.caller)
    (hp : ∀ w, (u.pc w).holdsLock = (s.pc w).holdsLock) {t : Thread n κ} (ht : t ≠ .shutdown) :
    u.holdsLock t = s.holdsLock t := by
  cases t with
  | worker v => exact hp v
  | caller d => simp [State.holdsLock, hc]
  | shutdown => exact absurd rfl ht

/-- Waking waiters gives nobody the lock. -/
theorem holdsLock_wakeAll {ws : Finset (Fin n)} (hws : ws ⊆ s.sleepers) (w : Fin n) :
    ((s.wakeAll ws).pc w).holdsLock = (s.pc w).holdsLock := by
  by_cases hw : w ∈ ws
  · have hsleep : s.pc w = .asleep := mem_sleepers.mp (hws hw)
    simp [State.wakeAll, hw, hsleep, WorkerPc.holdsLock]
  · simp [State.wakeAll, hw]

end Updates

/-! ## Every step keeps the owner right -/

section Step

variable [DecidableEq κ] [DecidableEq J] {s u : State n κ J}

theorem WorkerStep.lockOwned {w : Fin n} (h : s.LockOwned) (st : WorkerStep s w u) :
    u.LockOwned := by
  have others {u : State n κ J} (pc : WorkerPc J) (hpc : u.pc = Function.update s.pc w pc)
      (hc : u.caller = s.caller) (hs : u.shutdown = s.shutdown) :
      ∀ t, t ≠ .worker w → u.holdsLock t = s.holdsLock t :=
    fun t ht => holdsLock_of_pc s w pc hpc hc hs ht
  -- most steps stay inside or outside the section
  have stay {u : State n κ J} (pc : WorkerPc J) (hpc : u.pc = Function.update s.pc w pc)
      (hc : u.caller = s.caller) (hs : u.shutdown = s.shutdown) (hm : u.jobsMutex = s.jobsMutex)
      (hw : pc.holdsLock = (s.pc w).holdsLock) : u.LockOwned := by
    refine h.same hm fun t => ?_
    by_cases ht : t = .worker w
    · subst ht; simp [State.holdsLock, hpc, hw]
    · exact others pc hpc hc hs t ht
  cases st with
  | acquire at_lock unowned =>
    exact h.acquire unowned rfl (by simp [State.holdsLock, State.goto, WorkerPc.holdsLock])
      (others _ rfl rfl rfl)
  | sleep at_wait =>
    exact h.release (t := .worker w) (by simp [State.holdsLock, at_wait, WorkerPc.holdsLock]) rfl
      (by simp [State.holdsLock, State.goto, WorkerPc.holdsLock]) (others _ rfl rfl rfl)
  | release job at_unlock =>
    exact h.release (t := .worker w) (by simp [State.holdsLock, at_unlock, WorkerPc.holdsLock]) rfl
      (by simp [State.holdsLock, State.goto, WorkerPc.holdsLock]) (others _ rfl rfl rfl)
  | _ => exact stay _ rfl rfl rfl rfl (by simp_all [WorkerPc.holdsLock])

omit [DecidableEq J] in
theorem InitStep.lockOwned (h : s.LockOwned) (st : InitStep s u)
    (idle : ∀ i : Fin n, s.init = .create i → s.pc i = .notStarted) : u.LockOwned := by
  cases st with
  | create i at_create =>
    refine h.same rfl fun t => ?_
    by_cases ht : t = .worker i
    · subst ht; simp [State.holdsLock, State.goto, idle i at_create, WorkerPc.holdsLock]
    · refine holdsLock_of_pc s i .lock ?_ ?_ ?_ ht <;> rfl
  | _ => exact h.same rfl fun t => by cases t <;> rfl

theorem CallerStep.lockOwned {c : κ} {signalled : Finset (Fin n)} (h : s.LockOwned)
    (st : CallerStep s c signalled u) : u.LockOwned := by
  cases st with
  | acquire job at_lock unowned =>
    exact h.acquire unowned rfl (by simp [State.holdsLock, State.callerGoto, CallerPc.inSection])
      fun t ht => by refine holdsLock_of_caller s c (.add job) ?_ (fun _ => ?_) ?_ ht <;> rfl
  | add job at_add =>
    refine h.same rfl fun t => ?_
    by_cases ht : t = .caller c
    · subst ht; simp [State.holdsLock, State.callerGoto, at_add, CallerPc.inSection]
    · refine holdsLock_of_caller s c (.signal job) ?_ (fun _ => ?_) ?_ ht <;> rfl
  | signal job at_signal waiting one =>
    refine h.same rfl fun t => ?_
    by_cases ht : t = .caller c
    · subst ht
      simp [State.holdsLock, State.callerGoto, at_signal, CallerPc.inSection]
    · refine holdsLock_of_caller s c (.unlock job) ?_ ?_ ?_ ht
      · rfl
      · exact holdsLock_wakeAll s waiting
      · rfl
  | release job at_unlock =>
    exact h.release (t := .caller c) (by simp [State.holdsLock, at_unlock, CallerPc.inSection]) rfl
      (by simp [State.holdsLock, State.callerGoto, CallerPc.inSection])
      fun t ht => by refine holdsLock_of_caller s c .idle ?_ (fun _ => ?_) ?_ ht <;> rfl

omit [DecidableEq J] in
theorem ShutdownStep.lockOwned (h : s.LockOwned) (st : ShutdownStep s u) : u.LockOwned := by
  have stay {u : State n κ J} (hc : u.caller = s.caller)
      (hp : ∀ w, (u.pc w).holdsLock = (s.pc w).holdsLock) (hm : u.jobsMutex = s.jobsMutex)
      (hs : u.shutdown.inSection = s.shutdown.inSection) : u.LockOwned := by
    refine h.same hm fun t => ?_
    by_cases ht : t = .shutdown
    · subst ht; exact hs
    · exact holdsLock_of_shutdown s hc hp ht
  cases st with
  | acquire at_lock unowned =>
    exact h.acquire unowned rfl rfl fun t ht => by
      refine holdsLock_of_shutdown s ?_ (fun _ => ?_) ht <;> rfl
  | release at_unlock =>
    exact h.release (t := .shutdown) (by simp [State.holdsLock, at_unlock, ShutdownPc.inSection])
      rfl rfl fun t ht => by
      refine holdsLock_of_shutdown s ?_ (fun _ => ?_) ht <;> rfl
  | broadcast at_broadcast =>
    exact stay rfl (holdsLock_wakeAll s subset_rfl) rfl
      (by simp [at_broadcast, ShutdownPc.inSection])
  | readNext w at_next =>
    refine stay rfl (fun _ => rfl) rfl ?_
    rw [at_next]
    exact ShutdownPc.inSection_traverse _
  | _ => exact stay rfl (fun _ => rfl) rfl (by simp [*, ShutdownPc.inSection])

end Step

end JiaTuanServer.Workqueue

import JiaTuanServer.Signals.Threads
import JiaTuanServer.Workqueue.Lock

/-!
# A handler and the lock of the thread it interrupts

`workqueue_shutdown` locks `jobs_mutex`, and a handler that runs it on the thread that owns the
mutex waits for itself. `OwnerRuns` is what excludes this: the owner of the mutex is a thread that
is running its lock section, not one that a handler has interrupted there. Every step but the
delivery of a signal keeps it.
-/

namespace JiaTuanServer.Signals

open Transition Machine Workqueue

variable {n : ℕ} {J : Type}

def HandlerPc.inSection : HandlerPc n → Bool
  | .shutdown pc => pc.inSection
  | _ => false

/-- `runServer` is inside the lock section of its own `workqueue_shutdown`. -/
def ServerPc.inSection : ServerPc n → Bool
  | .workqueueShutdown pc => pc.inSection
  | _ => false

namespace State

/-- The thread holds `jobs_mutex` by what it does outside any handler. -/
def baseHolds (s : State n J) : Thread n → Bool
  | .accept => (s.queue.caller ()).inSection || s.server.inSection
  | .worker w => (s.queue.pc w).holdsLock

/-- The thread holds `jobs_mutex` by what it is executing now. -/
def runsSection (s : State n J) (t : Thread n) : Bool :=
  match s.handlers t with
  | [] => s.baseHolds t
  | frame :: _ => frame.pc.inSection

/-- The owner of `jobs_mutex` is executing its lock section. -/
def OwnerRuns (s : State n J) : Prop :=
  ∀ t : Thread n, s.queue.jobsMutex = some t.owner → s.runsSection t = true

/-- The newest handler run of `t` waits for `jobs_mutex`, and `t` itself owns it. -/
def BlockedBelow (s : State n J) (t : Thread n) : Prop :=
  ∃ frame below, s.handlers t = frame :: below ∧ frame.pc = .shutdown .lock ∧
    s.queue.jobsMutex = some t.owner

/-- A signal is delivered only to a thread that does not own `jobs_mutex`. -/
def DeliveredUnowned (s : State n J) (a : Action n J) : Prop :=
  ∀ t signal, a = .deliver t signal → s.queue.jobsMutex ≠ some t.owner

end State

theorem Thread.owner_injective {t t' : Thread n} (h : t.owner = t'.owner) : t = t' := by
  cases t <;> cases t' <;> simp_all [owner]

variable {q v : Workqueue.State n Unit J} {s u : State n J} {k : ℕ}

@[simp] theorem State.baseHolds_setHandlers (t : Thread n) (fs : List (Frame n)) (t' : Thread n) :
    (s.setHandlers t fs).baseHolds t' = s.baseHolds t' := by
  cases t' <;> rfl

/-- A handler that waits for the lock is not in its section. -/
theorem State.OwnerRuns.not_blockedBelow (h : s.OwnerRuns) (t : Thread n) :
    ¬ s.BlockedBelow t := by
  rintro ⟨frame, below, top, waits, owned⟩
  have runs := h t owned
  simp [runsSection, top, waits, HandlerPc.inSection, ShutdownPc.inSection] at runs

theorem State.OwnerRuns.of_initial (h : Initial s) : s.OwnerRuns := by
  intro t owned
  simp [h.queue.jobsMutex] at owned

namespace State.OwnerRuns

theorem free (mutex : u.queue.jobsMutex = none) : u.OwnerRuns := by
  intro t owned
  simp [mutex] at owned

theorem acquire {t : Thread n} (mutex : u.queue.jobsMutex = some t.owner)
    (runs : u.runsSection t = true) : u.OwnerRuns := by
  intro t' owned
  rw [mutex] at owned
  rwa [← Thread.owner_injective (Option.some.inj owned)]

theorem keep (h : s.OwnerRuns) (mutex : u.queue.jobsMutex = s.queue.jobsMutex)
    (runs : ∀ t, s.runsSection t = true → u.runsSection t = true) : u.OwnerRuns :=
  fun t owned => runs t (h t (mutex ▸ owned))

end State.OwnerRuns

/-- The handlers stay where they are. -/
theorem runsSection_of_base (handlers : u.handlers = s.handlers)
    (base : ∀ t, s.handlers t = [] → s.baseHolds t = true → u.baseHolds t = true) (t : Thread n)
    (runs : s.runsSection t = true) : u.runsSection t = true := by
  unfold State.runsSection at runs ⊢
  rw [handlers]
  cases top : s.handlers t with
  | nil => exact base t top (by simpa [top] using runs)
  | cons frame below => simpa [top] using runs

/-- The handlers of one thread change. -/
theorem runsSection_of_setHandlers {t : Thread n} {fs : List (Frame n)}
    (handlers : u.handlers = Function.update s.handlers t fs)
    (base : ∀ t, s.baseHolds t = true → u.baseHolds t = true)
    (this : s.runsSection t = true → u.runsSection t = true) (t' : Thread n)
    (runs : s.runsSection t' = true) : u.runsSection t' = true := by
  by_cases ht : t' = t
  · exact ht ▸ this (ht ▸ runs)
  · unfold State.runsSection at runs ⊢
    rw [handlers, Function.update_of_ne ht]
    cases top : s.handlers t' with
    | nil => exact base t' (by simpa [top] using runs)
    | cons frame below => simpa [top] using runs

/-- A worker moves and keeps the lock if it has it. -/
theorem baseHolds_of_move {w : Fin n} {pc : WorkerPc J}
    (hpc : u.queue.pc = Function.update s.queue.pc w pc) (caller : u.queue.caller = s.queue.caller)
    (server : u.server = s.server)
    (this : s.handlers (.worker w) = [] → (s.queue.pc w).holdsLock = true → pc.holdsLock = true)
    (t : Thread n) (calm : s.handlers t = []) (holds : s.baseHolds t = true) :
    u.baseHolds t = true := by
  cases t with
  | accept => simpa [State.baseHolds, caller, server] using holds
  | worker v =>
    by_cases hv : v = w
    · subst hv
      simpa [State.baseHolds, hpc] using this calm holds
    · simpa [State.baseHolds, hpc, hv] using holds

/-- The main thread moves and keeps the lock if it has it, and so do the workers. -/
theorem baseHolds_of_main
    (workers : ∀ w, (s.queue.pc w).holdsLock = true → (u.queue.pc w).holdsLock = true)
    (main : s.baseHolds .accept = true → u.baseHolds .accept = true) (t : Thread n)
    (_ : s.handlers t = []) (holds : s.baseHolds t = true) : u.baseHolds t = true := by
  cases t with
  | accept => exact main holds
  | worker w => exact workers w holds

/-- Sleepers do not hold the lock, so waking them takes it from nobody. -/
theorem holdsLock_of_wakeAll {ws : Finset (Fin n)} (asleep : ws ⊆ q.sleepers) (w : Fin n)
    (holds : (q.pc w).holdsLock = true) : ((q.wakeAll ws).pc w).holdsLock = true := by
  by_cases hw : w ∈ ws
  · have := mem_sleepers.mp (asleep hw)
    simp [this, WorkerPc.holdsLock] at holds
  · simpa [hw] using holds

/-- What a step of `workqueue_shutdown` on thread `t` does to the lock. -/
theorem ShutdownOn.mutex {t : Thread n} {pc pc' : ShutdownPc n} (st : ShutdownOn q t pc v pc') :
    v.jobsMutex = none ∨ v.jobsMutex = some t.owner ∧ pc'.inSection = true ∨
    v.jobsMutex = q.jobsMutex ∧ (pc.inSection = true → pc'.inSection = true) := by
  cases st <;> simp [ShutdownPc.inSection]

theorem ShutdownOn.holdsLock {t : Thread n} {pc pc' : ShutdownPc n}
    (st : ShutdownOn q t pc v pc') (w : Fin n) (holds : (q.pc w).holdsLock = true) :
    (v.pc w).holdsLock = true := by
  cases st with
  | broadcast => exact holdsLock_of_wakeAll subset_rfl w holds
  | _ => exact holds

theorem ShutdownOn.caller {t : Thread n} {pc pc' : ShutdownPc n}
    (st : ShutdownOn q t pc v pc') : v.caller = q.caller := by
  cases st <;> rfl

variable [DecidableEq J]

/-- A step of the queue's threads. -/
theorem State.OwnerRuns.queue {a : Workqueue.Action n Unit J} (h : s.OwnerRuns)
    (threads : Threads s k) (runs : s.Runs a) (st : Workqueue.Step s.queue a v) :
    State.OwnerRuns { s with queue := v } := by
  cases st with
  | init st =>
    cases st with
    | create i at_create =>
      have off : s.queue.pc i = .notStarted := by
        by_contra on
        have count := threads.created.counted i (by simp [at_create, InitPc.inserted])
        rcases (threads.created.started i).mp on with lt | inserting
        · omega
        · simp [at_create] at inserting
      refine h.keep rfl (runsSection_of_base rfl (baseHolds_of_move rfl rfl rfl fun _ holds => ?_))
      simp [off, WorkerPc.holdsLock] at holds
    | _ => exact h.keep rfl (runsSection_of_base rfl fun t _ => by cases t <;> exact id)
  | @worker w v st =>
    have calm : s.handlers (.worker w) = [] := runs
    cases st with
    | acquire at_lock unowned =>
      refine .acquire (t := .worker w) rfl ?_
      simp [State.runsSection, calm, State.baseHolds, WorkerPc.holdsLock]
    | sleep at_wait => exact .free rfl
    | release job at_unlock => exact .free rfl
    | nothing at_test | start job at_test =>
      refine h.keep rfl (runsSection_of_base rfl (baseHolds_of_move rfl rfl rfl fun _ holds => ?_))
      simp [at_test, WorkerPc.holdsLock] at holds
    | _ =>
      refine h.keep rfl (runsSection_of_base rfl (baseHolds_of_move rfl rfl rfl fun _ _ => ?_))
      rfl
  | @jobReturns w job at_run =>
    refine h.keep rfl (runsSection_of_base rfl (baseHolds_of_move rfl rfl rfl fun _ holds => ?_))
    simp [at_run, WorkerPc.holdsLock] at holds
  | @wake w at_wait =>
    refine h.keep rfl (runsSection_of_base rfl (baseHolds_of_move rfl rfl rfl fun _ holds => ?_))
    simp [at_wait, WorkerPc.holdsLock] at holds
  | @call c job started at_idle =>
    refine h.keep rfl (runsSection_of_base rfl (baseHolds_of_main (fun _ => id) fun holds => ?_))
    simpa [State.baseHolds, at_idle, CallerPc.inSection] using holds
  | @caller c signalled v st =>
    obtain ⟨serving, calm⟩ : s.server = .dispatch ∧ s.handlers .accept = [] := runs
    cases st with
    | acquire job at_lock unowned =>
      refine .acquire (t := .accept) rfl ?_
      simp [State.runsSection, calm, State.baseHolds, CallerPc.inSection]
    | add job at_add =>
      refine h.keep rfl (runsSection_of_base rfl (baseHolds_of_main (fun _ => id) fun _ => ?_))
      simp [State.baseHolds, CallerPc.inSection]
    | signal job at_signal waiting one =>
      refine h.keep rfl (runsSection_of_base rfl
        (baseHolds_of_main (holdsLock_of_wakeAll waiting) fun _ => ?_))
      simp [State.baseHolds, CallerPc.inSection]
    | release job at_unlock => exact .free rfl
  | callShutdown started at_start => exact runs.elim
  | shutdown st => exact runs.elim
  | reuse => exact h.keep rfl fun _ => id

omit [DecidableEq J] in
/-- A step of `runServer`. -/
theorem State.OwnerRuns.server (h : s.OwnerRuns) (calm : s.handlers .accept = [])
    (st : ServerStep s u) : u.OwnerRuns := by
  cases st with
  | memset at_memset => exact .free rfl
  | shutdown pc pc' v at_shutdown st =>
    rcases st.mutex with mutex | ⟨mutex, inside⟩ | ⟨mutex, stays⟩
    · exact .free mutex
    · refine .acquire (t := .accept) mutex ?_
      simp [State.runsSection, calm, State.baseHolds, ServerPc.inSection, inside]
    · refine h.keep mutex (runsSection_of_base rfl
        (baseHolds_of_main st.holdsLock fun holds => ?_))
      simp only [State.baseHolds, st.caller, at_shutdown, ServerPc.inSection,
        Bool.or_eq_true] at holds ⊢
      exact holds.imp_right stays
  | failed status at_init done =>
    refine h.keep rfl (runsSection_of_base rfl (baseHolds_of_main (fun _ => id) fun holds => ?_))
    simpa [State.baseHolds, at_init, ServerPc.inSection] using holds
  | listen pc at_listen next =>
    refine h.keep rfl (runsSection_of_base rfl (baseHolds_of_main (fun _ => id) fun holds => ?_))
    rcases next with rfl | rfl <;>
      simpa [State.baseHolds, at_listen, ServerPc.inSection] using holds
  | _ =>
    refine h.keep rfl (runsSection_of_base rfl (baseHolds_of_main (fun _ => id) fun holds => ?_))
    simpa [State.baseHolds, ServerPc.inSection, ShutdownPc.inSection, *] using holds

omit [DecidableEq J] in
/-- A step of a handler. -/
theorem State.OwnerRuns.handler {t : Thread n} {ok : Bool} (h : s.OwnerRuns)
    (st : HandlerStep s t ok u) : u.OwnerRuns := by
  have outside {frame : Frame n} {below : List (Frame n)} (top : s.handlers t = frame :: below)
      (out : frame.pc.inSection = false) : s.runsSection t = true → u.runsSection t = true := by
    simp [runsSection, top, out]
  cases st with
  | loopexit signal below top =>
    exact h.keep rfl (runsSection_of_setHandlers rfl (fun t => by cases t <;> exact id)
      (outside top rfl))
  | callShutdown signal below top =>
    exact h.keep rfl (runsSection_of_setHandlers rfl (fun t => by cases t <;> exact id)
      (outside top rfl))
  | done signal below top =>
    exact h.keep rfl (runsSection_of_setHandlers rfl (fun t => by cases t <;> exact id)
      (outside top rfl))
  | shutdown signal below pc pc' v top st =>
    rcases st.mutex with mutex | ⟨mutex, inside⟩ | ⟨mutex, stays⟩
    · exact .free mutex
    · refine .acquire mutex ?_
      simp [State.runsSection, State.setHandlers, HandlerPc.inSection, inside]
    · refine h.keep mutex (runsSection_of_setHandlers rfl (fun t holds => ?_) fun runs => ?_)
      · cases t with
        | accept => simpa [State.baseHolds, st.caller, State.setHandlers] using holds
        | worker w => exact st.holdsLock w holds
      · simp only [State.runsSection, top, State.setHandlers, Function.update_self,
          HandlerPc.inSection] at runs ⊢
        exact stays runs

theorem Step.ownerRuns {a : Action n J} (st : Step s a u) (threads : Threads s k)
    (h : s.OwnerRuns) (unowned : s.DeliveredUnowned a) : u.OwnerRuns := by
  cases st with
  | queue runs st => exact h.queue threads runs st
  | server calm st => exact h.server calm st
  | @deliver t signal alive unblocked =>
    intro t' owned
    have other : t' ≠ t := by
      rintro rfl
      exact unowned t' signal rfl owned
    have runs := h t' owned
    have handlers : (s.setHandlers t (⟨signal, .loopexit⟩ :: s.handlers t)).handlers t' =
        s.handlers t' := Function.update_of_ne other _ _
    unfold State.runsSection at runs ⊢
    rw [handlers]
    cases top : s.handlers t' <;> simpa [top] using runs
  | handler st => exact h.handler st

/-- In a run in which no signal is delivered to the owner of `jobs_mutex`, no handler ever waits for
the mutex while the thread it runs on owns it. -/
theorem handler_never_blocked_below {s₀ : State n J} {tr : List (State n J × Action n J)}
    (initial : Initial s₀) (run : (machine n J).Run s₀ tr s)
    (unowned : Along State.DeliveredUnowned tr) :
    ∀ v ∈ visited tr s, ∀ t, ¬ v.BlockedBelow t := by
  intro v hv t
  obtain ⟨tr', hp, run'⟩ := run.prefix_of_visited hv
  have key : (∃ k, Threads v k) ∧ v.OwnerRuns := by
    refine run'.invariant (I := fun s => (∃ k, Threads s k) ∧ s.OwnerRuns) (unowned.of_prefix hp)
      ⟨⟨0, .of_initial initial⟩, .of_initial initial⟩ ?_
    rintro s a u ⟨⟨k, threads⟩, h⟩ unowned taken
    obtain ⟨k', threads', -⟩ := (step_cases taken).threads threads
    exact ⟨⟨k', threads'⟩, (step_cases taken).ownerRuns threads h unowned⟩
  exact key.2.not_blockedBelow t

/-- A test that settles `DeliveredUnowned` on a concrete run. -/
def deliveredUnownedTest (s : State n J) : Action n J → Bool
  | .deliver t _ => s.queue.jobsMutex ≠ some t.owner
  | _ => true

omit [DecidableEq J] in
theorem deliveredUnowned_of_test (s : State n J) (a : Action n J)
    (h : deliveredUnownedTest s a = true) : s.DeliveredUnowned a := by
  rintro t signal rfl
  simpa [deliveredUnownedTest] using h

/-- The start-up of a server with one worker, up to its accept loop. -/
def serveOne : List (Action 1 ℕ) :=
  List.replicate 4 (.server true none) ++ List.replicate 3 (.queue (.init true)) ++
    List.replicate 2 (.server true none)

/-- The worker sleeps; the main thread gets one signal in the accept loop and the other one inside
the handler, and both handlers run to their end. -/
theorem handler_never_blocked_below_nested :
    ∃ (tr : List (State 1 ℕ × Action 1 ℕ)) (s : State 1 ℕ), (machine 1 ℕ).Run start tr s ∧
      s.server = .dispatch ∧ s.queue.pc 0 = .woken ∧ s.handlers .accept = [] ∧
      ∀ v ∈ visited tr s, ∀ t, ¬ v.BlockedBelow t := by
  let acts : List (Action 1 ℕ) := List.flatten [
    serveOne, List.replicate 4 (.queue (.worker 0)), [.deliver .accept .sigint],
    List.replicate 2 (.handler .accept true none), [.deliver .accept .sigterm],
    List.replicate 18 (.handler .accept true none)]
  have ends : ((machine 1 ℕ).exec start acts).map
      (fun s => (s.server, s.queue.pc 0, s.handlers .accept)) =
        some (.dispatch, .woken, []) := by decide +kernel
  obtain ⟨s, hs, h⟩ := Option.map_eq_some_iff.mp ends
  obtain ⟨serving, h⟩ := Prod.mk.inj h
  obtain ⟨woken, calm⟩ := Prod.mk.inj h
  have unowned : Along State.DeliveredUnowned ((machine 1 ℕ).trace start acts) :=
    along_of_check deliveredUnowned_of_test (by decide +kernel)
  exact ⟨_, s, run_of_exec hs, serving, woken, calm,
    handler_never_blocked_below start_initial (run_of_exec hs) unowned⟩

/-- A signal reaches the main thread inside `workqueue_add_job`, after its lock. -/
theorem handler_blocked_below_add_job :
    ∃ (tr : List (State 1 ℕ × Action 1 ℕ)) (s : State 1 ℕ), (machine 1 ℕ).Run start tr s ∧
      s.server = .dispatch ∧ s.BlockedBelow .accept := by
  let acts : List (Action 1 ℕ) := List.flatten [
    serveOne, [.queue (.call () 7), .queue (.caller () ∅), .deliver .accept .sigint],
    List.replicate 4 (.handler .accept true none)]
  have ends : ((machine 1 ℕ).exec start acts).map
      (fun s => (s.server, s.handlers .accept, s.queue.jobsMutex)) =
        some (.dispatch, [⟨.sigint, .shutdown .lock⟩], some (.caller ())) := by decide +kernel
  obtain ⟨s, hs, h⟩ := Option.map_eq_some_iff.mp ends
  obtain ⟨serving, h⟩ := Prod.mk.inj h
  obtain ⟨waits, owned⟩ := Prod.mk.inj h
  exact ⟨_, s, run_of_exec hs, serving, _, _, waits, rfl, owned⟩

end JiaTuanServer.Signals

import JiaTuanServer.Server.Refinement
import JiaTuanServer.Workqueue.Attended

/-!
# The work that is left

Left to themselves the threads come to an end: without new connections, calls, callbacks and
spurious wake-ups every step of a thread lowers `State.workLeft`. A waiting job carries the work of
serving it, which pays for sending the worker that takes it round its loop once more, and a signal
or broadcast still to come carries the work of the workers that it may wake.
-/

namespace JiaTuanServer.Server

open Transition Workqueue Machine Counting

variable {n : ℕ}

/-- The next step of a thread that is inside one of the functions: `event_base_dispatch` makes no
more callbacks, and nobody calls anything new. -/
def ThreadStep : Action n → Prop
  | .queue (.worker _) | .queue (.caller _ _) | .queue .shutdown | .onAccept _ | .job _ => True
  | _ => False

def JobPc.workLeft : JobPc → ℕ
  | .load => 13
  | .enter _ => 12
  | .dispatch _ => 11
  | .closing _ => 10
  | .freeing _ => 9
  | .freeJob => 8
  | .returned => 7

def workerWork (pc : WorkerPc ℕ) (job : JobPc) : ℕ :=
  match pc with
  | .unlock (some _) => 15
  | .testJob (some _) => 14
  | .run _ => job.workLeft
  | .unlock none => 8
  | .testJob none => 7
  | .lock | .woken => 6
  | .testJobs => 5
  | .testTerminateInner => 4
  | .testTerminate => 3
  | .takeJob | .free => 2
  | .condWait | .exit => 1
  | .notStarted | .asleep | .exited => 0

/-- The work of a waiting job: at least that of the worker that has just taken it. -/
def jobWork : ℕ := 14

variable (n) in
def callerWork : CallerPc ℕ → ℕ
  | .lock _ => 4 + jobWork + n * 6
  | .add _ => 3 + jobWork + n * 6
  | .signal _ => 2 + n * 6
  | .unlock _ => 1
  | .idle => 0

variable (n) in
def AcceptPc.workLeft : AcceptPc → ℕ
  | .setnonblock _ _ => 14 + jobWork + n * 6
  | .mallocClient _ _ => 13 + jobWork + n * 6
  | .evbufferNew _ _ => 12 + jobWork + n * 6
  | .eventBaseNew _ _ => 11 + jobWork + n * 6
  | .buffereventNew _ _ => 10 + jobWork + n * 6
  | .enable _ => 9 + jobWork + n * 6
  | .mallocJob _ => 8 + jobWork + n * 6
  | .setJob _ => 7 + jobWork + n * 6
  | .addJob _ => 6 + jobWork + n * 6
  | .closing _ => 2
  | .adding _ | .close _ _ | .freeing _ => 1
  | .idle => 0

def shutdownWork : ShutdownPc n → ℕ
  | .setTerminate w => 8 + 2 * w.val + n * 6
  | .readNext w => 7 + 2 * w.val + n * 6
  | .lock => 6 + n * 6
  | .clearWorkers => 5 + n * 6
  | .clearJobs => 4 + n * 6
  | .broadcast => 3 + n * 6
  | .unlock => 1
  | .notCalled | .returned => 0

/-- The steps that the threads have left at most; `l` are the waiting jobs. -/
def State.workLeft (s : State n) (l : List ℕ) : ℕ :=
  ∑ w, workerWork (s.queue.pc w) (s.job w) + jobWork * l.length + callerWork n (s.queue.caller ()) +
    s.accept.workLeft n + shutdownWork s.queue.shutdown

variable {s u : State n} {k k' : ℕ} {l l' : List ℕ} {place place' : ℕ → Option (Owner n)}
  {q : Workqueue.State n Unit ℕ} {touched : List (Kind × ℕ)}

/-- Worker `w` moves. -/
theorem workLeft_move {w : Fin n}
    (others : ∀ v, v ≠ w → u.queue.pc v = s.queue.pc v ∧ u.job v = s.job v)
    (caller : u.queue.caller = s.queue.caller) (accept : u.accept = s.accept)
    (shutdown : u.queue.shutdown = s.queue.shutdown)
    (less : workerWork (u.queue.pc w) (u.job w) + jobWork * l'.length <
      workerWork (s.queue.pc w) (s.job w) + jobWork * l.length) :
    u.workLeft l' < s.workLeft l := by
  have sum := sum_of_move (f := fun v => workerWork (s.queue.pc v) (s.job v))
    (g := fun v => workerWork (u.queue.pc v) (u.job v)) w fun v hv => by
      obtain ⟨pc, job⟩ := others v hv
      simp only [pc, job]
  simp only [State.workLeft, caller, accept, shutdown]
  omega

/-- Waking waiters costs six steps each at most. -/
theorem workerWork_wakeAll (ws : Finset (Fin n)) (job : Fin n → JobPc) (hws : ws ⊆ q.sleepers) :
    ∑ w, workerWork ((q.wakeAll ws).pc w) (job w) ≤ ∑ w, workerWork (q.pc w) (job w) + n * 6 := by
  have raise := sum_le_of_raise (f := fun w => workerWork (q.pc w) (job w))
    (g := fun w => workerWork ((q.wakeAll ws).pc w) (job w)) (c := 6) fun w => by
      by_cases hw : w ∈ ws
      · have asleep : q.pc w = .asleep := mem_sleepers.mp (hws hw)
        simp [hw, asleep, workerWork]
      · simp [hw]
  simpa using raise

/-- A step of `worker_function`. -/
theorem Inv.workLeft_worker (h : Inv s k l place) (attended : Attended s.queue) {w : Fin n}
    (st : WorkerStep s.queue w q)
    (change : s.queue.JobsChange (.worker w : Workqueue.Action n Unit ℕ) l l') :
    (s.withQueue q touched).workLeft l' < s.workLeft l := by
  have jobs := (change.resolve_left fun hd => hd.1).2
  have move {p : WorkerPc ℕ} (hpc : q.pc = Function.update s.queue.pc w p)
      (hc : q.caller = s.queue.caller) (hs : q.shutdown = s.queue.shutdown)
      (less : workerWork p (s.job w) + jobWork * l'.length <
        workerWork (s.queue.pc w) (s.job w) + jobWork * l.length) :
      (s.withQueue q touched).workLeft l' < s.workLeft l := by
    refine workLeft_move (w := w) (fun v hv => ⟨?_, rfl⟩) hc rfl hs ?_
    · simp [State.withQueue, hpc, hv]
    · simpa [State.withQueue, hpc] using less
  have same (kept : s.queue.removed (.worker w : Workqueue.Action n Unit ℕ) = none) : l' = l := by
    simpa [kept, Workqueue.State.added] using jobs.symm
  cases st with
  | acquire at_lock unowned =>
    have hl : l' = l := same (by rcases at_lock with e | e <;> simp [Workqueue.State.removed, e])
    refine move (p := .testJobs) rfl rfl rfl ?_
    rcases at_lock with e | e <;> simp [e, hl, workerWork]
  | take j at_take head =>
    have hl : l = j :: l' := by
      simpa [Workqueue.State.removed, Workqueue.State.added, at_take, head] using jobs
    refine move (p := .unlock (some j)) rfl rfl rfl ?_
    simp only [at_take, hl, workerWork, jobWork, List.length_cons]
    omega
  | takeNothing at_take empty => exact absurd empty (attended.finds w (.inl at_take))
  | release job at_unlock =>
    have hl : l' = l := same (by simp [Workqueue.State.removed, at_unlock])
    refine move (p := .testJob job) rfl rfl rfl ?_
    cases job <;> simp [at_unlock, hl, workerWork]
  | start j at_test =>
    have hl : l' = l := same (by simp [Workqueue.State.removed, at_test])
    have load : s.job w = .load := h.job w (by simp [at_test])
    exact move (p := .run j) rfl rfl rfl (by simp [at_test, hl, load, workerWork, JobPc.workLeft])
  | _ =>
    have hl : l' = l := same (by simp [Workqueue.State.removed, *])
    exact move rfl rfl rfl (by simp [*, workerWork])

/-- A step of `workqueue_add_job`. -/
theorem workLeft_caller {c : Unit} {signalled : Finset (Fin n)}
    (st : CallerStep s.queue c signalled q)
    (change : s.queue.JobsChange (.caller c signalled : Workqueue.Action n Unit ℕ) l l') :
    (s.withQueue q touched).workLeft l' < s.workLeft l := by
  have jobs := (change.resolve_left fun hd => hd.1).2
  have same (kept : s.queue.added (.caller c signalled : Workqueue.Action n Unit ℕ) = none) :
      l' = l := by
    simpa [kept, Workqueue.State.removed] using jobs.symm
  cases st with
  | add j at_add =>
    have hl : l' = j :: l := by
      simpa [Workqueue.State.added, Workqueue.State.removed, at_add] using jobs.symm
    simp only [State.workLeft, State.withQueue, hl, Workqueue.State.callerGoto_caller,
      Function.update_self, at_add, callerWork, jobWork, List.length_cons,
      Workqueue.State.callerGoto_pc, Workqueue.State.callerGoto_shutdown]
    omega
  | signal j at_signal waiting one =>
    have hl : l' = l := same (by simp [Workqueue.State.added, at_signal])
    have woken := workerWork_wakeAll signalled s.job waiting
    simp only [State.workLeft, State.withQueue, hl, Workqueue.State.callerGoto_caller,
      Function.update_self, at_signal, callerWork, Workqueue.State.callerGoto_pc,
      Workqueue.State.callerGoto_shutdown, Workqueue.State.wakeAll_shutdown]
    omega
  | _ =>
    have hl : l' = l := same (by simp [Workqueue.State.added, *])
    simp [State.workLeft, State.withQueue, *, callerWork]

/-- A step of `workqueue_shutdown`. -/
theorem Inv.workLeft_shutdown (h : Inv s k l place) (st : ShutdownStep s.queue q)
    (change : s.queue.JobsChange (.shutdown : Workqueue.Action n Unit ℕ) l l') :
    (s.withQueue q touched).workLeft l' < s.workLeft l := by
  have fewer : l'.length ≤ l.length := by
    rcases change with ⟨-, hl⟩ | ⟨-, hl⟩
    · simp [hl]
    · have hl : l' = l := by
        simpa [Workqueue.State.added, Workqueue.State.removed] using hl.symm
      simp [hl]
  have move (hpc : q.pc = s.queue.pc) (hc : q.caller = s.queue.caller)
      (less : shutdownWork q.shutdown < shutdownWork s.queue.shutdown) :
      (s.withQueue q touched).workLeft l' < s.workLeft l := by
    simp only [State.workLeft, State.withQueue, hpc, hc, jobWork]
    omega
  cases st with
  | readNext w at_next =>
    have hw := h.coherent.workers.cursor w (.inr at_next)
    refine move rfl rfl ?_
    simp only [h.coherent.workers.next w hw, at_next]
    cases hn : w.val with
    | zero => simp [newest, ShutdownPc.traverse, shutdownWork, hn]
    | succ v =>
      have lt : v < n := by omega
      simp only [newest, lt, dif_pos, ShutdownPc.traverse, shutdownWork, hn]
      omega
  | broadcast at_broadcast =>
    have woken := workerWork_wakeAll s.queue.sleepers s.job subset_rfl
    simp only [State.workLeft, State.withQueue, at_broadcast, shutdownWork, jobWork,
      Workqueue.State.wakeAll_caller]
    omega
  | _ => exact move rfl rfl (by simp [*, shutdownWork])

/-- A step of `on_accept` that goes on to `next` and leaves the queue alone. -/
theorem workLeft_accept {next : AcceptPc} {m : Mem} (same : l' = l)
    (less : next.workLeft n < s.accept.workLeft n) :
    (State.acceptGoto next { s with mem := m }).workLeft l' < s.workLeft l := by
  subst same
  simp only [State.workLeft, State.acceptGoto]
  omega

theorem perform_done {α : Type} {op : Op α} {next : α → State n → State n}
    (taken : perform s op next = some u) (sound : u.fault = none) :
    ∃ x m, u = next x { s with mem := m } := by
  rcases perform_cases taken with done | ⟨f, rfl⟩
  · exact done
  · cases sound

theorem Inv.workLeft_onAccept (h : Inv s k l place) (h' : Inv u k' l' place') {ok : Bool}
    (taken : onAcceptStep s ok = some u) : u.workLeft l' < s.workLeft l := by
  have same (queue : u.queue = s.queue) : l' = l :=
    h'.coherent.jobs.chain.unique (queue ▸ h.coherent.jobs.chain)
  have goesTo {op : Op Unit} {next : AcceptPc}
      (taken : perform s op (fun _ => .acceptGoto next) = some u)
      (less : next.workLeft n < s.accept.workLeft n) : u.workLeft l' < s.workLeft l := by
    obtain ⟨x, m, rfl⟩ := perform_done taken h'.fault
    exact workLeft_accept (same rfl) less
  cases at_pc : s.accept with
  | idle => simp [onAcceptStep, at_pc] at taken
  | addJob c =>
    simp only [onAcceptStep, at_pc] at taken
    obtain ⟨q, moved, taken⟩ := Option.bind_eq_some_iff.mp taken
    obtain ⟨x, m, rfl⟩ := perform_done taken h'.fault
    cases step_cases moved with
    | call started at_idle =>
      have hl : l' = l := h'.coherent.jobs.chain.unique h.coherent.jobs.chain
      simp [State.workLeft, hl, at_pc, at_idle, callerWork, AcceptPc.workLeft]
      omega
  | adding c =>
    simp only [onAcceptStep, at_pc] at taken
    split at taken
    · exact goesTo taken (by simp [at_pc, AcceptPc.workLeft])
    · cases taken
  | mallocClient c fd | mallocJob c =>
    simp only [onAcceptStep, at_pc] at taken
    split at taken <;> exact goesTo taken (by simp [at_pc, AcceptPc.workLeft]; try omega)
  | setnonblock c fd | evbufferNew c fd | eventBaseNew c fd | buffereventNew c fd =>
    simp only [onAcceptStep, at_pc] at taken
    refine goesTo taken ?_
    cases ok
    all_goals
      simp only [at_pc, AcceptPc.workLeft, if_true, Bool.false_eq_true, if_false]
      omega
  | enable c | setJob c | close c fd | closing c | freeing c =>
    simp only [onAcceptStep, at_pc] at taken
    exact goesTo taken (by simp [at_pc, AcceptPc.workLeft])

theorem Inv.workLeft_job (h : Inv s k l place) (h' : Inv u k' l' place') {w : Fin n}
    (taken : Server.jobStep s w = some u) : u.workLeft l' < s.workLeft l := by
  cases run : s.queue.pc w with
  | run c =>
    simp only [Server.jobStep, run] at taken
    have goesTo {α : Type} {op : Op α} {next : α → JobPc}
        (taken : perform s op (fun x => .jobGoto w (next x)) = some u)
        (less : ∀ x, (next x).workLeft < (s.job w).workLeft) : u.workLeft l' < s.workLeft l := by
      obtain ⟨x, m, rfl⟩ := perform_done taken h'.fault
      have hl : l' = l := h'.coherent.jobs.chain.unique h.coherent.jobs.chain
      refine workLeft_move (w := w) (fun v hv => ⟨rfl, by simp [State.jobGoto, hv]⟩) rfl rfl rfl ?_
      simp [State.jobGoto, run, workerWork, hl, less x]
    cases at_pc : s.job w with
    | returned =>
      simp only [at_pc] at taken
      obtain ⟨q, moved, taken⟩ := Option.bind_eq_some_iff.mp taken
      obtain ⟨x, m, rfl⟩ := perform_done taken h'.fault
      cases step_cases moved with
      | jobReturns j at_run =>
        have hl : l' = l := h'.coherent.jobs.chain.unique h.coherent.jobs.chain
        refine workLeft_move (w := w) (fun v hv => ⟨?_, ?_⟩) rfl rfl rfl ?_
        · simp [hv]
        · simp [State.jobGoto, hv]
        · simp [run, at_pc, workerWork, hl, JobPc.workLeft]
    | _ =>
      simp only [at_pc] at taken
      exact goesTo taken fun x => by simp [at_pc, JobPc.workLeft]
  | _ => simp [Server.jobStep, run] at taken

/-- Every step of a thread lowers the work that is left. -/
theorem Inv.workLeft_lt (h : Inv s k l place) (attended : Attended s.queue)
    (h' : Inv u k' l' place') {a : Action n} (thread : ThreadStep a)
    (taken : Server.step s a = some u) : u.workLeft l' < s.workLeft l := by
  simp only [Server.step, h.fault, if_true] at taken
  cases a with
  | queue a =>
    simp only [queueStep] at taken
    split at taken
    · rename_i internal
      obtain ⟨q, moved, -⟩ := Option.bind_eq_some_iff.mp taken
      obtain ⟨touched, run, -⟩ := h.queueStep_eq internal moved
      simp only [queueStep, internal, if_true] at run
      rw [run] at taken
      cases taken
      obtain ⟨k'', l'', coherent, -, change⟩ :=
        (step_cases moved).coherent h.coherent (h.ownsBlock internal)
      obtain rfl : l'' = l' := coherent.jobs.chain.unique h'.coherent.jobs.chain
      cases step_cases moved with
      | worker st => exact h.workLeft_worker attended st change
      | caller st => exact workLeft_caller st change
      | shutdown st => exact h.workLeft_shutdown st change
      | _ => exact thread.elim
    · cases taken
  | onAccept ok => exact h.workLeft_onAccept h' taken
  | job w => exact h.workLeft_job h' taken
  | accept fd => exact thread.elim
  | callback w cb => exact thread.elim

end JiaTuanServer.Server

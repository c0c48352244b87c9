import JiaTuanServer.Library.Inevitable
import JiaTuanServer.Server.InService
import JiaTuanServer.Server.Release
import JiaTuanServer.Workqueue.Progress

/-!
# What is released in whatever order the threads go on

Before `workqueue_shutdown` is called every connection will be released, and from then on every one
in service: while it is held some thread can go on, every step keeps it on its way, and the work
that is left comes to an end.
-/

namespace JiaTuanServer.Server

open Transition Workqueue Machine Counting

variable {n : ℕ}

/-- Connection `c` will be released. -/
def State.WillRelease (s : State n) (c : ℕ) : Prop :=
  s.queue.shutdown = .notCalled ∨ s.InService c

/-- Some thread can take its next step. -/
def State.Moves (s : State n) : Prop := ∃ a u, ThreadStep a ∧ step s a = some u

variable {s u : State n} {k k' : ℕ} {l l' : List ℕ} {place place' : ℕ → Option (Owner n)} {c : ℕ}
  {a : Action n}

/-! ## Somebody can always go on -/

theorem perform_some {α : Type} (s : State n) (op : Op α) (next : α → State n → State n) :
    ∃ u, perform s op next = some u := by
  unfold perform
  split <;> exact ⟨_, rfl⟩

theorem Inv.queue_enabled (h : Inv s k l place) {b : Workqueue.Action n Unit ℕ}
    {q : Workqueue.State n Unit ℕ} (internal : ofQueue b = true)
    (moved : Workqueue.step s.queue b = some q) : ∃ u, Server.step s (.queue b) = some u := by
  obtain ⟨touched, run, -⟩ := h.queueStep_eq internal moved
  exact ⟨_, by simp only [Server.step, h.fault, if_true, run]; rfl⟩

theorem Inv.queue_moves (h : Inv s k l place) {b : Workqueue.Action n Unit ℕ}
    {q : Workqueue.State n Unit ℕ} (internal : ofQueue b = true)
    (thread : ThreadStep (.queue b : Action n)) (moved : Workqueue.step s.queue b = some q) :
    s.Moves := by
  obtain ⟨u, taken⟩ := h.queue_enabled internal moved
  exact ⟨.queue b, u, thread, taken⟩

/-- A worker that runs, and does not wait for the lock, goes on. -/
theorem Inv.worker_moves (h : Inv s k l place) {w : Fin n}
    (up : s.queue.pc w ≠ .notStarted ∧ s.queue.pc w ≠ .asleep ∧ s.queue.pc w ≠ .exited)
    (free : s.queue.pc w = .lock ∨ s.queue.pc w = .woken → s.queue.jobsMutex = none) :
    s.Moves := by
  have goes (enabled : ∃ q, workerFunction s.queue w = some q) : s.Moves := by
    obtain ⟨q, moved⟩ := enabled
    exact h.queue_moves (b := .worker w) rfl trivial moved
  cases hpc : s.queue.pc w with
  | run j =>
    obtain ⟨u, taken⟩ : ∃ u, Server.jobStep s w = some u := by
      cases at_pc : s.job w <;> simp only [Server.jobStep, hpc, at_pc]
      case returned => simpa [Workqueue.step, hpc] using perform_some _ _ _
      all_goals exact perform_some _ _ _
    exact ⟨.job w, u, trivial, by simpa only [Server.step, h.fault, if_true] using taken⟩
  | takeJob =>
    apply goes
    cases head : s.queue.waitingJobs <;> simp [workerFunction, hpc, head]
  | testJob job =>
    apply goes
    cases job <;> simp [workerFunction, hpc]
  | _ =>
    apply goes
    simp_all [workerFunction]

/-- `on_accept` goes on, unless it is inside `workqueue_add_job`. -/
theorem Reached.accept_moves (h : Reached s k l place) (some : 0 < s.mem.accepted)
    (on : s.accept ≠ .idle) (back : ∀ d, s.accept = .adding d → s.queue.caller () = .idle) :
    s.Moves := by
  obtain ⟨u, taken⟩ : ∃ u, onAcceptStep s true = Option.some u := by
    cases at_pc : s.accept with
    | idle => exact absurd at_pc on
    | addJob d =>
      have idle : s.queue.caller () = .idle := by
        cases hc : s.queue.caller () with
        | idle => rfl
        | _ =>
          have adding := h.inv.caller _ (by simp [hc, callerJob]; rfl)
          simp [at_pc] at adding
      have ready := h.accepting some
      simp only [onAcceptStep, at_pc, Workqueue.step, ready, idle, InitPc.isReturned, and_self,
        if_true, Option.bind_some]
      exact perform_some _ _ _
    | adding d =>
      simp only [onAcceptStep, at_pc, back d at_pc, if_true]
      exact perform_some _ _ _
    | _ =>
      simp only [onAcceptStep, at_pc, if_true]
      exact perform_some _ _ _
  exact ⟨.onAccept true, u, trivial, by simpa only [Server.step, h.inv.fault, if_true] using taken⟩

/-- Before a shutdown the owner of `jobs_mutex` goes on. -/
theorem Reached.owner_moves (h : Reached s k l place) (calm : s.queue.shutdown = .notCalled)
    {t : Thread n Unit} (owner : s.queue.jobsMutex = some t) : s.Moves := by
  have sound : Sound s.queue k := by
    refine ⟨h.inv.coherent.owned, h.inv.coherent.workers, ?_, ?_⟩
    · intro locked
      simp [calm, ShutdownPc.hasLocked] at locked
    · intro sent
      simp [calm, ShutdownPc.hasBroadcast] at sent
  have clear : s.queue.Undoomed := by
    intro w flag
    simp [sound.workers.clear calm w] at flag
  obtain ⟨b, q, own, moved, -⟩ := owner_progress (sound.lockUsable clear t owner) clear
  cases b with
  | worker w => exact h.inv.queue_moves (b := .worker w) rfl trivial moved
  | caller d signalled => exact h.inv.queue_moves (b := .caller d signalled) rfl trivial moved
  | shutdown => exact h.inv.queue_moves (b := .shutdown) rfl trivial moved
  | _ => exact own.elim

/-- Before a shutdown, while a job waits and the lock is free, a worker is up. -/
theorem Reached.waiting_moves (hn : 0 < n) (h : Reached s k l place) (some : 0 < s.mem.accepted)
    (calm : s.queue.shutdown = .notCalled) (free : s.queue.jobsMutex = none) (waits : c ∈ l) :
    s.Moves := by
  have clear := h.inv.coherent.workers.clear calm
  have started := h.attended.started (h.accepting some)
  obtain ⟨w, awake⟩ : ∃ w, s.queue.pc w ≠ .asleep := by
    by_contra asleep
    simp only [not_exists, not_not] at asleep
    have sleeper : s.queue.sleepers.Nonempty := ⟨⟨0, hn⟩, mem_sleepers.mpr (asleep _)⟩
    have covered := h.inv.coherent.balanced clear sleeper
    have quiet : s.queue.signalPending = 0 := signalPending_of_owner (by simp [free])
    have nobody : ¬ 0 < tally WorkerPc.examining s.queue.pc := by
      rw [tally_pos]
      rintro ⟨w, examining⟩
      simp [asleep w, WorkerPc.examining] at examining
    have waiting := List.length_pos_of_mem waits
    omega
  refine h.inv.worker_moves (w := w) ⟨started w, awake, fun out => ?_⟩ fun _ => free
  have flag := h.inv.coherent.workers.leaving w (by simp [out, WorkerPc.leaving])
  simp [clear w] at flag

/-- While a connection is held and will be released, somebody goes on. -/
theorem Reached.moves (hn : 0 < n) (h : Reached s k l place) (held : place c ≠ none)
    (safe : s.WillRelease c) : s.Moves := by
  obtain ⟨o, ho⟩ := Option.ne_none_iff_exists'.mp held
  have some : 0 < s.mem.accepted := Nat.zero_lt_of_lt (h.inv.bound c o ho)
  have carrier {w : Fin n} (has : carries (s.queue.pc w) = Option.some c) : s.Moves := by
    have up : (s.queue.pc w ≠ .notStarted ∧ s.queue.pc w ≠ .asleep ∧ s.queue.pc w ≠ .exited) ∧
        s.queue.pc w ≠ .lock ∧ s.queue.pc w ≠ .woken := by
      cases hpc : s.queue.pc w <;> simp_all [carries]
    exact h.inv.worker_moves up.1 fun waits => (waits.elim up.2.1 up.2.2).elim
  rcases safe with calm | ⟨w, has⟩ | gives | ⟨head, w, at_take⟩
  · cases owner : s.queue.jobsMutex with
    | some t => exact h.owner_moves calm owner
    | none =>
      have holds := (h.inv.holds c o).mpr ho
      cases o with
      | queue => exact h.waiting_moves hn some calm owner holds
      | worker w => exact carrier holds
      | accept =>
        by_cases out : ∀ d, s.accept = .adding d → s.queue.caller () = .idle
        · refine h.accept_moves some (fun idle => ?_) out
          simp [State.Holds, State.accepting, idle, AcceptPc.conn] at holds
        · -- `workqueue_add_job` is about to lock the mutex, which is free
          have caller : ∃ q, workqueueAddJob s.queue () ∅ = Option.some q := by
            have outside : (s.queue.caller ()).inSection = false := by
              by_contra inside
              have mine := (h.inv.coherent.owned (.caller ())).mpr
                (by simpa [Workqueue.State.holdsLock] using inside)
              simp [owner] at mine
            cases hc : s.queue.caller () <;> simp_all [CallerPc.inSection, workqueueAddJob]
          obtain ⟨q, moved⟩ := caller
          exact h.inv.queue_moves (b := .caller () ∅) rfl trivial moved
  · exact carrier has
  · refine h.accept_moves some (fun idle => ?_) fun d adding => ?_
    · simp [idle, AcceptPc.givesUp] at gives
    · simp [adding, AcceptPc.givesUp] at gives
  · exact h.inv.worker_moves (w := w) (by simp [at_take]) (by simp [at_take])

/-! ## What will be released is released -/

/-- The connection of a step that `on_accept` takes. -/
theorem accept_of_step (taken : step s a = some u) :
    u.accept = s.accept ∨ s.accept = .idle ∧ u.accept.givesUp = none ∨ ∃ ok, a = .onAccept ok := by
  cases a with
  | onAccept ok => exact .inr (.inr ⟨ok, rfl⟩)
  | accept fd =>
    simp only [step, acceptStep] at taken
    split at taken
    on_goal 2 => cases taken
    split at taken
    on_goal 2 => cases taken
    rename_i ready
    have same : u.accept.givesUp = none := by
      cases fd with
      | none => rw [perform_pure taken]; simp [ready.1, AcceptPc.givesUp]
      | some fd =>
        simp only at taken
        split at taken
        · cases taken; rfl
        · cases taken
    exact .inr (.inl ⟨ready.1, same⟩)
  | queue b =>
    simp only [step, queueStep] at taken
    split at taken
    on_goal 2 => cases taken
    split at taken
    on_goal 2 => cases taken
    obtain ⟨q, -, taken⟩ := Option.bind_eq_some_iff.mp taken
    rcases perform_cases taken with ⟨x, m, rfl⟩ | ⟨f, rfl⟩ <;> exact .inl rfl
  | job w =>
    simp only [step, jobStep] at taken
    split at taken
    on_goal 2 => cases taken
    split at taken
    on_goal 2 => cases taken
    have same {α : Type} {op : Op α} {next : α → State n → State n}
        (taken : perform s op next = some u) (keeps : ∀ x s, (next x s).accept = s.accept) :
        u.accept = s.accept := by
      rcases perform_cases taken with ⟨x, m, rfl⟩ | ⟨f, rfl⟩
      · exact keeps x _
      · rfl
    cases at_pc : s.job w <;> simp only [at_pc] at taken
    case returned =>
      obtain ⟨q, -, taken⟩ := Option.bind_eq_some_iff.mp taken
      exact .inl (same taken fun _ _ => rfl)
    all_goals exact .inl (same taken fun _ _ => rfl)
  | callback w cb =>
    simp only [step, callbackStep] at taken
    split at taken
    on_goal 2 => cases taken
    split at taken
    on_goal 2 => cases taken
    rcases perform_cases taken with ⟨x, m, rfl⟩ | ⟨f, rfl⟩ <;> exact .inl rfl

/-- A worker that carries a connection keeps it until it has released it. -/
theorem Inv.carries_step (h : Inv s k l place) (h' : Inv u k' l' place')
    (taken : Server.step s a = some u) {w : Fin n} (has : carries (s.queue.pc w) = some c) :
    carries (u.queue.pc w) = some c ∨ u.mem.IsReleased c := by
  rcases h'.onQueue taken with same | ⟨b, hb, st⟩
  · exact .inl (same ▸ has)
  by_cases returns : b = .jobReturns w
  · subst returns
    obtain ⟨rfl, at_end⟩ := job_of_jobReturns h.fault taken hb
    cases run : s.queue.pc w with
    | run j =>
      obtain rfl : j = c := by simpa [run, carries] using has
      obtain ⟨-, shows⟩ := h.shows_of_run run
      simp only [Server.step, h.fault, if_true, Server.jobStep, run, at_end] at taken
      obtain ⟨q, -, taken⟩ := Option.bind_eq_some_iff.mp taken
      rw [perform_pure taken]
      rw [at_end] at shows
      refine .inr (Mem.Shows.isReleased ?_)
      exact (shows.frame (sameAt_touched _ _ _)).imp fun _ hv => ⟨_, hv⟩
    | _ => simp [Server.step, h.fault, Server.jobStep, run] at taken
  · exact .inl (carries_of_step st h.coherent.workers has returns)

/-- Every step but the call of `workqueue_shutdown` keeps what will be released on its way. -/
theorem Reached.willRelease (h : Reached s k l place) (h' : Reached u k' l' place')
    (taken : Server.step s a = some u) (other : a ≠ .queue .callShutdown)
    (safe : s.WillRelease c) : u.WillRelease c ∨ u.mem.IsReleased c := by
  rcases safe with calm | ⟨w, has⟩ | gives | ⟨head, w, at_take⟩
  · rcases h'.inv.onQueue taken with same | ⟨b, hb, st⟩
    · exact .inl (.inl (same ▸ calm))
    · refine .inl (.inl (st.notCalled calm ?_))
      rintro rfl
      rcases onQueue_cases hb with e | ⟨ok, c, -, e⟩ | ⟨w, -, -, e⟩
      · exact other e
      · cases e
      · cases e
  · exact (h.inv.carries_step h'.inv taken has).imp_left fun has => .inr (.inl ⟨w, has⟩)
  · rcases accept_of_step taken with same | ⟨idle, -⟩ | ⟨ok, rfl⟩
    · exact .inl (.inr (.inr (.inl (same ▸ gives))))
    · simp [idle, AcceptPc.givesUp] at gives
    · have mine : s.accepting = some c := by
        cases hpc : s.accept <;> simp_all [State.accepting, AcceptPc.givesUp, AcceptPc.conn]
      by_cases returns : u.accept = .idle
      · exact .inr (h.inv.failed mine taken returns)
      · have goes {op : Op Unit} {next : AcceptPc}
            (taken : perform s op (fun _ => .acceptGoto next) = some u) : u.accept = next := by
          obtain ⟨x, m, rfl⟩ := perform_done taken h'.inv.fault
          rfl
        simp only [Server.step, h.inv.fault, if_true] at taken
        cases hpc : s.accept <;> simp only [hpc, AcceptPc.givesUp, reduceCtorEq] at gives
        all_goals simp only [onAcceptStep, hpc] at taken
        case closing => exact .inl (.inr (.inr (.inl (by rw [goes taken]; exact gives))))
        all_goals exact absurd (goes taken) returns
  · rcases h'.inv.onQueue taken with same | ⟨b, -, st⟩
    · exact .inl (.inr (.inr (.inr (same ▸ ⟨head, w, at_take⟩))))
    by_cases mine : b = .worker w
    · subst mine
      exact .inl (.inr (.inl ⟨w, takes_of_step st at_take head⟩))
    · obtain ⟨at_take, same⟩ :=
        st.head_of_takeJob h.inv.coherent.owned h.inv.coherent.workers at_take mine
      exact .inl (.inr (.inr (.inr ⟨same ▸ head, w, at_take⟩)))

/-- A connection in service has a holder. -/
theorem Inv.place_of_inService (h : Inv s k l place) (serves : s.InService c) : place c ≠ none := by
  have held {o : Owner n} (holds : s.Holds l c o) : place c ≠ none := by
    simp [(h.holds c o).mp holds]
  rcases serves with ⟨w, has⟩ | gives | ⟨head, -⟩
  · exact held (o := .worker w) has
  · refine held (o := .accept) ?_
    cases hpc : s.accept <;>
      simp_all [State.Holds, State.accepting, AcceptPc.givesUp, AcceptPc.conn]
  · refine held (o := .queue) ?_
    obtain ⟨rest, hl⟩ := (head ▸ h.coherent.jobs.chain).of_some
    simp [State.Holds, hl]

/-- A connection that will be released has a holder or has been released. -/
theorem Inv.place_of_willRelease (h : Inv s k l place) (lt : c < s.mem.accepted)
    (safe : s.WillRelease c) (unreleased : ¬ s.mem.IsReleased c) : place c ≠ none := by
  rcases safe with calm | serves
  · intro nobody
    have account := h.account c
    simp only [nobody, State.Account, lt, if_true, calm, dropped, Bool.false_eq_true, false_and,
      or_false] at account
    exact unreleased account.isReleased
  · exact h.place_of_inService serves

/-- In whatever order the threads take their steps, what will be released is released. -/
theorem Reached.inevitable (hn : 0 < n) (h : Reached s k l place) (lt : c < s.mem.accepted)
    (safe : s.WillRelease c) :
    (machine n).Inevitable ThreadStep (fun t => t.mem.IsReleased c) s := by
  refine Inevitable.of_rank (P := fun r s => ∃ k l place, Reached s k l place ∧
    c < s.mem.accepted ∧ s.WillRelease c ∧ r = s.workLeft l) ?_ ?_ ⟨k, l, place, h, lt, safe, rfl⟩
  · rintro r s ⟨k, l, place, h, lt, safe, -⟩ unreleased
    exact h.moves hn (h.inv.place_of_willRelease lt safe unreleased) safe
  · rintro r s a u ⟨k, l, place, h, lt, safe, rfl⟩ - thread taken
    obtain ⟨k', l', place', h', confined⟩ := h.step taken
    have other : a ≠ .queue .callShutdown := by
      rintro rfl
      exact thread
    rcases h.willRelease h' taken other safe with safe' | released
    · refine .inr ⟨u.workLeft l', h.inv.workLeft_lt h.attended h'.inv thread taken,
        k', l', place', h', ?_, safe', rfl⟩
      rcases confined.accepted taken with same | ⟨more, -⟩ <;> omega
    · exact .inl released

end JiaTuanServer.Server

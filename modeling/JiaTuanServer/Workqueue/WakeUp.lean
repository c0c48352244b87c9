import JiaTuanServer.Workqueue.Jobs

/-!
# No lost wake-up

One signal is sent for each job, and it may wake several workers, or none, or a worker that a
thief then beats to the lock. `Balanced` survives all of this because it counts every worker that
has yet to look at the queue, woken by that signal or not: a worker leaves the count only by taking
a job or by seeing the queue empty.
-/

namespace JiaTuanServer.Workqueue

open Transition Linked Counting Machine

variable {n : ℕ} {κ J : Type} [DecidableEq κ] [DecidableEq J] {s u : State n κ J} {l l' : List J}

omit [DecidableEq κ] [DecidableEq J] in
/-- The count is kept by a step that adds no more jobs than it adds workers on their way or signals
to come, and puts nobody to sleep. -/
theorem State.Balanced.of_le (h : s.Balanced l)
    (flags : (∀ w, u.terminate w = false) → ∀ w, s.terminate w = false)
    (sleep : u.sleepers.Nonempty → s.sleepers.Nonempty)
    (le : l'.length + (tally WorkerPc.examining s.pc + s.signalPending) ≤
      l.length + (tally WorkerPc.examining u.pc + u.signalPending)) : u.Balanced l' := by
  intro clear asleep
  have old := h (flags clear) (sleep asleep)
  omega

omit [DecidableEq κ] [DecidableEq J] in
/-- Nobody falls asleep when worker `w` moves elsewhere. -/
theorem sleepers_of_move {w : Fin n} {pc : WorkerPc J} (hpc : u.pc = Function.update s.pc w pc)
    (awake : pc ≠ .asleep) (h : u.sleepers.Nonempty) : s.sleepers.Nonempty := by
  obtain ⟨v, hv⟩ := h
  rw [mem_sleepers, hpc] at hv
  by_cases hvw : v = w
  · subst hvw; simp [awake] at hv
  · exact ⟨v, mem_sleepers.mpr (by simpa [hvw] using hv)⟩

omit [DecidableEq κ] [DecidableEq J] in
/-- A worker owns the lock, or nobody does: no signal is to come. -/
theorem signalPending_of_owner (h : ∀ c, s.jobsMutex ≠ some (.caller c)) :
    s.signalPending = 0 := by
  cases hm : s.jobsMutex with
  | none => simp [State.signalPending, hm]
  | some t =>
    cases t with
    | caller c => exact absurd hm (h c)
    | worker w => simp [State.signalPending, hm]
    | shutdown => simp [State.signalPending, hm]

omit [DecidableEq κ] [DecidableEq J] in
/-- Worker `w` moves and stays awake. -/
theorem State.Balanced.move (h : s.Balanced l) {w : Fin n} {p : WorkerPc J}
    (hpc : u.pc = Function.update s.pc w p) (awake : p ≠ .asleep)
    (flags : u.terminate = s.terminate) (pending : u.signalPending = s.signalPending)
    (le : l'.length + (s.pc w).examining.toNat ≤ l.length + p.examining.toNat) :
    u.Balanced l' := by
  have count := tally_update WorkerPc.examining s.pc w p
  refine h.of_le (fun clear => flags ▸ clear) (sleepers_of_move hpc awake) ?_
  rw [hpc, pending]
  omega

omit [DecidableEq κ] in
theorem WorkerStep.balanced {w : Fin n} (st : WorkerStep s w u) (owned : s.LockOwned)
    (h : s.Balanced l) (empty : s.waitingJobs = none → l = []) (seen : s.SeenEmpty)
    (jobs : ((s.removed (.worker w : Action n κ J)).map Prod.snd).toList ++ l' = l) :
    u.Balanced l' := by
  cases st with
  | acquire at_lock unowned =>
    have same : l' = l := by rcases at_lock with e | e <;> simpa [State.removed, e] using jobs
    have quiet : s.signalPending = 0 := signalPending_of_owner (by simp [unowned])
    refine h.move rfl (by simp) rfl ((signalPending_of_owner (by simp)).trans quiet.symm) ?_
    rcases at_lock with e | e <;> simp [e, same, WorkerPc.examining]
  | sleep at_wait =>
    have none : l = [] := empty (seen w (.inr at_wait))
    have none' : l' = [] := by simpa [State.removed, at_wait, none] using jobs
    intro _ _
    simp [none']
  | takeNothing at_take empty' =>
    have none' : l' = [] := by simpa [State.removed, at_take, empty', empty empty'] using jobs
    intro _ _
    simp [none']
  | take job at_take head =>
    have one : l = job :: l' := by simpa [State.removed, at_take, head] using jobs.symm
    exact h.move rfl (by simp) rfl rfl (by simp [at_take, one, WorkerPc.examining])
  | breakOuter at_test flag =>
    intro clear
    exact absurd (clear w) (by simp [flag])
  | release job at_unlock =>
    have same : l' = l := by simpa [State.removed, at_unlock] using jobs
    have mine : s.jobsMutex = some (.worker w) :=
      (owned _).mpr (by simp [State.holdsLock, at_unlock, WorkerPc.holdsLock])
    have quiet : s.signalPending = 0 := signalPending_of_owner (by simp [mine])
    exact h.move rfl (by simp) rfl ((signalPending_of_owner (by simp)).trans quiet.symm)
      (by simp [same, at_unlock, WorkerPc.examining])
  | _ =>
    -- the remaining steps leave the mutex alone and take nobody off the way
    have same : l' = l := by simpa [State.removed, *] using jobs
    exact h.move rfl (by simp) rfl rfl (by simp [*, WorkerPc.examining])

theorem CallerStep.balanced {c : κ} {signalled : Finset (Fin n)}
    (st : CallerStep s c signalled u) (owned : s.LockOwned) (h : s.Balanced l)
    (jobs : (s.added (.caller c signalled : Action n κ J)).toList ++ l = l') :
    u.Balanced l' := by
  have mine (hc : (s.caller c).inSection = true) : s.jobsMutex = some (.caller c) :=
    (owned (.caller c)).mpr hc
  cases st with
  | acquire job at_lock unowned =>
    have same : l' = l := by simpa [State.added, at_lock] using jobs.symm
    have quiet : s.signalPending = 0 := signalPending_of_owner (by simp [unowned])
    exact h.of_le id id (by simp [same, quiet])
  | add job at_add =>
    have one : l' = job :: l := by simpa [State.added, at_add] using jobs.symm
    have hm := mine (by simp [at_add, CallerPc.inSection])
    refine h.of_le id id ?_
    simp [State.signalPending, hm, at_add, one]
    omega
  | signal job at_signal waiting one =>
    have same : l' = l := by simpa [State.added, at_signal] using jobs.symm
    have hm := mine (by simp [at_signal, CallerPc.inSection])
    have pending : s.signalPending = 1 := by simp [State.signalPending, hm, at_signal]
    have count : tally WorkerPc.examining (s.wakeAll signalled).pc =
        tally WorkerPc.examining s.pc + signalled.card := by
      refine tally_override signalled (fun v hv => ?_) rfl
      rw [mem_sleepers.mp (waiting hv)]
      rfl
    rintro clear ⟨v, hv⟩
    have stillAsleep : s.sleepers.Nonempty := by
      refine ⟨v, mem_sleepers.mpr ?_⟩
      by_cases hvs : v ∈ signalled
      · simp [hvs] at hv
      · simpa [hvs] using hv
    have old := h clear stillAsleep
    have woke : 0 < signalled.card := Finset.card_pos.mpr (one stillAsleep)
    simp only [State.callerGoto_pc, same, count]
    omega
  | release job at_unlock =>
    have same : l' = l := by simpa [State.added, at_unlock] using jobs.symm
    have hm := mine (by simp [at_unlock, CallerPc.inSection])
    have quiet : s.signalPending = 0 := by simp [State.signalPending, hm, at_unlock]
    exact h.of_le id id (by simp [same, quiet])

omit [DecidableEq κ] [DecidableEq J] in
theorem ShutdownStep.balanced (st : ShutdownStep s u) (owned : s.LockOwned) (h : s.Balanced l)
    (jobs : l' = [] ∨ l' = l) : u.Balanced l' := by
  rcases jobs with rfl | rfl
  · intro _ _
    simp
  cases st with
  | setTerminate w at_set =>
    intro clear
    exact absurd (clear w) (by simp)
  | broadcast at_broadcast =>
    rintro - ⟨v, hv⟩
    by_cases hvs : s.pc v = .asleep <;> simp [hvs] at hv
  | acquire at_lock unowned =>
    have quiet : s.signalPending = 0 := signalPending_of_owner (by simp [unowned])
    exact h.of_le id id (by simp [quiet])
  | release at_unlock =>
    have mine : s.jobsMutex = some .shutdown :=
      (owned .shutdown).mpr (by simp [State.holdsLock, at_unlock, ShutdownPc.inSection])
    have quiet : s.signalPending = 0 := signalPending_of_owner (by simp [mine])
    exact h.of_le id id (by simp [quiet])
  | _ => exact h

/-- Every step keeps the count. -/
theorem Step.balanced {a : Action n κ J} (st : Step s a u) (owned : s.LockOwned)
    (h : s.Balanced l) (chain : Chain s.jobLinks.next s.waitingJobs l) (seen : s.SeenEmpty)
    (off : ∀ i : Fin n, s.init = .create i → s.pc i = .notStarted)
    (jobs : s.drops a ∧ l' = [] ∨ ¬ s.drops a ∧
      (s.added a).toList ++ l = ((s.removed a).map Prod.snd).toList ++ l') : u.Balanced l' := by
  have empty (hw : s.waitingJobs = none) : l = [] := (hw ▸ chain).of_none
  cases st with
  | worker st =>
    have jobs' := (jobs.resolve_left fun hd => hd.1).2
    exact st.balanced owned h empty seen (by simpa [State.added] using jobs'.symm)
  | caller st =>
    have jobs' := (jobs.resolve_left fun hd => hd.1).2
    exact st.balanced owned h (by simpa [State.removed] using jobs')
  | shutdown st =>
    refine st.balanced owned h (jobs.imp (·.2) fun hj => ?_)
    simpa [State.added, State.removed] using hj.2.symm
  | init st =>
    have same : l' = l := by
      have jobs' := (jobs.resolve_left fun hd => hd.1).2
      simpa [State.added, State.removed] using jobs'.symm
    cases st with
    | create i at_create =>
      exact h.move (w := i) (p := .lock) rfl (by simp) rfl rfl
        (by simp [same, off i at_create, WorkerPc.examining])
    | _ => exact same ▸ h
  | @jobReturns w job at_run =>
    have jobs' := (jobs.resolve_left fun hd => hd.1).2
    have same : l' = l := by simpa [State.added, State.removed] using jobs'.symm
    exact h.move (w := w) (p := .lock) rfl (by simp) rfl rfl
      (by simp [same, at_run, WorkerPc.examining])
  | @wake w at_wait =>
    have jobs' := (jobs.resolve_left fun hd => hd.1).2
    have same : l' = l := by simpa [State.added, State.removed] using jobs'.symm
    exact h.move (w := w) (p := .woken) rfl (by simp) rfl rfl
      (by simp [same, at_wait, WorkerPc.examining])
  | @call c job started at_idle =>
    have jobs' := (jobs.resolve_left fun hd => hd.1).2
    have same : l' = l := by simpa [State.added, State.removed] using jobs'.symm
    have idle : s.jobsMutex ≠ some (.caller c) := fun hm => by
      simpa [State.holdsLock, at_idle, CallerPc.inSection] using (owned _).mp hm
    have pending : (s.callerGoto c (.lock job)).signalPending = s.signalPending := by
      cases hm : s.jobsMutex with
      | none => simp [State.signalPending, hm]
      | some t =>
        cases t with
        | caller d =>
          have hd : d ≠ c := fun e => idle (e ▸ hm)
          simp [State.signalPending, hm, hd]
        | worker w => simp [State.signalPending, hm]
        | shutdown => simp [State.signalPending, hm]
    exact h.of_le id id (by simp [same, pending])
  | _ =>
    have jobs' := (jobs.resolve_left fun hd => hd.1).2
    have same : l' = l := by simpa [State.added, State.removed] using jobs'.symm
    exact same ▸ h

end JiaTuanServer.Workqueue

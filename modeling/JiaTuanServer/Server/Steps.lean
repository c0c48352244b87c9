import JiaTuanServer.Server.AcceptSteps

/-!
# The steps of the job functions, and of the whole server

The invariant holds in every reachable state, with or without a shutdown, and each step uses only
blocks that its thread may use.
-/

namespace JiaTuanServer.Server

open Transition Workqueue LocalTriple Machine

variable {n : ℕ} {s u : State n} {k : ℕ} {l : List ℕ} {place : ℕ → Option (Owner n)} {c : ℕ}

/-- The code of a job function or callback, on the connection that the worker runs. -/
theorem Inv.jobTakes (h : Inv s k l place) {w : Fin n} (run : s.queue.pc w = .run c) {pc : JobPc}
    (at_pc : s.job w = pc) {α : Type} {op : Op α} {x : α} {Q : View → Prop} {next : α → JobPc}
    (taken : perform s op (fun x => .jobGoto w (next x)) = some u)
    (code : Takes c op (pc.Stage c) x Q) (stage : ∀ v, Q v → (next x).Stage c v) :
    Inv u k l place ∧ s.Within (.worker w) u := by
  obtain ⟨at_c, shows⟩ := h.shows_of_run run
  obtain ⟨m, rfl, work⟩ := perform_takes taken code (at_pc ▸ shows)
  have mine : s.HeldBy c (.worker w) := (h.heldBy_iff _ _).mpr ((h.holds c (.worker w)).mpr at_c)
  exact ⟨h.jobOp run work stage, work.within mine rfl⟩

/-- Every step of `server_job_function` keeps the invariant. -/
theorem Inv.jobStep (h : Inv s k l place) {w : Fin n} (taken : jobStep s w = some u) :
    ∃ k' l' place', Inv u k' l' place' ∧ s.Within (.worker w) u := by
  cases run : s.queue.pc w with
  | run c =>
    have wrap (hu : Inv u k l place ∧ s.Within (.worker w) u) :
        ∃ k' l' place', Inv u k' l' place' ∧ s.Within (.worker w) u :=
      ⟨k, l, place, hu⟩
    cases at_pc : s.job w with
    | load =>
      simp only [Server.jobStep, run, at_pc] at taken
      exact wrap (h.jobTakes run at_pc taken loadUserData_takes fun _ hv => ⟨rfl, hv⟩)
    | enter client =>
      simp only [Server.jobStep, run, at_pc] at taken
      have code : Takes c (enterDispatch client) (JobPc.Stage c (.enter client)) c (Ready c) := by
        rintro v ⟨rfl, hv⟩
        exact enterDispatch_takes v hv
      exact wrap (h.jobTakes run at_pc taken code fun _ hv => ⟨rfl, .inl hv⟩)
    | dispatch d =>
      simp only [Server.jobStep, run, at_pc] at taken
      exact wrap (h.jobTakes run at_pc taken (.pure () _) fun _ => id)
    | closing d =>
      simp only [Server.jobStep, run, at_pc] at taken
      have code : Takes c (closeClient (some d)) (JobPc.Stage c (.closing d)) ()
          (fun v => d = c ∧ HungUp c v) := by
        rintro v ⟨rfl, hv⟩
        obtain ⟨v', does, hv'⟩ := closeClient_served v hv
        exact ⟨v', does, rfl, hv'⟩
      exact wrap (h.jobTakes run at_pc taken code fun _ => id)
    | freeing d =>
      simp only [Server.jobStep, run, at_pc] at taken
      have code : Takes c (freeClient (some d)) (JobPc.Stage c (.freeing d)) ()
          (Left allKinds [.job]) := by
        rintro v ⟨rfl, hv, -⟩
        exact freeClient_takes (by simp [allKinds]) v hv
      exact wrap (h.jobTakes run at_pc taken code fun _ => id)
    | freeJob =>
      simp only [Server.jobStep, run, at_pc] at taken
      exact wrap (h.jobTakes run at_pc taken release_takes fun _ => id)
    | returned =>
      simp only [Server.jobStep, run, at_pc] at taken
      obtain ⟨q, back, taken⟩ := Option.bind_eq_some_iff.mp taken
      rw [perform_pure taken]
      obtain rfl : s.queue.goto w .lock = q := by simpa [Workqueue.step, run] using back
      obtain ⟨k', h'⟩ := h.jobReturn run at_pc []
      exact ⟨k', l, _, h', by simp [State.jobGoto], fun _ _ => rfl, rfl⟩
  | _ => simp [Server.jobStep, run] at taken

theorem Inv.callback (h : Inv s k l place) {w : Fin n} {cb : Callback}
    (taken : callbackStep s w cb = some u) :
    Inv u k l place ∧ s.Within (.worker w) u := by
  unfold callbackStep at taken
  split at taken
  · rename_i c d run at_pc
    obtain ⟨at_c, shows⟩ := h.shows_of_run run
    rw [at_pc] at shows
    have code : Takes c (cb.body d) (JobPc.Stage c (.dispatch d)) ()
        (JobPc.Stage c (.dispatch d)) := by
      rintro v ⟨rfl, hv⟩
      obtain ⟨v', does, hv'⟩ := callback_takes cb v hv
      exact ⟨v', does, rfl, hv'⟩
    obtain ⟨m, rfl, work⟩ := perform_takes taken code shows
    have kept : Inv { s with mem := m, job := Function.update s.job w (.dispatch d) } k l place :=
      h.jobOp run work fun _ => id
    rw [← at_pc, Function.update_eq_self] at kept
    exact ⟨kept, work.within ((h.heldBy_iff _ _).mpr ((h.holds c (.worker w)).mpr at_c)) rfl⟩
  · cases taken

/-- A step keeps to its thread's connections: `on_accept`, the job functions and the callbacks use
and change only what belongs to connections that their thread holds, the queue uses only job blocks
and changes no contents, and `accept` uses nothing. -/
def State.Confined (s u : State n) : Action n → Prop
  | .onAccept _ => s.Within .accept u
  | .job w | .callback w _ => s.Within (.worker w) u
  | .queue a => (∀ x ∈ u.mem.touched, s.MayUse x.2 (.queue a)) ∧ u.mem.conn = s.mem.conn ∧
      u.mem.accepted = s.mem.accepted
  | .accept _ => u.mem.touched = [] ∧ u.mem.conn = s.mem.conn

/-- A thread uses only blocks of connections that it holds, or that wait in the queue it has
locked. -/
theorem State.Confined.mayUse {a : Action n} (h : s.Confined u a) :
    ∀ x ∈ u.mem.touched, s.MayUse x.2 a := by
  cases a with
  | onAccept ok => exact h.touched
  | job w => exact h.touched
  | callback w cb => exact h.touched
  | queue a => exact h.1
  | accept fd => simp [h.1]

/-- Every step of the server keeps the invariant and keeps to its thread's connections. -/
theorem Inv.step (h : Inv s k l place) {a : Action n} (taken : step s a = some u) :
    ∃ k' l' place', Inv u k' l' place' ∧ s.Confined u a := by
  simp only [Server.step, h.fault, if_true] at taken
  cases a with
  | queue a =>
    simp only [queueStep] at taken
    split at taken
    · rename_i internal
      obtain ⟨q, moved, -⟩ := Option.bind_eq_some_iff.mp taken
      obtain ⟨touched, run, only⟩ := h.queueStep_eq internal moved
      simp only [queueStep, internal, if_true] at run
      rw [run] at taken
      cases taken
      obtain ⟨k', l', place', h'⟩ := h.queue (step_cases moved) internal touched
      exact ⟨k', l', place', h', fun x hx => h.mayUse_of_jobsTouched a x.2 (only x hx), rfl, rfl⟩
    · cases taken
  | accept fd =>
    simp only [acceptStep] at taken
    split at taken
    · rename_i ready
      cases fd with
      | none =>
        rw [perform_pure taken]
        exact ⟨k, l, place, h.touched [], rfl, rfl⟩
      | some fd =>
        simp only at taken
        split at taken
        · cases taken
          exact ⟨k, l, _, h.accept ready.1 ‹_›, rfl, rfl⟩
        · cases taken
    · cases taken
  | onAccept ok => exact h.onAccept taken
  | job w => exact h.jobStep taken
  | callback w cb => exact ⟨k, l, place, h.callback taken⟩

/-- The invariant at the start. -/
theorem Inv.of_initial (h : Initial s) : Inv s 0 [] fun _ => none where
  fault := h.fault
  coherent := .of_initial h.queue
  holds c o := by
    refine iff_of_false (fun ho => ?_) (by simp)
    cases o with
    | accept => simp [State.Holds, State.accepting, h.accept, AcceptPc.conn] at ho
    | queue => cases ho
    | worker w => simp [State.Holds, h.queue.pc w, carries] at ho
  bound c o hc := by cases hc
  account c := by
    simp only [State.Account, h.accepted, Nat.not_lt_zero, if_false]
    exact ⟨(none, s.mem.conn c), ⟨rfl, fun fd => by simp [h.descriptors fd]⟩, rfl, (h.conn c).1,
      (h.conn c).2⟩
  caller j hj := by simp [h.queue.caller (), callerJob] at hj
  job w _ := h.job w

theorem inv_of_run {s₀ : State n} {tr : List (State n × Action n)} (initial : Initial s₀)
    (run : (machine n).Run s₀ tr s) : ∃ k l place, Inv s k l place := by
  refine run.always (I := fun s => ∃ k l place, Inv s k l place) ⟨0, [], _, .of_initial initial⟩ ?_
  rintro s a u ⟨k, l, place, h⟩ taken
  obtain ⟨k', l', place', h', -⟩ := h.step taken
  exact ⟨k', l', place', h'⟩

end JiaTuanServer.Server

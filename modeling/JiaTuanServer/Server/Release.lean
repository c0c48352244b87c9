import JiaTuanServer.Server.Refinement

/-!
# Every connection is released exactly once

Before a shutdown a connection that nobody holds any more has been released: its descriptor was
closed once, and every block allocated for it has been freed.
-/

namespace JiaTuanServer.Server

open Transition Workqueue LocalTriple Machine

variable {n : ℕ} {s u : State n} {k : ℕ} {l : List ℕ} {place : ℕ → Option (Owner n)} {c : ℕ}

/-- The descriptor of connection `c` has been closed exactly once and denotes it no more, and no
block allocated for it is left. -/
def Mem.IsReleased (m : Mem) (c : ℕ) : Prop :=
  (m.conn c).closes = 1 ∧ (∀ fd, m.descriptors fd ≠ some c) ∧ ∀ kind, (m.conn c).block kind ≠ .live

/-- The resources of all connections are in order. -/
structure ReleasedOnce (s : State n) : Prop where
  /-- Nothing was used or freed after it was freed, and no number was closed twice. -/
  fault : s.fault = none
  closes : ∀ c, (s.mem.conn c).closes ≤ 1
  /-- A connection has one holder, or it has been released. -/
  held : ∀ c, c < s.mem.accepted →
    (∃! o, s.HeldBy c o) ∨ (∀ o, ¬ s.HeldBy c o) ∧ s.mem.IsReleased c
  /-- When `on_accept` gives up a connection it has released it. -/
  failed : ∀ c ok u, s.accepting = some c → step s (.onAccept ok) = some u → u.accept = .idle →
    u.mem.IsReleased c
  /-- When the job function of a connection returns it has closed and freed everything. -/
  served : ∀ c w, s.queue.pc w = .run c → s.job w = .returned →
    (s.mem.conn c).closes = 1 ∧ ∀ kind, (s.mem.conn c).block kind = .freed
  /-- A thread uses only blocks of connections it holds, or that wait in the queue it has locked;
  the accept thread uses none once `workqueue_add_job` has handed the connection over. -/
  used : ∀ a u, step s a = some u → ∀ x ∈ u.mem.touched, s.MayUse x.2 a

theorem Mem.Shows.isReleased {m : Mem} (h : m.Shows c Released) : m.IsReleased c := by
  obtain ⟨⟨number, x⟩, ⟨conn, at_number⟩, used, rfl, closes, block⟩ := h
  refine ⟨by rw [conn, closes], fun fd e => by simpa using (at_number fd).mp e, fun kind => ?_⟩
  rw [conn, block kind]
  simp only [List.not_mem_nil, if_false]
  split <;> simp

/-- Whoever holds the connection, its descriptor is open and has never been closed, or was closed
once. -/
theorem Inv.shows_closes (h : Inv s k l place) (c : ℕ) :
    s.mem.Shows c fun v => v.2.closes = 0 ∨ v.1 = none ∧ v.2.closes = 1 := by
  have opened {fd : ℕ} {live : List Kind} {v : View} (hv : Opened c fd live v) :
      v.2.closes = 0 ∨ v.1 = none ∧ v.2.closes = 1 := .inl hv.2.closes
  have closed {live : List Kind} {v : View} (hv : Closed c live v) :
      v.2.closes = 0 ∨ v.1 = none ∧ v.2.closes = 1 := .inr ⟨hv.1, hv.2.closes⟩
  have ready {v : View} (hv : Ready c v) : v.2.closes = 0 ∨ v.1 = none ∧ v.2.closes = 1 :=
    hv.1.elim fun _ => opened
  have left {used live : List Kind} {v : View} (hv : Left used live v) :
      v.2.closes = 0 ∨ v.1 = none ∧ v.2.closes = 1 := .inr ⟨hv.1, hv.2.1⟩
  have account := h.account c
  cases ho : place c with
  | none =>
    rw [ho] at account
    simp only [State.Account] at account
    split at account
    · rcases account with released | ⟨-, waiting⟩
      · exact released.imp fun v hv => hv.elim fun _ => left
      · exact waiting.imp fun v => ready
    · exact account.imp fun v hv => .inl hv.2.1
  | some o =>
    rw [ho] at account
    cases o with
    | queue => exact Mem.Shows.imp account fun v => ready
    | accept =>
      refine Mem.Shows.imp account fun v hv => ?_
      cases hpc : s.accept <;> simp only [hpc, AcceptPc.Stage] at hv
      case enable | mallocJob | setJob => exact hv.elim fun _ => opened
      case addJob | adding => exact ready hv
      case closing => obtain ⟨_, _, -, -, hv⟩ := hv; exact opened hv
      case freeing => obtain ⟨_, -, -, hv⟩ := hv; exact closed hv
      all_goals exact opened hv
    | worker w =>
      refine Mem.Shows.imp account fun v hv => ?_
      cases hpc : s.queue.pc w <;> simp only [hpc, workerStage] at hv
      case run j =>
        cases hj : s.job w <;> simp only [hj, JobPc.Stage] at hv
        case load => exact ready hv
        case enter => exact ready hv.2
        case dispatch | closing => exact hv.2.elim ready fun hv => closed hv.1
        case freeing => exact closed hv.2.1
        case freeJob | returned => exact left hv
      all_goals exact ready hv

theorem Inv.closes_le (h : Inv s k l place) (c : ℕ) : (s.mem.conn c).closes ≤ 1 := by
  obtain ⟨v, ⟨conn, -⟩, closes⟩ := h.shows_closes c
  rw [conn]
  omega

/-- A connection that some number denotes has never been closed. -/
theorem Inv.closes_of_open (h : Inv s k l place) {fd : ℕ} (number : s.mem.descriptors fd = some c) :
    (s.mem.conn c).closes = 0 := by
  obtain ⟨v, ⟨conn, at_number⟩, closes⟩ := h.shows_closes c
  have open_number : v.1 = some fd := (at_number fd).mp number
  rw [conn]
  simpa [open_number] using closes

/-- When `on_accept` returns with a connection that it still holds, it has released it. -/
theorem Inv.failed (h : Inv s k l place) {ok : Bool} (mine : s.accepting = some c)
    (taken : Server.step s (.onAccept ok) = some u) (returns : u.accept = .idle) :
    u.mem.IsReleased c := by
  have contents : s.mem.Shows c (s.accept.Stage c) := by
    have account := h.account c
    rwa [(h.holds c .accept).mp mine] at account
  simp only [Server.step, h.fault, if_true] at taken
  have goesOn {op : Op Unit} {next : AcceptPc} (on : s.accept ≠ .idle) (on' : next ≠ .idle)
      (taken : perform s op (fun _ => .acceptGoto next) = some u) : u.mem.IsReleased c := by
    rcases perform_cases taken with ⟨x, m, rfl⟩ | ⟨f, rfl⟩
    · exact absurd returns on'
    · exact absurd returns on
  cases at_pc : s.accept with
  | idle => simp [onAcceptStep, at_pc] at taken
  | close d fd =>
    obtain rfl : d = c := by simpa [State.accepting, at_pc, AcceptPc.conn] using mine
    simp only [onAcceptStep, at_pc] at taken
    obtain ⟨m, rfl, work⟩ := perform_takes taken close_takes (at_pc ▸ contents)
    exact (work.contents.imp fun _ hv => ⟨_, hv⟩).isReleased
  | freeing d =>
    obtain rfl : d = c := by simpa [State.accepting, at_pc, AcceptPc.conn] using mine
    simp only [onAcceptStep, at_pc] at taken
    rw [at_pc] at contents
    obtain ⟨v, sees, live, hc, hj, hv⟩ := contents
    obtain ⟨m, rfl, work⟩ := perform_takes taken (freeClient_takes hc) ⟨v, sees, hv⟩
    exact (work.contents.imp fun _ hv => ⟨live, by simpa [hj] using hv⟩).isReleased
  | adding d =>
    simp only [onAcceptStep, at_pc] at taken
    split at taken
    · rename_i returned
      simp [State.accepting, at_pc, returned, beforeAdd] at mine
    · cases taken
  | addJob d =>
    simp only [onAcceptStep, at_pc] at taken
    obtain ⟨q, -, taken⟩ := Option.bind_eq_some_iff.mp taken
    rw [perform_pure taken] at returns
    cases returns
  | setnonblock d fd | evbufferNew d fd | eventBaseNew d fd | buffereventNew d fd =>
    simp only [onAcceptStep, at_pc] at taken
    exact goesOn (by simp [at_pc]) (by cases ok <;> simp) taken
  | mallocClient d fd | mallocJob d =>
    simp only [onAcceptStep, at_pc] at taken
    split at taken <;> exact goesOn (by simp [at_pc]) (by simp) taken
  | enable d | setJob d | closing d =>
    simp only [onAcceptStep, at_pc] at taken
    exact goesOn (by simp [at_pc]) (by simp) taken

/-- In every run without a shutdown, whatever fails and whatever callbacks come, every connection
is released exactly once and nothing is used by a thread that does not hold it. -/
theorem resources_released_once {s₀ s : State n} {tr : List (State n × Action n)}
    (initial : Initial s₀) (run : (machine n).Run s₀ tr s) (calm : Along NoShutdown tr) :
    ReleasedOnce s := by
  obtain ⟨k, l, place, h⟩ := inv_of_run initial run
  have idle := notCalled_of_run initial run calm
  refine ⟨h.fault, h.closes_le, fun c accepted => ?_, fun c ok u => h.failed,
    fun c w run at_end => ?_, fun a u taken => ?_⟩
  · cases ho : place c with
    | some o =>
      refine .inl ⟨o, (h.heldBy_iff c o).mpr ((h.holds c o).mpr ho), fun o' ho' => ?_⟩
      exact h.unique ((h.heldBy_iff c o').mp ho') ((h.holds c o).mpr ho)
    | none =>
      refine .inr ⟨fun o held => ?_, ?_⟩
      · have placed := (h.holds c o).mp ((h.heldBy_iff c o).mp held)
        simp [ho] at placed
      · have account := h.account c
        simp only [ho, State.Account, accepted, if_true, idle, dropped, Bool.false_eq_true,
          false_and, or_false] at account
        exact account.isReleased
  · obtain ⟨-, v, ⟨conn, -⟩, left⟩ := h.shows_of_run run
    rw [at_end] at left
    obtain ⟨-, closes, block⟩ := left
    refine ⟨by rw [conn, closes], fun kind => ?_⟩
    rw [conn, block kind]
    cases kind <;> rfl
  · obtain ⟨-, -, -, -, confined⟩ := h.step taken
    exact confined.mayUse

/-- One worker and two connections on the same number: the first is served, and its descriptor is
closed by a failing reply before the error callback comes; the second fails at `event_base_new`. -/
theorem resources_released_once_twoConnections :
    ∃ (tr : List (State 1 × Action 1)) (s : State 1),
      (machine 1).Run start tr s ∧ s.mem.accepted = 2 ∧ s.accept = .idle ∧ s.job 0 = .returned ∧
      ReleasedOnce s := by
  let acts : List (Action 1) := List.flatten [
    List.replicate 3 (.queue (.init true)), [.accept (some 5)], List.replicate 9 (.onAccept true),
    List.replicate 4 (.queue (.caller () ∅)), [.onAccept true],
    List.replicate 6 (.queue (.worker 0)), List.replicate 2 (.job 0),
    [.callback 0 (.onRead true), .callback 0 (.onRead false), .callback 0 .onError],
    [.accept (some 5), .onAccept true, .onAccept true, .onAccept true, .onAccept false],
    List.replicate 4 (.job 0), [.onAccept true, .onAccept true]]
  have ends : ((machine 1).exec start acts).map (fun s => (s.mem.accepted, s.accept, s.job 0)) =
      some (2, .idle, .returned) := by decide +kernel
  obtain ⟨s, hs, h⟩ := Option.map_eq_some_iff.mp ends
  simp only [Prod.mk.injEq] at h
  obtain ⟨accepted, idle, returned⟩ := h
  have calm : Along NoShutdown ((machine 1).trace start acts) :=
    along_of_check noShutdown_of_test (by decide +kernel)
  exact ⟨_, s, run_of_exec hs, accepted, idle, returned,
    resources_released_once start_initial (run_of_exec hs) calm⟩

end JiaTuanServer.Server

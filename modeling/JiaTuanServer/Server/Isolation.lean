import JiaTuanServer.Server.EventLoop
import JiaTuanServer.Server.Finishing
import JiaTuanServer.Server.Numbers

/-!
# Clients and the reuse of numbers

A bufferevent goes on using its number after `closeClient` has closed it. What keeps it away from
the connection that gets the number next is only that nothing is due any more: the callback that
closes must be the last of its pass to use the socket, and a closed number must not be polled again.
-/

namespace JiaTuanServer.Server

open Transition Workqueue Machine LocalTriple

variable {n : ℕ}

namespace LoopState

/-- Every read and write that is due in the current passes of the loops is due on the connection
for which the bufferevent was created. -/
def Isolated (s : LoopState n) : Prop :=
  ∀ c, ∀ e ∈ (s.bufEv c).active, (s.bufEv c).UsesSocket e →
    s.server.mem.descriptors (s.bufEv c).fd = some c

/-- A poll makes events that use the socket active only while the descriptor is open, and when a
callback closes the descriptor no other event that uses the socket is left in the pass. -/
def ClosesLast (s : LoopState n) : LoopAction n → Prop
  | .poll w events => ∀ c, s.server.serving w = some c →
    (∃ e ∈ events, (s.bufEv c).UsesSocket e) → (s.server.mem.conn c).closes = 0
  | .run w out => ∀ c e rest b cb, s.server.serving w = some c →
    (s.bufEv c).active = e :: rest →
    BufEv.handle { s.bufEv c with active := rest } e out = some (b, some cb) →
    cb.closes = true → (s.server.mem.conn c).closes = 0 → ∀ e' ∈ b.active, ¬ b.UsesSocket e'
  | _ => True

end LoopState

/-- The connection of `on_accept` while it has no bufferevent, or gives the connection up. -/
def AcceptPc.building : AcceptPc → Option ℕ
  | .setnonblock c _ | .mallocClient c _ | .evbufferNew c _ | .eventBaseNew c _
  | .buffereventNew c _ | .close c _ | .closing c | .freeing c => some c
  | _ => none

/-- What every reachable state satisfies: the bufferevent of an open connection has its number, and
only the loop of a worker has active events. -/
structure LoopInv (s : LoopState n) : Prop where
  reached : ∃ k l place, Reached s.server k l place
  number : ∀ c fd, s.server.mem.descriptors fd = some c →
    s.server.accept.building = some c ∨ (s.bufEv c).fd = fd
  served : ∀ c, (s.bufEv c).active ≠ [] → ∃ w, s.server.serving w = some c

/-! ## The connection that a loop serves -/

section Serving

variable {s u : State n} {k k' : ℕ} {l l' : List ℕ} {place place' : ℕ → Option (Owner n)} {c : ℕ}
  {w : Fin n} {a : Action n}

/-- The worker runs the job of the connection whose loop it is in. -/
theorem Inv.serving (h : Inv s k l place) (serves : s.serving w = some c) :
    s.queue.pc w = .run c ∧ s.job w = .dispatch c ∧ place c = some (.worker w) ∧
      s.mem.Shows c fun v => Ready c v ∨ HungUp c v := by
  simp only [State.serving] at serves
  split at serves
  · rename_i j d run at_dispatch
    cases serves
    obtain ⟨held, shows⟩ := h.shows_of_run run
    rw [at_dispatch] at shows
    obtain ⟨v, sees, rfl, hv⟩ := shows
    exact ⟨run, at_dispatch, held, v, sees, hv⟩
  · cases serves

/-- A worker stays in its job until the job function returns. -/
theorem run_of_step {q q' : Workqueue.State n Unit ℕ} {b : Workqueue.Action n Unit ℕ}
    (st : Step q b q') (workers : Workers q k) (run : q.pc w = .run c)
    (stays : b ≠ .jobReturns w) : q'.pc w = .run c := by
  have other {v : Fin n} {pc : WorkerPc ℕ} (hv : q.pc v ≠ .run c ∨ v ≠ w) :
      Function.update q.pc v pc w = .run c := by
    have hvw : w ≠ v := by
      rintro rfl
      exact hv.elim (fun e => e run) fun e => e rfl
    simpa [hvw] using run
  have woken {ws : Finset (Fin n)} (hws : ws ⊆ q.sleepers) : (q.wakeAll ws).pc w = .run c := by
    have hw : w ∉ ws := fun hw => by simp [mem_sleepers.mp (hws hw)] at run
    simpa [hw] using run
  cases st with
  | @worker v q' st =>
    cases st with
    | acquire at_lock unowned => exact other (.inl (by rcases at_lock with e | e <;> simp [e]))
    | _ => exact other (.inl (by simp [*]))
  | @jobReturns v job at_run => exact other (.inr fun e => stays (e ▸ rfl))
  | wake at_wait => exact other (.inl (by simp [at_wait]))
  | init st =>
    cases st with
    | create i at_create => exact other (.inl (by simp [workers.notStarted at_create]))
    | _ => exact run
  | caller st =>
    cases st with
    | signal job at_signal waiting one => exact woken waiting
    | _ => exact run
  | shutdown st =>
    cases st with
    | broadcast at_broadcast => exact woken subset_rfl
    | _ => exact run
  | _ => exact run

/-- Only its own steps move a worker through `server_job_function`. -/
theorem job_of_step (taken : step s a = some u) (other : a ≠ .job w) : u.job w = s.job w := by
  simp only [step] at taken
  split at taken
  on_goal 2 => cases taken
  have same {α : Type} {op : Op α} {next : α → State n → State n}
      (taken : perform s op next = some u) (keeps : ∀ x s, (next x s).job w = s.job w) :
      u.job w = s.job w := by
    rcases perform_cases taken with ⟨x, m, rfl⟩ | ⟨f, rfl⟩
    · exact keeps x _
    · rfl
  cases a with
  | queue b =>
    simp only [queueStep] at taken
    split at taken
    · obtain ⟨q, -, taken⟩ := Option.bind_eq_some_iff.mp taken
      exact same taken fun _ _ => rfl
    · cases taken
  | accept fd =>
    simp only [acceptStep] at taken
    split at taken
    on_goal 2 => cases taken
    cases fd with
    | none => exact same taken fun _ _ => rfl
    | some fd =>
      simp only at taken
      split at taken
      · exact same taken fun _ _ => rfl
      · cases taken
  | onAccept ok =>
    cases at_pc : s.accept <;> simp only [onAcceptStep, at_pc] at taken
    case idle => cases taken
    case addJob =>
      obtain ⟨q, -, taken⟩ := Option.bind_eq_some_iff.mp taken
      exact same taken fun _ _ => rfl
    case mallocClient | mallocJob | adding =>
      split at taken
      · exact same taken fun _ _ => rfl
      · first
          | exact same taken fun _ _ => rfl
          | cases taken
    all_goals exact same taken fun _ _ => rfl
  | job v =>
    have hv : w ≠ v := fun e => other (e ▸ rfl)
    simp only [jobStep] at taken
    split at taken
    on_goal 2 => cases taken
    cases at_pc : s.job v <;> simp only [at_pc] at taken
    case returned =>
      obtain ⟨q, -, taken⟩ := Option.bind_eq_some_iff.mp taken
      exact same taken fun _ _ => by simp [State.jobGoto, hv]
    all_goals exact same taken fun _ _ => by simp [State.jobGoto, hv]
  | callback v cb =>
    simp only [callbackStep] at taken
    split at taken
    · exact same taken fun _ _ => rfl
    · cases taken

/-- A loop goes on serving its connection, and nobody else changes what memory holds for it. -/
theorem Inv.serving_step (h : Inv s k l place) (h' : Inv u k' l' place')
    (taken : Server.step s a = some u) (confined : s.Confined u a)
    (serves : s.serving w = some c) (inside : a ≠ .job w) :
    u.serving w = some c ∧ ((∀ cb, a ≠ .callback w cb) → u.mem.conn c = s.mem.conn c) := by
  obtain ⟨run, at_dispatch, held, -⟩ := h.serving serves
  have goes : u.queue.pc w = .run c := by
    rcases h'.onQueue taken with same | ⟨b, hb, st⟩
    · exact same ▸ run
    · refine run_of_step st h.coherent.workers run ?_
      rintro rfl
      exact inside (job_of_jobReturns h.fault taken hb).1
  refine ⟨by simp [State.serving, goes, job_of_step taken inside, at_dispatch], fun outside => ?_⟩
  have mine : s.Holds l c (.worker w) := (h.holds c (.worker w)).mpr held
  have alone {o : Owner n} (ho : s.HeldBy c o) : o = .worker w :=
    h.unique ((h.heldBy_iff c o).mp ho) mine
  cases a with
  | queue b => rw [confined.2.1]
  | accept fd => rw [confined.2]
  | onAccept ok => exact confined.conn c fun ho => by simpa using alone ho
  | job v =>
    refine confined.conn c fun ho => inside ?_
    rw [Owner.worker.inj (alone ho)]
  | callback v cb =>
    refine confined.conn c fun ho => outside cb ?_
    rw [Owner.worker.inj (alone ho)]

/-- What a callback does to the connection of its loop. -/
theorem Inv.callback_effect (h : Inv s k l place) {cb : Callback}
    (taken : Server.step s (.callback w cb) = some u) (serves : s.serving w = some c) :
    if cb.closes then (u.mem.conn c).closes = 1 else u.mem.conn c = s.mem.conn c := by
  obtain ⟨run, at_dispatch, -, shows⟩ := h.serving serves
  simp only [Server.step, h.fault, if_true, callbackStep, run, at_dispatch] at taken
  cases closes : cb.closes with
  | true =>
    obtain ⟨m, rfl, work⟩ := perform_takes taken (callback_closes closes) shows
    obtain ⟨v, ⟨conn, -⟩, hv⟩ := work.contents
    simp only [if_true, id]
    rw [conn]
    exact hv.1.2.closes
  | false =>
    obtain ⟨v, sees, hv⟩ := shows
    have code : Takes c (cb.body c) (fun v' => v' = v) () fun v' => v' = v := by
      rintro v' rfl
      exact ⟨v', callback_keeps closes hv, rfl⟩
    obtain ⟨m, rfl, work⟩ := perform_takes taken code ⟨v, sees, rfl⟩
    obtain ⟨v', ⟨conn, -⟩, rfl⟩ := work.contents
    simp only [Bool.false_eq_true, if_false, id]
    rw [conn, sees.1]

end Serving

/-! ## What the bufferevents do -/

section Handle

variable {b b' : BufEv} {e : Event} {out : Outcome}

theorem BufEv.mem_del {side : Side} (he : e ∈ (b.del side).active) : e ∈ b.active :=
  (List.mem_filter.mp he).1

/-- An event without a callback makes no use of the socket due. -/
theorem handle_quiet (handled : b.handle e out = some (b', none)) :
    b'.fd = b.fd ∧ ∀ e' ∈ b'.active, e' ∈ b.active ∧ (b'.UsesSocket e' → b.UsesSocket e') := by
  cases hs : e.side <;> simp only [BufEv.handle, hs] at handled
  · cases ht : e.timeout <;> cases out <;> simp [BufEv.readcb, ht] at handled
    subst handled
    simp
  · cases ht : e.timeout <;> simp only [BufEv.writecb, ht, if_true, Bool.false_eq_true, if_false,
      Option.some.injEq, Prod.mk.injEq, reduceCtorEq, and_false] at handled
    split at handled
    · cases handled
      exact ⟨rfl, fun e' he => ⟨BufEv.mem_del he, id⟩⟩
    · cases out with
      | retry =>
        cases handled
        exact ⟨rfl, fun e' he => ⟨he, id⟩⟩
      | sent bytes =>
        simp only at handled
        split at handled
        · have less (e' : Event) (uses : e'.timeout = false ∧
              (e'.side = .write → b.output - bytes ≠ 0)) : b.UsesSocket e' :=
            ⟨uses.1, fun side => by have left := uses.2 side; omega⟩
          simp only [Option.some.injEq, Prod.mk.injEq, and_true] at handled
          split at handled <;> subst handled
          · exact ⟨rfl, fun e' he => ⟨BufEv.mem_del he, less e'⟩⟩
          · exact ⟨rfl, fun e' he => ⟨he, less e'⟩⟩
        · cases handled
      | failed => simp at handled
      | received reply written => simp at handled

/-- An event with a callback that closes leaves the output as it is; one whose callback does not
close has just read from the socket. -/
theorem handle_callback {cb : Callback} (handled : b.handle e out = some (b', some cb)) :
    b'.fd = b.fd ∧ (∀ e' ∈ b'.active, e' ∈ b.active) ∧
      (cb.closes = true → b'.output = b.output) ∧
      (cb.closes = false → e.side = .read ∧ e.timeout = false) := by
  cases hs : e.side <;> simp only [BufEv.handle, hs] at handled
  · cases ht : e.timeout with
    | true =>
      simp only [BufEv.readcb, ht, if_true, Option.some.injEq, Prod.mk.injEq] at handled
      obtain ⟨rfl, rfl⟩ := handled
      exact ⟨rfl, fun e' he => BufEv.mem_del he, fun _ => rfl, by simp [Callback.closes]⟩
    | false =>
      cases out with
      | failed =>
        simp only [BufEv.readcb, ht, Bool.false_eq_true, if_false, Option.some.injEq,
          Prod.mk.injEq] at handled
        obtain ⟨rfl, rfl⟩ := handled
        exact ⟨rfl, fun e' he => BufEv.mem_del he, fun _ => rfl, by simp⟩
      | received reply written =>
        simp only [BufEv.readcb, ht, Bool.false_eq_true, if_false, Option.some.injEq,
          Prod.mk.injEq] at handled
        obtain ⟨rfl, rfl⟩ := handled
        cases written <;> simp [BufEv.append, Callback.closes]
      | retry => simp [BufEv.readcb, ht] at handled
      | sent bytes => simp [BufEv.readcb, ht] at handled
  · have closing (handled : some (b.disable .write, some Callback.onError) = some (b', some cb)) :
        b'.fd = b.fd ∧ (∀ e' ∈ b'.active, e' ∈ b.active) ∧
          (cb.closes = true → b'.output = b.output) ∧
          (cb.closes = false → Side.write = .read ∧ e.timeout = false) := by
      cases handled
      exact ⟨rfl, fun e' he => BufEv.mem_del he, fun _ => rfl, by simp [Callback.closes]⟩
    cases ht : e.timeout <;>
      simp only [BufEv.writecb, ht, if_true, Bool.false_eq_true, if_false] at handled
    case true => simpa [ht] using closing handled
    case false =>
      split at handled
      · cases handled
      · cases out with
        | failed => simpa [ht] using closing handled
        | sent bytes =>
          simp only at handled
          split at handled <;> simp at handled
        | retry => simp at handled
        | received reply written => cases handled

end Handle

/-! ## The invariant of the loops -/

section Loops

variable {s u : LoopState n} {a : LoopAction n} {c : ℕ} {w : Fin n}

/-- In the loop of an open connection the bufferevent has the connection's number, and a closed
connection has none. -/
theorem LoopInv.denotes_iff (h : LoopInv s) (serves : s.server.serving w = some c) :
    s.server.mem.descriptors (s.bufEv c).fd = some c ↔ (s.server.mem.conn c).closes = 0 := by
  obtain ⟨k, l, place, reached⟩ := h.reached
  constructor
  · exact reached.inv.closes_of_open
  · intro opened
    obtain ⟨-, -, held, v, ⟨conn, at_number⟩, hv⟩ := reached.inv.serving serves
    rcases hv with ⟨⟨fd, number, -⟩, -⟩ | ⟨⟨-, built⟩, -⟩
    · have denotes : s.server.mem.descriptors fd = some c := (at_number fd).mpr number
      rcases h.number c fd denotes with builds | same
      · -- the connection would be held by `on_accept` as well
        have accepting : s.server.accepting = some c := by
          cases hpc : s.server.accept <;>
            simp_all [AcceptPc.building, State.accepting, AcceptPc.conn]
        have other := (reached.inv.holds c .accept).mp accepting
        simp [held] at other
      · rw [same]
        exact denotes
    · rw [conn, built.closes] at opened
      cases opened

theorem LoopInv.of_initial (h : (loopMachine n).initial s) : LoopInv s where
  reached := ⟨0, [], _, .of_initial h.1⟩
  number c fd denotes := by simp [h.1.descriptors fd] at denotes
  served c some := absurd (h.2 c) some

/-- Where `on_accept` goes on with a connection whose bufferevent is not made yet. -/
theorem Reached.building_step {s u : State n} {k k' : ℕ} {l l' : List ℕ}
    {place place' : ℕ → Option (Owner n)} {ok : Bool} (h : Reached s k l place)
    (h' : Reached u k' l' place') (taken : Server.step s (.onAccept ok) = some u)
    (builds : s.accept.building = some c) :
    u.accept.building = some c ∨ u.mem.IsReleased c ∨
      ok = true ∧ ∃ fd, s.accept = .buffereventNew c fd := by
  have accepting : s.accepting = some c := by
    cases hpc : s.accept <;> simp_all [AcceptPc.building, State.accepting, AcceptPc.conn]
  by_cases returns : u.accept = .idle
  · exact .inr (.inl (h.inv.failed accepting taken returns))
  have goes {op : Op Unit} {next : AcceptPc}
      (taken : perform s op (fun _ => .acceptGoto next) = some u) : u.accept = next := by
    obtain ⟨x, m, rfl⟩ := perform_done taken h'.inv.fault
    rfl
  simp only [Server.step, h.inv.fault, if_true] at taken
  cases hpc : s.accept <;>
    simp only [hpc, AcceptPc.building, reduceCtorEq, Option.some.injEq] at builds
  all_goals simp only [onAcceptStep, hpc] at taken
  case close | freeing => exact absurd (goes taken) returns
  case closing => exact .inl (by simp [goes taken, AcceptPc.building, builds])
  case mallocClient =>
    split at taken <;> exact .inl (by simp [goes taken, AcceptPc.building, builds])
  case buffereventNew d fd =>
    cases ok with
    | true => exact .inr (.inr ⟨rfl, fd, by rw [builds]⟩)
    | false => exact .inl (by simp [goes taken, AcceptPc.building, builds])
  all_goals cases ok <;> exact .inl (by simp [goes taken, AcceptPc.building, builds])

/-- What `on_accept` does to bufferevents makes no event active and keeps the numbers of others. -/
theorem onAccept_bufEv (s : LoopState n) (ok : Bool) (c : ℕ) :
    (s.onAccept ok).server = s.server ∧
      (((s.onAccept ok).bufEv c).active = [] ∨
        ((s.onAccept ok).bufEv c).active = (s.bufEv c).active) ∧
      (((s.onAccept ok).bufEv c).fd = (s.bufEv c).fd ∨
        ∃ fd, ok = true ∧ s.server.accept = .buffereventNew c fd ∧
          ((s.onAccept ok).bufEv c).fd = fd) := by
  cases hpc : s.server.accept with
  | buffereventNew d fd =>
    cases ok with
    | false => simp [LoopState.onAccept, hpc]
    | true =>
      by_cases hd : c = d
      · subst hd
        simp [LoopState.onAccept, hpc, LoopState.setBufEv, BufEv.new]
      · simp [LoopState.onAccept, hpc, LoopState.setBufEv, hd]
  | enable d =>
    by_cases hd : c = d
    · subst hd
      simp [LoopState.onAccept, hpc, LoopState.setBufEv, BufEv.enableRead]
    · simp [LoopState.onAccept, hpc, LoopState.setBufEv, hd]
  | _ => simp [LoopState.onAccept, hpc]

/-- At `bufferevent_new` the connection has the number that is passed. -/
theorem Reached.number_of_new {s : State n} {k : ℕ} {l : List ℕ} {place : ℕ → Option (Owner n)}
    {fd fd' : ℕ} (h : Reached s k l place) (at_new : s.accept = .buffereventNew c fd)
    (denotes : s.mem.descriptors fd' = some c) : fd = fd' := by
  have mine : place c = some .accept :=
    (h.inv.holds c .accept).mp (by simp [State.Holds, State.accepting, at_new, AcceptPc.conn])
  have account := h.inv.account c
  simp only [mine, State.Account, at_new, AcceptPc.Stage] at account
  obtain ⟨v, ⟨-, at_number⟩, number, -⟩ := account
  exact Option.some.inj (number.symm.trans ((at_number fd').mp denotes))

/-- A step of the server keeps the numbers of the bufferevents right. -/
theorem LoopInv.number_step (h : LoopInv s) {a : Action n} {v : State n}
    (taken : step s.server a = some v) (free : ∀ ok, a ≠ .onAccept ok) {fd : ℕ}
    (denotes : v.mem.descriptors fd = some c) :
    v.accept.building = some c ∨ (s.bufEv c).fd = fd := by
  have before (old : s.server.mem.descriptors fd = some c) :
      v.accept.building = some c ∨ (s.bufEv c).fd = fd := by
    rcases h.number c fd old with builds | same
    · rcases accept_of_step taken with same | ⟨idle, -⟩ | ⟨ok, ha⟩
      · exact .inl (same ▸ builds)
      · simp [idle, AcceptPc.building] at builds
      · exact absurd ha (free ok)
    · exact .inr same
  rcases step_sheds taken with sheds | ⟨fd', -, accepting, descriptors⟩
  · exact before (sheds fd c denotes)
  · rw [descriptors] at denotes
    by_cases hfd : fd = fd'
    · have hc : s.server.mem.accepted = c := by simpa [hfd] using denotes
      simp [accepting, AcceptPc.building, hc]
    · exact before (by simpa [hfd] using denotes)

theorem LoopInv.number_onAccept (h : LoopInv s) {ok : Bool} {v : State n}
    (taken : step s.server (.onAccept ok) = some v) {fd : ℕ}
    (denotes : v.mem.descriptors fd = some c) :
    v.accept.building = some c ∨ ((s.onAccept ok).bufEv c).fd = fd := by
  obtain ⟨k, l, place, reached⟩ := h.reached
  obtain ⟨k', l', place', reached', -⟩ := reached.step taken
  have old : s.server.mem.descriptors fd = some c := by
    rcases step_sheds taken with sheds | ⟨fd', ha, -⟩
    · exact sheds fd c denotes
    · cases ha
  obtain ⟨-, -, new⟩ := onAccept_bufEv s ok c
  rcases h.number c fd old with builds | same
  · rcases reached.building_step reached' taken builds with builds' | released | ⟨rfl, fd', at_new⟩
    · exact .inl builds'
    · exact absurd denotes (released.2.1 fd)
    · right
      rw [← reached.number_of_new at_new old]
      simp [LoopState.onAccept, at_new, LoopState.setBufEv, BufEv.new]
  · rcases new with kept | ⟨fd', -, at_new, new⟩
    · exact .inr (kept.trans same)
    · exact .inr (new.trans (reached.number_of_new at_new old))

/-- A loop goes on serving its connection in every step that is not its job's. -/
theorem LoopInv.serving_step (h : LoopInv s) {a : Action n} {v : State n}
    (taken : step s.server a = some v) (serving : s.server.serving w = some c)
    (inside : a ≠ .job w) :
    v.serving w = some c ∧
      ((∀ cb, a ≠ .callback w cb) → v.mem.conn c = s.server.mem.conn c) := by
  obtain ⟨k, l, place, reached⟩ := h.reached
  obtain ⟨k', l', place', h', confined⟩ := reached.inv.step taken
  exact reached.inv.serving_step h' taken confined serving inside

/-- The job of a worker makes no step while an event is due in its loop. -/
theorem job_ne_of_active {a : Action n} (between : ∀ w, a = .job w → s.isBetweenPasses w = true)
    (serving : s.server.serving w = some c) (active : (s.bufEv c).active ≠ []) : a ≠ .job w := by
  rintro rfl
  have idle := between w rfl
  simp only [LoopState.isBetweenPasses, serving, List.isEmpty_iff] at idle
  exact active idle

/-- `on_accept` makes no event due. -/
theorem active_of_onAccept {ok : Bool} (active : ((s.onAccept ok).bufEv c).active ≠ []) :
    (s.bufEv c).active ≠ [] := by
  intro idle
  rcases (onAccept_bufEv s ok c).2.1 with none | same
  · exact active none
  · exact active (same.trans idle)

/-- Every step keeps the invariant of the loops. -/
theorem LoopStep.inv (st : LoopStep s a u) (h : LoopInv s) : LoopInv u := by
  obtain ⟨k, l, place, reached⟩ := h.reached
  have reached' : ∃ k l place, Reached u.server k l place := by
    rcases st.server_step with same | ⟨a', taken⟩
    · exact same ▸ h.reached
    · obtain ⟨k', l', place', h', -⟩ := reached.step taken
      exact ⟨k', l', place', h'⟩
  refine ⟨reached', fun c fd => ?_, fun c some => ?_⟩
  · cases st with
    | server free accepts between taken => exact h.number_step taken accepts
    | onAccept taken => exact h.number_onAccept taken
    | @poll w d events serving idle sides added =>
      by_cases hd : c = d
      · subst hd; simpa [LoopState.setBufEv] using h.number c fd
      · simpa [LoopState.setBufEv, hd] using h.number c fd
    | @quiet w d e rest out b serving first handled =>
      by_cases hd : c = d
      · subst hd
        simpa [LoopState.setBufEv, (handle_quiet handled).1] using h.number c fd
      · simpa [LoopState.setBufEv, hd] using h.number c fd
    | @callback w d e rest out b cb v serving first handled taken =>
      intro denotes
      have number := h.number_step taken (by simp) denotes
      by_cases hd : c = d
      · subst hd
        simpa [LoopState.setBufEv, (handle_callback handled).1] using number
      · simpa [LoopState.setBufEv, hd] using number
  · cases st with
    | @server a' v free accepts between taken =>
      obtain ⟨w, serving⟩ := h.served c some
      exact ⟨w, (h.serving_step taken serving (job_ne_of_active between serving some)).1⟩
    | @onAccept ok v taken =>
      obtain ⟨w, serving⟩ := h.served c (active_of_onAccept some)
      exact ⟨w, (h.serving_step taken serving (by simp)).1⟩
    | @poll w d events serving idle sides added =>
      by_cases hd : c = d
      · subst hd; exact ⟨w, serving⟩
      · exact h.served c (by simpa [LoopState.setBufEv, hd] using some)
    | @quiet w d e rest out b serving first handled =>
      by_cases hd : c = d
      · subst hd; exact ⟨w, serving⟩
      · exact h.served c (by simpa [LoopState.setBufEv, hd] using some)
    | @callback w d e rest out b cb v serving first handled taken =>
      by_cases hd : c = d
      · subst hd; exact ⟨w, (h.serving_step taken serving (by simp)).1⟩
      · obtain ⟨w', serving'⟩ := h.served c (by simpa [LoopState.setBufEv, hd] using some)
        exact ⟨w', (h.serving_step taken serving' (by simp)).1⟩

/-! ## The condition is exactly what keeps the clients apart -/

/-- `on_accept` leaves the bufferevents of served connections alone. -/
theorem LoopInv.onAccept_served (h : LoopInv s) (serving : s.server.serving w = some c)
    (ok : Bool) : (s.onAccept ok).bufEv c = s.bufEv c := by
  obtain ⟨k, l, place, reached⟩ := h.reached
  obtain ⟨-, -, held, -⟩ := reached.inv.serving serving
  have other : s.server.accepting ≠ some c := fun mine => by
    have placed := (reached.inv.holds c .accept).mp mine
    simp [held] at placed
  cases hpc : s.server.accept with
  | buffereventNew d fd =>
    have hd : c ≠ d := fun e => other (by simp [State.accepting, hpc, AcceptPc.conn, e])
    cases ok <;> simp [LoopState.onAccept, hpc, LoopState.setBufEv, hd]
  | enable d =>
    have hd : c ≠ d := fun e => other (by simp [State.accepting, hpc, AcceptPc.conn, e])
    simp [LoopState.onAccept, hpc, LoopState.setBufEv, hd]
  | _ => simp [LoopState.onAccept, hpc]

/-- A step of another thread leaves the number of an open connection as it is. -/
theorem LoopInv.denotes_step (h : LoopInv s) (h' : LoopInv u) {a : Action n}
    (taken : step s.server a = some u.server) (serving : s.server.serving w = some c)
    (inside : a ≠ .job w) (outside : ∀ cb, a ≠ .callback w cb)
    (denotes : s.server.mem.descriptors (s.bufEv c).fd = some c) :
    u.server.mem.descriptors (u.bufEv c).fd = some c := by
  obtain ⟨serves, same⟩ := h.serving_step taken serving inside
  have opened := (h.denotes_iff serving).mp denotes
  exact (h'.denotes_iff serves).mpr (same outside ▸ opened)

/-- A callback that meets the condition leaves nothing of its connection due on a wrong number. -/
theorem LoopInv.callback_isolated (h : LoopInv s) {e e' : Event} {rest : List Event}
    {out : Outcome} {b : BufEv} {cb : Callback} {v : State n}
    (h' : LoopInv { s.setBufEv c b with server := v }) (isolated : s.Isolated)
    (last : s.ClosesLast (.run w out)) (serving : s.server.serving w = some c)
    (first : (s.bufEv c).active = e' :: rest)
    (handled : BufEv.handle { s.bufEv c with active := rest } e' out = some (b, some cb))
    (taken : step s.server (.callback w cb) = some v) (due : e ∈ b.active)
    (uses : b.UsesSocket e) : v.mem.descriptors b.fd = some c := by
  obtain ⟨k, l, place, reached⟩ := h.reached
  obtain ⟨-, mem, output, reads⟩ := handle_callback handled
  obtain ⟨serves, -⟩ := h.serving_step taken serving (by simp)
  have denotes : v.mem.descriptors b.fd = some c ↔ (v.mem.conn c).closes = 0 := by
    simpa [LoopState.setBufEv] using h'.denotes_iff serves
  have effect := reached.inv.callback_effect taken serving
  rw [denotes]
  cases closes : cb.closes with
  | true =>
    -- another event is due, so the condition says that the descriptor was closed before, and
    -- then that event was due on a wrong number already
    have late : (s.server.mem.conn c).closes ≠ 0 := fun opened =>
      last c e' rest b cb serving first handled closes opened e due uses
    have before : (s.bufEv c).UsesSocket e :=
      ⟨uses.1, fun side => (output closes) ▸ uses.2 side⟩
    have denoted := isolated c e (first ▸ List.mem_cons_of_mem _ (mem e due)) before
    exact absurd ((h.denotes_iff serving).mp denoted) late
  | false =>
    have read : (s.bufEv c).UsesSocket e' := ⟨(reads closes).2, by simp [(reads closes).1]⟩
    have denoted := isolated c e' (first ▸ List.mem_cons_self) read
    simp only [closes, Bool.false_eq_true, if_false] at effect
    rw [effect]
    exact (h.denotes_iff serving).mp denoted

/-- A step that meets the condition leaves nothing due on a wrong number. -/
theorem LoopStep.isolated (st : LoopStep s a u) (h : LoopInv s) (isolated : s.Isolated)
    (last : s.ClosesLast a) : u.Isolated := by
  have h' := st.inv h
  intro c e due uses
  cases st with
  | @server a' v free accepts between taken =>
    have active : (s.bufEv c).active ≠ [] := List.ne_nil_of_mem due
    obtain ⟨w, serving⟩ := h.served c active
    exact h.denotes_step h' taken serving (job_ne_of_active between serving active)
      (fun cb => free w cb) (isolated c e due uses)
  | @onAccept ok v taken =>
    obtain ⟨w, serving⟩ := h.served c (active_of_onAccept (List.ne_nil_of_mem due))
    have same := h.onAccept_served serving ok
    refine h.denotes_step h' taken serving (by simp) (by simp) (isolated c e ?_ ?_)
    · simpa only [same] using due
    · simpa only [same] using uses
  | @poll w d events serving idle sides added =>
    by_cases hd : c = d
    · subst hd
      simp only [LoopState.setBufEv, Function.update_self] at due uses
      have opened := last c serving ⟨e, due, uses⟩
      exact (h'.denotes_iff serving).mpr opened
    · simp only [LoopState.setBufEv, Function.update_of_ne hd] at due uses ⊢
      exact isolated c e due uses
  | @quiet w d e' rest out b serving first handled =>
    by_cases hd : c = d
    · subst hd
      simp only [LoopState.setBufEv, Function.update_self] at due uses
      obtain ⟨fd, shrinks⟩ := handle_quiet handled
      obtain ⟨mem, due_uses⟩ := shrinks e due
      have denotes := isolated c e (first ▸ List.mem_cons_of_mem _ mem) (due_uses uses)
      simpa [LoopState.setBufEv, fd] using denotes
    · simp only [LoopState.setBufEv, Function.update_of_ne hd] at due uses ⊢
      exact isolated c e due uses
  | @callback w d e' rest out b cb v serving first handled taken =>
    by_cases hd : c = d
    · subst hd
      simp only [LoopState.setBufEv, Function.update_self] at due uses ⊢
      exact h.callback_isolated h' isolated last serving first handled taken due uses
    · simp only [LoopState.setBufEv, Function.update_of_ne hd] at due uses
      obtain ⟨w', serving'⟩ := h.served c (List.ne_nil_of_mem due)
      refine h.denotes_step h' taken serving' (by simp) (fun cb' same => ?_)
        (isolated c e due uses)
      obtain rfl : w = w' := by simpa using (Action.callback.inj same).1
      exact hd (Option.some.inj (serving'.symm.trans serving))

/-- A step that breaks the condition leaves a read or write due on a number that no longer denotes
the connection. -/
theorem LoopStep.not_isolated (st : LoopStep s a u) (h : LoopInv s) (bad : ¬ s.ClosesLast a) :
    ¬ u.Isolated := by
  have h' := st.inv h
  obtain ⟨k, l, place, reached⟩ := h.reached
  intro isolated
  cases st with
  | server free accepts between taken => exact bad trivial
  | onAccept taken => exact bad trivial
  | @poll w d events serving idle sides added =>
    simp only [LoopState.ClosesLast, not_forall] at bad
    obtain ⟨c, serving', ⟨e, mem, uses⟩, closed⟩ := bad
    obtain rfl : d = c := Option.some.inj (serving.symm.trans serving')
    have denotes := isolated d e (by simpa [LoopState.setBufEv] using mem)
      (by simp only [LoopState.setBufEv, Function.update_self]; exact uses)
    exact closed ((h'.denotes_iff serving).mp denotes)
  | @quiet w d e rest out b serving first handled =>
    simp only [LoopState.ClosesLast, not_forall] at bad
    obtain ⟨c, e', rest', b', cb, serving', first', handled', -⟩ := bad
    obtain rfl : d = c := Option.some.inj (serving.symm.trans serving')
    obtain ⟨rfl, rfl⟩ := List.cons.inj (first.symm.trans first')
    rw [handled] at handled'
    cases handled'
  | @callback w d e rest out b cb v serving first handled taken =>
    simp only [LoopState.ClosesLast, not_forall, not_not] at bad
    obtain ⟨c, e', rest', b', cb', serving', first', handled', closes, -, x, due, uses⟩ := bad
    obtain rfl : d = c := Option.some.inj (serving.symm.trans serving')
    obtain ⟨rfl, rfl⟩ := List.cons.inj (first.symm.trans first')
    rw [handled] at handled'
    cases handled'
    obtain ⟨serves, -⟩ := h.serving_step taken serving (by simp)
    have effect := reached.inv.callback_effect taken serving
    have denotes := isolated d x (by simpa [LoopState.setBufEv] using due)
      (by simpa [LoopState.setBufEv] using uses)
    have opened : (v.mem.conn d).closes = 0 := (h'.denotes_iff serves).mp denotes
    simp only [closes, if_true] at effect
    omega

end Loops

/-- Exactly in the runs in which no callback closes a descriptor while another read or write of its
bufferevent is due, and no closed number is polled again, every read and write is due on the
connection that its bufferevent was created for. -/
theorem clients_isolated_iff {s₀ s : LoopState n} {tr : List (LoopState n × LoopAction n)}
    (initial : (loopMachine n).initial s₀) (run : (loopMachine n).Run s₀ tr s) :
    (∀ u ∈ visited tr s, u.Isolated) ↔ Along LoopState.ClosesLast tr := by
  refine run.forall_visited_iff (I := LoopInv) (.of_initial initial) ?_ ?_ ?_ ?_
  · intro c e due
    simp [initial.2 c] at due
  · exact fun s a u h taken => (loopStep_cases taken).inv h
  · exact fun s a u h isolated last taken => (loopStep_cases taken).isolated h isolated last
  · exact fun s a u h bad taken => (loopStep_cases taken).not_isolated h bad

/-- A test that settles the condition along a run. -/
def LoopState.closesLastTest (s : LoopState n) : LoopAction n → Bool
  | .poll w events => match s.server.serving w with
    | some c => decide ((∃ e ∈ events, (s.bufEv c).UsesSocket e) →
      (s.server.mem.conn c).closes = 0)
    | none => true
  | .run w out => match s.server.serving w with
    | some c => match (s.bufEv c).active with
      | e :: rest => match BufEv.handle { s.bufEv c with active := rest } e out with
        | some (b, some cb) => decide (cb.closes = true → (s.server.mem.conn c).closes = 0 →
          ∀ e' ∈ b.active, ¬ b.UsesSocket e')
        | _ => true
      | [] => true
    | none => true
  | _ => true

theorem closesLast_of_test (s : LoopState n) (a : LoopAction n)
    (test : s.closesLastTest a = true) : s.ClosesLast a := by
  cases a with
  | server a => trivial
  | poll w events =>
    intro c serves
    simpa [LoopState.closesLastTest, serves] using test
  | run w out =>
    intro c e rest b cb serves first handled
    simp only [LoopState.closesLastTest, serves, first, handled] at test
    exact of_decide_eq_true test

/-- The start of a run with one worker: connection 0 is accepted on number 5, and the worker enters
its event loop. -/
def loopPrologue : List (LoopAction 1) := List.flatten [
  List.replicate 3 (.server (.queue (.init true))), [.server (.accept (some 5))],
  List.replicate 9 (.server (.onAccept true)), List.replicate 4 (.server (.queue (.caller () ∅))),
  [.server (.onAccept true)], List.replicate 6 (.server (.queue (.worker 0))),
  List.replicate 2 (.server (.job 0))]

/-- A request is read and its reply sent in two passes; then the client hangs up, and the next
connection gets its number. -/
theorem clients_isolated_served :
    ∃ (tr : List (LoopState 1 × LoopAction 1)) (s : LoopState 1),
      (loopMachine 1).Run loopStart tr s ∧ s.server.mem.descriptors 5 = some 1 ∧
      (s.bufEv 0).fd = 5 ∧ ∀ u ∈ visited tr s, u.Isolated := by
  let acts : List (LoopAction 1) := List.flatten [loopPrologue,
    [.poll 0 [⟨.read, false⟩], .run 0 (.received 20 true), .poll 0 [⟨.write, false⟩],
      .run 0 (.sent 20), .poll 0 [⟨.read, false⟩], .run 0 .failed, .server (.accept (some 5))]]
  have ends : ((loopMachine 1).exec loopStart acts).map (fun s =>
      (s.server.mem.descriptors 5, (s.bufEv 0).fd)) = some (some 1, 5) := by decide +kernel
  obtain ⟨s, hs, h⟩ := Option.map_eq_some_iff.mp ends
  obtain ⟨reused, number⟩ := Prod.mk.inj h
  refine ⟨_, s, run_of_exec hs, reused, number,
    (clients_isolated_iff loopStart_initial (run_of_exec hs)).mpr ?_⟩
  exact along_of_check closesLast_of_test (by decide +kernel)

/-- The reply of connection 0 is due in the same pass in which the client hangs up. The error
callback closes number 5, the next connection gets it, and 20 bytes of the reply are about to be
sent to that connection. -/
theorem reply_sent_to_other_client :
    ∃ (tr : List (LoopState 1 × LoopAction 1)) (s : LoopState 1),
      (loopMachine 1).Run loopStart tr s ∧ (s.bufEv 0).fd = 5 ∧
      s.server.mem.descriptors 5 = some 1 ∧ (s.bufEv 0).active = [⟨.write, false⟩] ∧
      (∃ u, loopStep s (.run 0 (.sent 20)) = some u) ∧ ¬ s.Isolated := by
  let acts : List (LoopAction 1) := List.flatten [loopPrologue,
    [.poll 0 [⟨.read, false⟩], .run 0 (.received 20 true),
      .poll 0 [⟨.read, false⟩, ⟨.write, false⟩], .run 0 .failed, .server (.accept (some 5))]]
  have ends : ((loopMachine 1).exec loopStart acts).map (fun s =>
      ((s.bufEv 0).fd, s.server.mem.descriptors 5, (s.bufEv 0).active, (s.bufEv 0).output,
        (loopStep s (.run 0 (.sent 20))).isSome)) =
      some (5, some 1, [⟨.write, false⟩], 20, true) := by decide +kernel
  obtain ⟨s, hs, h⟩ := Option.map_eq_some_iff.mp ends
  simp only [Prod.mk.injEq] at h
  obtain ⟨number, reused, due, output, enabled⟩ := h
  refine ⟨_, s, run_of_exec hs, number, reused, due, Option.isSome_iff_exists.mp enabled,
    fun isolated => ?_⟩
  have denotes := isolated 0 ⟨.write, false⟩ (by simp [due]) ⟨rfl, fun _ => by simp [output]⟩
  simp [number, reused] at denotes

end JiaTuanServer.Server

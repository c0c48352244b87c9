import JiaTuanServer.Server.WorkLeft

/-!
# Connections that a thread has in hand

A connection is in service when the thread that releases it has it in hand: a worker carries it,
`on_accept` is giving it up, or a worker past its last test of `terminate` is about to remove it
from the head of the queue. `workqueue_shutdown` does not get in the way of these.
-/

namespace JiaTuanServer.Server

open Transition Workqueue Machine

variable {n : ℕ}

/-- The connection that `on_accept` gives up on a failure path. -/
def AcceptPc.givesUp : AcceptPc → Option ℕ
  | .close c _ | .closing c | .freeing c => some c
  | _ => none

/-- The thread that releases connection `c` has it in hand. -/
def State.InService (s : State n) (c : ℕ) : Prop :=
  (∃ w, carries (s.queue.pc w) = some c) ∨ s.accept.givesUp = some c ∨
    s.queue.waitingJobs = some c ∧ ∃ w, s.queue.pc w = .takeJob

/-- What every reachable state of the server satisfies beside `Inv`. -/
structure Reached (s : State n) (k : ℕ) (l : List ℕ) (place : ℕ → Option (Owner n)) : Prop where
  inv : Inv s k l place
  attended : Attended s.queue
  accepting : 0 < s.mem.accepted → s.queue.init = .returned 0

variable {s u : State n} {k k' : ℕ} {l l' : List ℕ} {place place' : ℕ → Option (Owner n)} {c : ℕ}
  {a : Action n}

theorem Reached.of_initial (h : Initial s) : Reached s 0 [] fun _ => none where
  inv := .of_initial h
  attended := .of_initial h.queue
  accepting some := by simp [h.accepted] at some

/-- The step of the queue inside a step of the server, if there is one. -/
theorem Inv.onQueue (h' : Inv u k' l' place') (taken : Server.step s a = some u) :
    u.queue = s.queue ∨ ∃ b, s.onQueue a = some b ∧ Step s.queue b u.queue := by
  have moved := step_onQueue taken h'.fault
  cases hb : s.onQueue a with
  | none => exact .inl (by simpa [hb] using moved)
  | some b => exact .inr ⟨b, rfl, step_cases (by simpa [hb] using moved)⟩

/-- Only `accept` raises the number of connections, and only after `workqueue_init`. -/
theorem State.Confined.accepted (h : s.Confined u a) (taken : step s a = some u) :
    u.mem.accepted = s.mem.accepted ∨ u.mem.accepted = s.mem.accepted + 1 ∧
      s.queue.init = .returned 0 ∧ u.queue = s.queue := by
  cases a with
  | onAccept ok => exact .inl h.accepted
  | job w => exact .inl h.accepted
  | callback w cb => exact .inl h.accepted
  | queue a => exact .inl h.2.2
  | accept fd =>
    simp only [step, acceptStep] at taken
    split at taken
    on_goal 2 => cases taken
    split at taken
    on_goal 2 => cases taken
    rename_i ready
    cases fd with
    | none => rw [perform_pure taken]; exact .inl rfl
    | some fd =>
      simp only at taken
      split at taken
      · cases taken
        exact .inr ⟨rfl, ready.2, rfl⟩
      · cases taken

/-- Every step keeps what reachable states satisfy. -/
theorem Reached.step (h : Reached s k l place) (taken : Server.step s a = some u) :
    ∃ k' l' place', Reached u k' l' place' ∧ s.Confined u a := by
  obtain ⟨k', l', place', h', confined⟩ := h.inv.step taken
  refine ⟨k', l', place', ⟨h', ?_, fun some => ?_⟩, confined⟩
  · rcases h'.onQueue taken with same | ⟨b, -, st⟩
    · exact same ▸ h.attended
    · exact st.attended h.inv.coherent.owned h.inv.coherent.workers h.attended
  · rcases confined.accepted taken with same | ⟨-, ready, queue⟩
    · have ready := h.accepting (same ▸ some)
      rcases h'.onQueue taken with same | ⟨b, -, st⟩
      · exact same ▸ ready
      · exact st.init_returned ready
    · exact queue ▸ ready

theorem reached_of_run {s₀ : State n} {tr : List (State n × Action n)} (initial : Initial s₀)
    (run : (machine n).Run s₀ tr s) : ∃ k l place, Reached s k l place := by
  refine run.always (I := fun s => ∃ k l place, Reached s k l place)
    ⟨0, [], _, .of_initial initial⟩ ?_
  rintro s a u ⟨k, l, place, h⟩ taken
  obtain ⟨k', l', place', h', -⟩ := h.step taken
  exact ⟨k', l', place', h'⟩

/-! ## What one step of the queue does to a job in hand -/

section Queue

variable {q q' : Workqueue.State n Unit ℕ} {b : Workqueue.Action n Unit ℕ} {w : Fin n}

/-- A worker keeps the job that it carries until its function returns. -/
theorem carries_of_step (st : Step q b q') (workers : Workers q k) (has : carries (q.pc w) = some c)
    (stays : b ≠ .jobReturns w) : carries (q'.pc w) = some c := by
  have other {v : Fin n} {pc : WorkerPc ℕ} (hv : carries (q.pc v) ≠ some c ∨ v ≠ w) :
      carries (Function.update q.pc v pc w) = some c := by
    have hvw : w ≠ v := by
      rintro rfl
      exact hv.elim (fun e => e has) fun e => e rfl
    simpa [hvw] using has
  have woken {ws : Finset (Fin n)} (hws : ws ⊆ q.sleepers) :
      carries ((q.wakeAll ws).pc w) = some c := by
    have hw : w ∉ ws := fun hw => by simp [mem_sleepers.mp (hws hw), carries] at has
    simpa [hw] using has
  cases st with
  | @worker v q' st =>
    by_cases hv : v = w
    · subst hv
      cases st with
      | acquire at_lock unowned => rcases at_lock with e | e <;> simp [e, carries] at has
      | _ => simp_all [carries]
    · cases st <;> exact other (.inr hv)
  | @jobReturns v job at_run => exact other (.inr fun e => stays (e ▸ rfl))
  | wake at_wait => exact other (.inl (by simp [at_wait, carries]))
  | init st =>
    cases st with
    | create i at_create => exact other (.inl (by simp [workers.notStarted at_create, carries]))
    | _ => exact has
  | caller st =>
    cases st with
    | signal job at_signal waiting one => exact woken waiting
    | _ => exact has
  | shutdown st =>
    cases st with
    | broadcast at_broadcast => exact woken subset_rfl
    | _ => exact has
  | _ => exact has

/-- A worker gets a job only from the head of the queue. -/
theorem carried_of_step (st : Step q b q') (has : carries (q'.pc w) = some c) :
    carries (q.pc w) = some c ∨ q.pc w = .takeJob ∧ q.waitingJobs = some c := by
  have other {v : Fin n} {pc : WorkerPc ℕ} (hpc : carries pc = none)
      (has : carries (Function.update q.pc v pc w) = some c) : carries (q.pc w) = some c := by
    have hvw : w ≠ v := by
      rintro rfl
      simp [hpc] at has
    simpa [hvw] using has
  have woken {ws : Finset (Fin n)} (has : carries ((q.wakeAll ws).pc w) = some c) :
      carries (q.pc w) = some c := by
    have hw : w ∉ ws := fun hw => by simp [hw, carries] at has
    simpa [hw] using has
  cases st with
  | @worker v q' st =>
    by_cases hv : v = w
    · subst hv
      cases st with
      | take job at_take head =>
        obtain rfl : job = c := by simpa [carries] using has
        exact .inr ⟨at_take, head⟩
      | _ => exact .inl (by simp_all [carries])
    · have hvw : w ≠ v := Ne.symm hv
      cases st <;> exact .inl (by simpa [hvw] using has)
  | jobReturns job at_run => exact .inl (other rfl has)
  | wake at_wait => exact .inl (other rfl has)
  | init st =>
    cases st with
    | create i at_create => exact .inl (other rfl has)
    | _ => exact .inl has
  | caller st =>
    cases st with
    | signal job at_signal waiting one => exact .inl (woken has)
    | _ => exact .inl has
  | shutdown st =>
    cases st with
    | broadcast at_broadcast => exact .inl (woken has)
    | _ => exact .inl has
  | _ => exact .inl has

/-- A worker gets to `LL_REMOVE` only past a test of its flag. -/
theorem takeJob_of_step (st : Step q b q') (at_take : q'.pc w = .takeJob) :
    q.pc w = .takeJob ∧ b ≠ .worker w ∨
      b = .worker w ∧ q.pc w = .testTerminate ∧ q.terminate w = false := by
  have other {v : Fin n} {pc : WorkerPc ℕ} (hpc : pc ≠ .takeJob)
      (at_take : Function.update q.pc v pc w = .takeJob) : q.pc w = .takeJob := by
    have hvw : w ≠ v := by
      rintro rfl
      simp [hpc] at at_take
    simpa [hvw] using at_take
  have woken {ws : Finset (Fin n)} (at_take : (q.wakeAll ws).pc w = .takeJob) :
      q.pc w = .takeJob := by
    have hw : w ∉ ws := fun hw => by simp [hw] at at_take
    simpa [hw] using at_take
  cases st with
  | @worker v q' st =>
    by_cases hv : v = w
    · subst hv
      cases st with
      | proceed at_test flag => exact .inr ⟨rfl, at_test, flag⟩
      | _ => simp at at_take
    · have hvw : w ≠ v := Ne.symm hv
      have stays : (Action.worker v : Workqueue.Action n Unit ℕ) ≠ .worker w := by simpa using hv
      cases st <;> exact .inl ⟨by simpa [hvw] using at_take, stays⟩
  | jobReturns job at_run => exact .inl ⟨other (by simp) at_take, by simp⟩
  | wake at_wait => exact .inl ⟨other (by simp) at_take, by simp⟩
  | init st =>
    cases st with
    | create i at_create => exact .inl ⟨other (by simp) at_take, by simp⟩
    | _ => exact .inl ⟨at_take, by simp⟩
  | caller st =>
    cases st with
    | signal job at_signal waiting one => exact .inl ⟨woken at_take, by simp⟩
    | _ => exact .inl ⟨at_take, by simp⟩
  | shutdown st =>
    cases st with
    | broadcast at_broadcast => exact .inl ⟨woken at_take, by simp⟩
    | _ => exact .inl ⟨at_take, by simp⟩
  | _ => exact .inl ⟨at_take, by simp⟩

/-- The worker at `LL_REMOVE` takes the head of the queue. -/
theorem takes_of_step (st : Step q (.worker w) q') (at_take : q.pc w = .takeJob)
    (head : q.waitingJobs = some c) : carries (q'.pc w) = some c := by
  cases st with
  | worker st => cases st <;> simp_all [carries]

/-- `workqueue_shutdown` is called once. -/
theorem called_of_step (st : Step q b q') (called : q.shutdown ≠ .notCalled) :
    q'.shutdown ≠ .notCalled := by
  cases st with
  | shutdown st =>
    cases st with
    | readNext w at_next => cases q.workerLinks.next w <;> simp [ShutdownPc.traverse]
    | _ => simp
  | worker st => cases st <;> exact called
  | init st => cases st <;> exact called
  | caller st => cases st <;> exact called
  | callShutdown started at_start => exact absurd at_start called
  | _ => exact called

end Queue

end JiaTuanServer.Server

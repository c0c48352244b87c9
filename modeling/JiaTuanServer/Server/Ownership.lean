import JiaTuanServer.Server.Machine
import JiaTuanServer.Workqueue.Invariant

/-!
# Who holds a connection, and what memory holds for it

A connection is held by the running `on_accept` until `LL_ADD` has put its job on the queue, then
by the queue, and from `LL_REMOVE` on by the worker that took the job, until the job function
returns. Where its holder stands tells what memory holds for the connection: its descriptor, the
blocks in use and the contents of its `client_t` (`AcceptPc.Stage`, `ready`, `workerStage`).
-/

namespace JiaTuanServer.Server

open Transition Workqueue LocalTriple

variable {n : ℕ}

/-- Who may use the blocks of a connection. -/
inductive Owner (n : ℕ) where
  | accept
  | queue
  | worker (w : Fin n)
  deriving DecidableEq, Repr

/-- The connection of the running `on_accept`. -/
def AcceptPc.conn : AcceptPc → Option ℕ
  | .idle => none
  | .setnonblock c _ | .mallocClient c _ | .evbufferNew c _ | .eventBaseNew c _
  | .buffereventNew c _ | .enable c | .mallocJob c | .setJob c | .addJob c | .adding c
  | .close c _ | .closing c | .freeing c => some c

/-- The job that a worker has taken from the queue and not finished. -/
def carries : WorkerPc ℕ → Option ℕ
  | .unlock job | .testJob job => job
  | .run job => some job
  | _ => none

/-- The job of the running `workqueue_add_job`. -/
def callerJob : CallerPc ℕ → Option ℕ
  | .idle => none
  | .lock job | .add job | .signal job | .unlock job => some job

/-- `workqueue_add_job` has not put its job on the queue yet. -/
def beforeAdd : CallerPc ℕ → Bool
  | .lock _ | .add _ => true
  | _ => false

/-- The connection that the accept thread holds: none once its job is on the queue. -/
def State.accepting (s : State n) : Option ℕ :=
  match s.accept with
  | .adding c => if beforeAdd (s.queue.caller ()) then some c else none
  | pc => pc.conn

/-- Connection `c` is held by the owner; `l` are the waiting jobs. -/
def State.Holds (s : State n) (l : List ℕ) (c : ℕ) : Owner n → Prop
  | .accept => s.accepting = some c
  | .queue => c ∈ l
  | .worker w => carries (s.queue.pc w) = some c

/-- The same without naming the waiting jobs. -/
def State.HeldBy (s : State n) (c : ℕ) (o : Owner n) : Prop :=
  ∃ l, Linked.Chain s.queue.jobLinks.next s.queue.waitingJobs l ∧ s.Holds l c o

/-- The thread that takes the step holds connection `c`, or `c` is waiting and the thread has locked
the queue. -/
def State.MayUse (s : State n) (c : ℕ) : Action n → Prop
  | .accept _ | .onAccept _ | .queue (.caller _ _) => s.HeldBy c .accept
  | .job w | .callback w _ => s.HeldBy c (.worker w)
  | .queue (.worker w) => s.HeldBy c (.worker w) ∨
      s.HeldBy c .queue ∧ s.queue.jobsMutex = some (.worker w)
  | .queue _ => False

/-! ## What memory holds -/

/-- The blocks in `live` have been allocated, and the `client_t` points to them. -/
structure Conn.Built (x : Conn) (c closes : ℕ) (fd : ℤ) (live : List Kind) : Prop where
  closes : x.closes = closes
  block : ∀ k, x.block k = if k ∈ live then .live else .absent
  client : .client ∈ live → x.client =
    { fd := fd
      evbase := if .evbase ∈ live then some c else none
      bufEv := if .bufEv ∈ live then some c else none
      outputBuffer := if .outputBuffer ∈ live then some c else none }

/-- The descriptor is open, under the number `fd`, and the blocks `live` are in use. -/
def Opened (c fd : ℕ) (live : List Kind) (v : View) : Prop :=
  v.1 = some fd ∧ v.2.Built c 0 fd live

/-- The descriptor has been closed, once, and the blocks `live` are in use. -/
def Closed (c : ℕ) (live : List Kind) (v : View) : Prop := v.1 = none ∧ v.2.Built c 1 (-1) live

def allKinds : List Kind := [.client, .outputBuffer, .evbase, .bufEv, .job]

/-- Ready to be served: everything is allocated and the job points to the client. -/
def Ready (c : ℕ) (v : View) : Prop := (∃ fd, Opened c fd allKinds v) ∧ v.2.userData = some c

/-- The same after a callback has closed the descriptor. -/
def HungUp (c : ℕ) (v : View) : Prop := Closed c allKinds v ∧ v.2.userData = some c

/-- The descriptor has been closed, once; of the blocks `used` only those in `live` are left. -/
def Left (used live : List Kind) (v : View) : Prop :=
  v.1 = none ∧ v.2.closes = 1 ∧
    ∀ k, v.2.block k = if k ∈ live then .live else if k ∈ used then .freed else .absent

/-- The descriptor has been closed, once, and every block that was allocated has been freed. -/
def Released (v : View) : Prop := ∃ used, Left used [] v

/-- Nothing has been done for the connection yet. -/
def Fresh (v : View) : Prop := v.1 = none ∧ v.2.closes = 0 ∧ ∀ k, v.2.block k = .absent

/-- What memory holds for the connection of `on_accept`. -/
def AcceptPc.Stage (c : ℕ) : AcceptPc → View → Prop
  | .idle => fun _ => False
  | .setnonblock _ fd | .mallocClient _ fd | .close _ fd => Opened c fd []
  | .evbufferNew _ fd => Opened c fd [.client]
  | .eventBaseNew _ fd => Opened c fd [.client, .outputBuffer]
  | .buffereventNew _ fd => Opened c fd [.client, .outputBuffer, .evbase]
  | .enable _ | .mallocJob _ =>
    fun v => ∃ fd, Opened c fd [.client, .outputBuffer, .evbase, .bufEv] v
  | .setJob _ => fun v => ∃ fd, Opened c fd allKinds v
  | .addJob _ | .adding _ => Ready c
  | .closing _ => fun v => ∃ fd live, .client ∈ live ∧ .job ∉ live ∧ Opened c fd live v
  | .freeing _ => fun v => ∃ live, .client ∈ live ∧ .job ∉ live ∧ Closed c live v

/-- What memory holds for a connection whose job function runs. -/
def JobPc.Stage (c : ℕ) : JobPc → View → Prop
  | .load => Ready c
  | .enter client => fun v => client = some c ∧ Ready c v
  | .dispatch d | .closing d => fun v => d = c ∧ (Ready c v ∨ HungUp c v)
  | .freeing d => fun v => d = c ∧ HungUp c v
  | .freeJob => Left allKinds [.job]
  | .returned => Left allKinds []

/-- What memory holds for a connection that a worker carries. -/
def workerStage (c : ℕ) (pc : WorkerPc ℕ) (job : JobPc) : View → Prop :=
  match pc with
  | .run _ => job.Stage c
  | _ => Ready c

/-- What connection `c` finds in memory has the property `P`. -/
def Mem.Shows (m : Mem) (c : ℕ) (P : View → Prop) : Prop := ∃ v, (connPart c).Sees m v ∧ P v

/-- `workqueue_shutdown` has dropped the waiting jobs. -/
def dropped : ShutdownPc n → Bool
  | .broadcast | .unlock | .returned => true
  | _ => false

/-- What memory holds for a connection, by its holder. A connection without a holder has been
released, or its job was dropped by `workqueue_shutdown`, or it has not been accepted yet. -/
def State.Account (s : State n) (c : ℕ) : Option (Owner n) → Prop
  | some .accept => s.mem.Shows c (s.accept.Stage c)
  | some .queue => s.mem.Shows c (Ready c)
  | some (.worker w) => s.mem.Shows c (workerStage c (s.queue.pc w) (s.job w))
  | none =>
    if c < s.mem.accepted then
      s.mem.Shows c Released ∨ dropped s.queue.shutdown = true ∧ s.mem.Shows c (Ready c)
    else s.mem.Shows c Fresh

/-- What every reachable state satisfies; `place` tells who holds a connection. -/
structure Inv (s : State n) (k : ℕ) (l : List ℕ) (place : ℕ → Option (Owner n)) : Prop where
  fault : s.fault = none
  coherent : Coherent s.queue k l
  holds : ∀ c o, s.Holds l c o ↔ place c = some o
  bound : ∀ c o, place c = some o → c < s.mem.accepted
  account : ∀ c, s.Account c (place c)
  caller : ∀ j, callerJob (s.queue.caller ()) = some j → s.accept = .adding j
  job : ∀ w, (∀ j, s.queue.pc w ≠ .run j) → s.job w = .load

/-! ## What the code does to a connection -/

variable {c fd : ℕ} {live : List Kind} {v : View}

theorem Conn.Built.linked {x : Conn} {closes : ℕ} {fd : ℤ} (h : x.Built c closes fd live)
    (hc : .client ∈ live) : x.Linked c := by
  have hx := h.client hc
  refine ⟨by simp [h.block, hc], ?_, ?_, ?_⟩ <;> simp [hx, pointer, h.block]

/-- `op` takes every view with `P` to one with `Q`. -/
def Takes {α : Type} (c : ℕ) (op : Op α) (P : View → Prop) (x : α) (Q : View → Prop) : Prop :=
  ∀ v, P v → ∃ v', Does (connPart c) op v x v' ∧ Q v'

theorem Takes.bind {α β : Type} {op : Op α} {f : α → Op β} {P Q R : View → Prop} {x : α} {y : β}
    (first : Takes c op P x Q) (second : Takes c (f x) Q y R) : Takes c (op >>= f) P y R := by
  intro v hv
  obtain ⟨v', does, hv'⟩ := first v hv
  obtain ⟨v'', does', hv''⟩ := second v' hv'
  exact ⟨v'', does.bind does', hv''⟩

theorem Takes.pure {α : Type} (x : α) (P : View → Prop) : Takes c (pure x) P x P :=
  fun v hv => ⟨v, .pure x, hv⟩

/-- `close(client_fd)` where `on_accept` has allocated nothing. -/
theorem close_takes : Takes c (close fd) (Opened c fd []) () (Left [] []) := by
  rintro ⟨number, x⟩ h
  obtain ⟨rfl, h⟩ : number = some fd ∧ x.Built c 0 fd [] := h
  refine ⟨_, close_does, rfl, ?_, fun k => ?_⟩ <;> simp [h.closes, h.block]

theorem closeClient_takes (hc : .client ∈ live) (u : Option ℕ) :
    Takes c (closeClient (some c)) (fun v => Opened c fd live v ∧ v.2.userData = u) ()
      (fun v => Closed c live v ∧ v.2.userData = u) := by
  rintro ⟨number, x⟩ ⟨h, hu⟩
  obtain ⟨rfl, h⟩ : number = some fd ∧ x.Built c 0 fd live := h
  have hx := h.client hc
  refine ⟨_, closeClient_open_does (by simp [h.block, hc]) (by simp [hx]),
    ⟨rfl, ?_, h.block, ?_⟩, hu⟩
  · simp [h.closes]
  · simp [hx]

theorem closeClient_again (hc : .client ∈ live) (u : Option ℕ) :
    Takes c (closeClient (some c)) (fun v => Closed c live v ∧ v.2.userData = u) ()
      (fun v => Closed c live v ∧ v.2.userData = u) := by
  rintro ⟨number, x⟩ ⟨h, hu⟩
  obtain ⟨rfl, h⟩ : number = none ∧ x.Built c 1 (-1) live := h
  have hx := h.client hc
  exact ⟨_, closeClient_closed_does (by simp [h.block, hc]) (by simp [hx]), ⟨rfl, h⟩, hu⟩

/-- `closeClient` on a connection that is served, whether or not it has been closed already. -/
theorem closeClient_served : Takes c (closeClient (some c)) (fun v => Ready c v ∨ HungUp c v) ()
    (HungUp c) := by
  rintro v (⟨⟨fd, h⟩, hu⟩ | ⟨h, hu⟩)
  · exact closeClient_takes (by simp [allKinds]) (some c) v ⟨h, hu⟩
  · exact closeClient_again (by simp [allKinds]) (some c) v ⟨h, hu⟩

/-- `closeAndFreeClient` leaves the job, which it does not know. -/
theorem freeClient_takes (hc : .client ∈ live) : Takes c (freeClient (some c)) (Closed c live) ()
    (Left live (if .job ∈ live then [.job] else [])) := by
  rintro ⟨number, x⟩ h
  obtain ⟨rfl, h⟩ : number = none ∧ x.Built c 1 (-1) live := h
  refine ⟨_, freeClient_does (h.linked hc), rfl, by simp [h.closes], fun k => ?_⟩
  by_cases hk : k ∈ live <;> by_cases hj : k = .job <;> by_cases hl : .job ∈ live <;>
    simp_all [h.block, Block.release]

theorem release_takes :
    Takes c (release .job c) (Left allKinds [.job]) () (Left allKinds []) := by
  rintro ⟨number, x⟩ h
  obtain ⟨rfl, closes, block⟩ : number = none ∧ x.closes = 1 ∧
    ∀ k, x.block k = if k ∈ [Kind.job] then .live else if k ∈ allKinds then .freed else .absent := h
  refine ⟨_, release_does ((block .job).trans rfl), rfl, closes, fun k => ?_⟩
  by_cases hk : k = .job <;> simp [hk, block, allKinds]

/-- A successful allocation. -/
theorem Conn.Built.allocate {x : Conn} {closes : ℕ} {f : ℤ} (h : x.Built c closes f live)
    (kind : Kind) (k : Kind) : Function.update x.block kind .live k =
      if k ∈ live ++ [kind] then Block.live else .absent := by
  by_cases hk : k = kind <;> simp [hk, h.block]

theorem newClient_takes :
    Takes c (newClient c fd) (Opened c fd []) () (Opened c fd [.client]) := by
  rintro ⟨number, x⟩ h
  obtain ⟨rfl, h⟩ : number = some fd ∧ x.Built c 0 fd [] := h
  refine ⟨_, (allocate_does .client).bind (storeClient_does (by simp) _), rfl, h.closes, ?_, ?_⟩
  · exact h.allocate .client
  · simp

/-- One of `evbuffer_new`, `event_base_new` and `bufferevent_new` succeeds. -/
theorem acquire_takes {kind : Kind} {store : Option ℕ → Client → Client} (hc : .client ∈ live)
    (hk : kind ≠ .client)
    (stored : ∀ x : Conn, x.Built c 0 fd live → store (some c) x.client =
      { fd := fd
        evbase := if .evbase ∈ live ++ [kind] then some c else none
        bufEv := if .bufEv ∈ live ++ [kind] then some c else none
        outputBuffer := if .outputBuffer ∈ live ++ [kind] then some c else none }) :
    Takes c (acquire true kind c store) (Opened c fd live) () (Opened c fd (live ++ [kind])) := by
  rintro ⟨number, x⟩ h
  obtain ⟨rfl, h⟩ : number = some fd ∧ x.Built c 0 fd live := h
  have client : Function.update x.block kind .live .client = .live := by
    simp [Ne.symm hk, h.block, hc]
  refine ⟨_, (allocate_does kind).bind ((loadClient_does client).bind
    (storeClient_does client _)), rfl, h.closes, h.allocate kind, fun _ => stored x h⟩

/-- It fails. -/
theorem acquire_fails {kind : Kind} {store : Option ℕ → Client → Client} (hc : .client ∈ live)
    (stored : ∀ x : Conn, x.Built c 0 fd live → store none x.client = x.client) :
    Takes c (acquire false kind c store) (Opened c fd live) () (Opened c fd live) := by
  rintro ⟨number, x⟩ h
  obtain ⟨rfl, h⟩ : number = some fd ∧ x.Built c 0 fd live := h
  have client : x.block .client = .live := by simp [h.block, hc]
  refine ⟨_, (loadClient_does client).bind (storeClient_does client _), rfl, h.closes, h.block,
    fun _ => ?_⟩
  exact (stored x h).trans (h.client hc)

theorem enableClient_takes :
    Takes c (enableClient c) (Opened c fd [.client, .outputBuffer, .evbase, .bufEv]) ()
      (Opened c fd [.client, .outputBuffer, .evbase, .bufEv]) := by
  rintro ⟨number, x⟩ h
  obtain ⟨rfl, h⟩ : number = some fd ∧ x.Built c 0 fd _ := h
  have hx := h.client (by simp)
  have load : Does (connPart c) (loadClient c) (some fd, x) x.client (some fd, x) :=
    loadClient_does (by simp [h.block])
  rw [hx] at load
  refine ⟨_, load.bind ((Does.pure c).bind ((access_does (by simp [h.block])).bind
    (load.bind ((Does.pure c).bind (access_does (by simp [h.block])))))), rfl, h⟩

theorem allocateJob_takes :
    Takes c (allocate .job c) (Opened c fd [.client, .outputBuffer, .evbase, .bufEv]) ()
      (Opened c fd allKinds) := by
  rintro ⟨number, x⟩ h
  obtain ⟨rfl, h⟩ : number = some fd ∧ x.Built c 0 fd _ := h
  exact ⟨_, allocate_does .job, rfl, h.closes, h.allocate .job, fun _ => h.client (by simp)⟩

theorem storeUserData_takes :
    Takes c (storeUserData c (some c)) (Opened c fd allKinds) () (Ready c) := by
  rintro ⟨number, x⟩ h
  obtain ⟨rfl, h⟩ : number = some fd ∧ x.Built c 0 fd _ := h
  exact ⟨_, storeUserData_does (by simp [h.block, allKinds]) _,
    ⟨fd, rfl, h.closes, h.block, h.client⟩, rfl⟩

theorem loadUserData_takes : Takes c (loadUserData c) (Ready c) (some c) (Ready c) := by
  rintro ⟨number, x⟩ ⟨⟨fd, hn, h⟩, hu⟩
  have load : Does (connPart c) (loadUserData c) (number, x) x.userData (number, x) :=
    loadUserData_does (by simpa [allKinds] using h.block .job)
  exact ⟨_, hu ▸ load, ⟨fd, hn, h⟩, hu⟩

/-- The contents of a connection that is served. -/
theorem served_contents (h : Ready c v ∨ HungUp c v) :
    (∀ k, v.2.block k = .live) ∧ v.2.client.evbase = some c ∧ v.2.client.bufEv = some c ∧
      v.2.client.outputBuffer = some c := by
  obtain ⟨closes, fd, h⟩ : ∃ closes fd, v.2.Built c closes fd allKinds := by
    rcases h with ⟨⟨fd, -, h⟩, -⟩ | ⟨⟨-, h⟩, -⟩
    · exact ⟨0, fd, h⟩
    · exact ⟨1, -1, h⟩
  have hx := h.client (by simp [allKinds])
  refine ⟨fun k => ?_, ?_, ?_, ?_⟩
  · rw [h.block]
    cases k <;> rfl
  all_goals simp [hx, allKinds]

theorem enterDispatch_takes : Takes c (enterDispatch (some c)) (Ready c) c (Ready c) := by
  intro v hv
  obtain ⟨block, evbase, -, -⟩ := served_contents (.inl hv)
  have load : Does (connPart c) (loadClient c) v v.2.client v := loadClient_does (block .client)
  refine ⟨v, (Does.pure c).bind (load.bind ?_), hv⟩
  rw [evbase]
  exact (Does.pure c).bind ((access_does (block .evbase)).bind (Does.pure c))

/-- `buffered_on_read` up to its last statement only looks at the connection. -/
theorem onRead_does {written : Bool} {v' : View} (hv : Ready c v ∨ HungUp c v)
    (rest : Does (connPart c) (unless written do closeClient (some c)) v () v') :
    Does (connPart c) (bufferedOnRead c c written) v () v' := by
  obtain ⟨block, -, -, outputBuffer⟩ := served_contents hv
  have load : Does (connPart c) (loadClient c) v v.2.client v := loadClient_does (block .client)
  have follow : Does (connPart c) (deref v.2.client.outputBuffer) v c v := by
    rw [outputBuffer]
    exact .pure c
  exact (access_does (block .bufEv)).bind (load.bind (follow.bind
    ((access_does (block .outputBuffer)).bind ((access_does (block .bufEv)).bind rest))))

/-- A callback that closes the descriptor leaves it closed, and does not close it twice. -/
theorem callback_closes {cb : Callback} (closes : cb.closes = true) :
    Takes c (cb.body c) (fun v => Ready c v ∨ HungUp c v) () (HungUp c) := by
  intro v hv
  obtain ⟨closed, close, hclosed⟩ := closeClient_served v hv
  cases cb with
  | onError => exact ⟨closed, close, hclosed⟩
  | onRead written =>
    obtain rfl : written = false := by simpa [Callback.closes] using closes
    exact ⟨closed, onRead_does hv close, hclosed⟩

/-- The other callbacks leave the connection as it is. -/
theorem callback_keeps {cb : Callback} (keeps : cb.closes = false) (hv : Ready c v ∨ HungUp c v) :
    Does (connPart c) (cb.body c) v () v := by
  cases cb with
  | onError => simp [Callback.closes] at keeps
  | onRead written =>
    obtain rfl : written = true := by simpa [Callback.closes] using keeps
    exact onRead_does hv (Does.pure ())

/-- Neither callback faults, in whatever order and however often they come. -/
theorem callback_takes (cb : Callback) : Takes c (cb.body c) (fun v => Ready c v ∨ HungUp c v) ()
    (fun v => Ready c v ∨ HungUp c v) := by
  intro v hv
  cases closes : cb.closes with
  | false => exact ⟨v, callback_keeps closes hv, hv⟩
  | true =>
    obtain ⟨v', does, hv'⟩ := callback_closes closes v hv
    exact ⟨v', does, .inr hv'⟩

/-- Using the blocks of jobs that are all in use. -/
theorem accessJobs_run {js : List ℕ} {m : Mem} (h : ∀ j ∈ js, (m.conn j).block .job = .live) :
    ∃ touched, (accessJobs js).run m = .ok ((), { m with touched := touched }) ∧
      ∀ x ∈ touched, x ∈ m.touched ∨ x.2 ∈ js := by
  induction js generalizing m with
  | nil => exact ⟨m.touched, rfl, fun _ => .inl⟩
  | cons j js ih =>
    have head : (access .job j).run m = .ok ((), m.touch .job j) := by
      simp [access, h j]
      rfl
    obtain ⟨touched, run, from_js⟩ := ih (m := m.touch .job j)
      fun i hi => h i (List.mem_cons_of_mem _ hi)
    refine ⟨touched, ?_, fun x hx => ?_⟩
    · rw [accessJobs, StateT.run_bind, head]
      exact run
    · rcases from_js x hx with old | new
      · rcases List.mem_cons.mp old with rfl | old
        · exact .inr List.mem_cons_self
        · exact .inl old
      · exact .inr (List.mem_cons_of_mem _ new)

end JiaTuanServer.Server

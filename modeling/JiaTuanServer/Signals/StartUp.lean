import JiaTuanServer.Signals.Threads

/-!
# Signals during start-up

The handler acts on `evbase_accept` and on the list of workers, which `runServer` is still building
when the handler can already run. A request that comes once both are there is kept: `Orderly`
follows the list of workers, the traversals of the handlers and the scheduled exit through a run
in which every signal comes late enough.
-/

namespace JiaTuanServer.Signals

open Transition Machine Workqueue

variable {n : ℕ} {J : Type}

/-- `workqueue_init` has not been called. -/
def ServerPc.early : ServerPc n → Bool
  | .listen | .eventBaseNew | .testBase | .memset => true
  | _ => false

/-- `runServer` has an event base and has not left its accept loop. -/
def ServerPc.hasBase : ServerPc n → Bool
  | .memset | .workqueueInit | .eventAdd | .dispatch => true
  | _ => false

/-- `runServer` does not get to its accept loop any more. -/
def ServerPc.finished : ServerPc n → Bool
  | .workqueueShutdown _ | .eventBaseFree | .clearBase | .returned | .exited => true
  | _ => false

namespace State

/-- There is nothing left to build that a handler acts on: the last worker is on the list, or
`runServer` has given up. -/
def Built (s : State n J) : Prop :=
  s.server = .workqueueInit ∧ (∃ i, n ≤ i ∧ s.queue.init = .create i) ∨
  s.queue.init.isReturned = true ∨ s.server = .testBase ∧ s.evbaseAccept = false ∨
  s.server = .returned ∨ s.server = .exited

/-- The accept loop is not entered, or ends. -/
def Leaving (s : State n J) : Prop :=
  s.exitScheduled = true ∨ s.server.finished = true ∨ s.server = .testBase ∧ s.evbaseAccept = false

/-- The accept loop does not run without a scheduled exit, and once `workqueue_init` has returned
every worker is told to stop. -/
def Stops (s : State n J) : Prop :=
  ¬ (s.server = .dispatch ∧ s.exitScheduled = false) ∧
  (s.queue.init.isReturned = true → ∀ w, s.queue.pc w ≠ .notStarted → s.queue.terminate w = true)

end State

/-- The step keeps a request to stop: a signal comes only when everything is built, the exit of the
loop can be scheduled, and a traversal of the workers reads no freed one. -/
structure State.KeepsRequest (s : State n J) (a : Action n J) : Prop where
  late : ∀ t signal, a = .deliver t signal → s.Built
  scheduled : ∀ t junk signal below, a = .handler t false junk →
    s.handlers t = ⟨signal, .loopexit⟩ :: below → s.evbaseAccept = false
  handlerReads : ∀ t ok junk signal w below, a = .handler t ok junk →
    s.handlers t = ⟨signal, .shutdown (.readNext w)⟩ :: below → s.queue.freed w = false
  serverReads : ∀ ok junk w, a = .server ok junk →
    s.server = .workqueueShutdown (.readNext w) → s.queue.freed w = false

/-- The list of `k` workers, until a shutdown that has flagged all of them clears it. -/
structure Listed (q : Workqueue.State n Unit J) (k : ℕ) : Prop where
  links : ∀ w : Fin n, w.val < k → q.workerLinks.next w = newest w.val
  head : q.workers = newest k ∨ q.workers = none ∧ ∀ w : Fin n, w.val < k → q.terminate w = true

/-- What a `workqueue_shutdown` at `pc` has flagged. -/
structure Told (q : Workqueue.State n Unit J) (k : ℕ) (pc : ShutdownPc n) : Prop where
  flags : ∀ w : Fin n, w.val < k → pc.flagged w → q.terminate w = true
  cursor : ∀ w, pc = .setTerminate w ∨ pc = .readNext w → w.val < k

variable {q v : Workqueue.State n Unit J} {s u : State n J} {k : ℕ}

/-- A traversal that starts at a node of the list, or at its head. -/
theorem Told.traverse {i : ℕ} (hi : i ≤ n) (hk : i ≤ k)
    (flags : ∀ w : Fin n, w.val < k → i ≤ w.val → q.terminate w = true) :
    Told q k (.traverse (newest i)) where
  flags w hw visited := flags w hw ((flagged_traverse hi w).mp visited)
  cursor w hw := by
    cases i with
    | zero => simp [newest, ShutdownPc.traverse] at hw
    | succ i =>
      have lt : i < n := by omega
      simp only [newest, lt, dite_true, ShutdownPc.traverse, ShutdownPc.setTerminate.injEq,
        reduceCtorEq, or_false] at hw
      subst hw
      exact hk

theorem Listed.traverse (h : Listed q k) (bound : k ≤ n) :
    Told q k (.traverse q.workers) := by
  rcases h.head with head | ⟨head, flags⟩
  · rw [head]
    exact .traverse bound le_rfl fun w hw hk => absurd hw (by omega)
  · rw [head]
    exact ⟨fun w hw _ => flags w hw, by simp [ShutdownPc.traverse]⟩

/-- Flags are never taken back. -/
theorem Told.mono {pc : ShutdownPc n} (h : Told q k pc)
    (flags : ∀ w, q.terminate w = true → v.terminate w = true) : Told v k pc :=
  ⟨fun w hw visited => flags w (h.flags w hw visited), h.cursor⟩

theorem Listed.same (h : Listed q k) (links : v.workerLinks = q.workerLinks)
    (workers : v.workers = q.workers)
    (flags : ∀ w, q.terminate w = true → v.terminate w = true) : Listed v k where
  links w hw := links ▸ h.links w hw
  head := by
    rw [workers]
    exact h.head.imp_right fun ⟨empty, all⟩ => ⟨empty, fun w hw => flags w (all w hw)⟩

theorem ShutdownOn.terminate {t : Thread n} {pc pc' : ShutdownPc n}
    (st : ShutdownOn q t pc v pc') (w : Fin n) (flag : q.terminate w = true) :
    v.terminate w = true := by
  cases st with
  | setTerminate x => by_cases hw : w = x <;> simp [hw, flag]
  | _ => exact flag

theorem ShutdownOn.init {t : Thread n} {pc pc' : ShutdownPc n} (st : ShutdownOn q t pc v pc') :
    v.init = q.init := by cases st <;> rfl

/-- A step of `workqueue_shutdown` on a list it reads from live workers. -/
theorem ShutdownOn.told {t : Thread n} {pc pc' : ShutdownPc n} (st : ShutdownOn q t pc v pc')
    (listed : Listed q k) (told : Told q k pc)
    (live : ∀ w, pc = .readNext w → q.freed w = false) : Listed v k ∧ Told v k pc' := by
  have grow := st.terminate
  cases st with
  | setTerminate x =>
    refine ⟨listed.same rfl rfl grow, fun w hw visited => ?_, by simpa using told.cursor x⟩
    by_cases hwx : w = x
    · subst hwx; simp
    · have later : x < w := lt_of_le_of_ne visited (Ne.symm hwx)
      exact grow w (told.flags w hw later)
  | readNext x alive =>
    have hx : x.val < k := told.cursor x (.inr rfl)
    refine ⟨listed, ?_⟩
    rw [listed.links x hx]
    exact .traverse x.isLt.le hx.le fun w hw later => told.flags w hw later
  | readFreed x dead junk => simp [live x rfl] at dead
  | clearWorkers =>
    have all (w : Fin n) (hw : w.val < k) : q.terminate w = true := told.flags w hw trivial
    exact ⟨⟨listed.links, .inr ⟨rfl, all⟩⟩, fun w hw _ => all w hw, by simp⟩
  | _ => exact ⟨listed.same rfl rfl grow, fun w hw _ => grow w (told.flags w hw trivial), by simp⟩

/-- The invariant of a run in which every step keeps a request to stop. -/
structure Orderly (s : State n J) (k : ℕ) : Prop where
  threads : Threads s k
  listed : Listed s.queue k
  growing : ¬ s.Built → s.queue.workers = newest k
  early : s.server.early = true → s.queue.init = .create 0
  settled : s.server ≠ .workqueueInit →
    s.queue.init = .create 0 ∨ s.queue.init.isReturned = true
  base : s.server.hasBase = true → s.evbaseAccept = true
  failed : ∀ pc, s.server = .workqueueShutdown pc → s.queue.init.isReturned = true
  late : ∀ t, s.handlers t ≠ [] → s.Built
  leaving : ∀ t, ∀ frame ∈ s.handlers t, frame.pc ≠ .loopexit → s.Leaving
  told : ∀ t, ∀ frame ∈ s.handlers t, ∀ pc, frame.pc = .shutdown pc → Told s.queue k pc
  serverTold : ∀ pc, s.server = .workqueueShutdown pc → Told s.queue k pc

theorem Orderly.of_initial (h : Initial s) : Orderly s 0 where
  threads := .of_initial h
  listed := ⟨fun w hw => absurd hw (by omega), .inl h.queue.workers⟩
  growing _ := h.queue.workers
  early _ := h.queue.init
  settled _ := .inl h.queue.init
  base hasBase := by simp [h.server, ServerPc.hasBase] at hasBase
  failed pc hpc := by simp [h.server] at hpc
  late t busy := absurd (h.handlers t) busy
  leaving t frame hframe := by simp [h.handlers] at hframe
  told t frame hframe := by simp [h.handlers] at hframe
  serverTold pc hpc := by simp [h.server] at hpc

/-- While everything is built no worker is between its creation and its insertion. -/
theorem Orderly.not_insert (h : Orderly s k) (built : s.Built) (i : ℕ) :
    s.queue.init ≠ .insert i := by
  intro inserting
  have settled : s.server = .workqueueInit := by
    by_contra elsewhere
    rcases h.settled elsewhere with e | e <;> simp [inserting, InitPc.isReturned] at e
  rcases built with ⟨-, j, -, e⟩ | e | ⟨e, -⟩ | e | e <;>
    simp_all [InitPc.isReturned]

theorem Orderly.lt_of_started (h : Orderly s k) (built : s.Built) {w : Fin n}
    (on : s.queue.pc w ≠ .notStarted) : w.val < k :=
  ((h.threads.created.started w).mp on).resolve_right (h.not_insert built w)

/-- What a step that moves no handler does for the handlers there are, all of which came after the
building. -/
structure Passes (s : State n J) (k : ℕ) (u : State n J) (k' : ℕ) : Prop where
  built : u.Built
  leaving : s.Leaving → u.Leaving
  count : k' = k
  flags : ∀ w, s.queue.terminate w = true → u.queue.terminate w = true

/-- A step that moves no handler. -/
theorem Orderly.pass (h : Orderly s k) {k' : ℕ} (handlers : u.handlers = s.handlers)
    (passes : s.Built → Passes s k u k') (threads : Threads u k') (listed : Listed u.queue k')
    (growing : ¬ u.Built → u.queue.workers = newest k')
    (early : u.server.early = true → u.queue.init = .create 0)
    (settled : u.server ≠ .workqueueInit →
      u.queue.init = .create 0 ∨ u.queue.init.isReturned = true)
    (base : u.server.hasBase = true → u.evbaseAccept = true)
    (failed : ∀ pc, u.server = .workqueueShutdown pc → u.queue.init.isReturned = true)
    (serverTold : ∀ pc, u.server = .workqueueShutdown pc → Told u.queue k' pc) : Orderly u k' where
  threads := threads
  listed := listed
  growing := growing
  early := early
  settled := settled
  base := base
  failed := failed
  late t busy := (passes (h.late t (handlers ▸ busy))).built
  leaving t frame hframe past := by
    rw [handlers] at hframe
    have built := h.late t (List.ne_nil_of_mem hframe)
    exact (passes built).leaving (h.leaving t frame hframe past)
  told t frame hframe pc hpc := by
    rw [handlers] at hframe
    have built := h.late t (List.ne_nil_of_mem hframe)
    obtain rfl := (passes built).count
    exact (h.told t frame hframe pc hpc).mono (passes built).flags
  serverTold := serverTold

variable [DecidableEq J]

/-- Apart from `workqueue_init` the queue's threads leave the list of workers alone. -/
theorem list_unchanged {a : Workqueue.Action n Unit J} (st : Workqueue.Step q a v)
    (runs : s.Runs a) : (∃ ok, a = .init ok) ∨ v.workers = q.workers ∧
      v.workerLinks = q.workerLinks ∧ v.terminate = q.terminate ∧ v.init = q.init := by
  cases st with
  | @init ok u st => exact .inl ⟨ok, rfl⟩
  | worker st => cases st <;> exact .inr ⟨rfl, rfl, rfl, rfl⟩
  | caller st => cases st <;> exact .inr ⟨rfl, rfl, rfl, rfl⟩
  | callShutdown => exact runs.elim
  | shutdown st => exact runs.elim
  | _ => exact .inr ⟨rfl, rfl, rfl, rfl⟩

omit [DecidableEq J] in
/-- A step of `workqueue_init`. -/
theorem Orderly.init (h : Orderly s k) {k' : ℕ} (at_init : s.server = .workqueueInit)
    (st : InitStep s.queue v)
    (threads : Threads { s with queue := v } k')
    (same : (∀ i, s.queue.init = .insert i → v.init = .insert i) → k' = k) :
    Orderly { s with queue := v } k' := by
  have base := h.base (by simp [at_init, ServerPc.hasBase])
  have ends (passes : s.Built → Passes s k { s with queue := v } k') (listed : Listed v k')
      (growing : ¬ State.Built { s with queue := v } → v.workers = newest k') :
      Orderly { s with queue := v } k' := by
    refine h.pass rfl passes threads listed growing ?_ ?_ (fun _ => base) ?_ ?_ <;>
      simp [at_init, ServerPc.early]
  cases st with
  | create i at_create =>
    obtain rfl := same (by simp [at_create])
    have unbuilt : ¬ s.Built := by
      rintro (⟨-, j, hj, e⟩ | e | ⟨e, -⟩ | e | e) <;>
        simp [at_create, at_init, InitPc.isReturned] at e
      omega
    exact ends (fun built => absurd built unbuilt) (h.listed.same rfl rfl fun _ => id)
      fun _ => h.growing unbuilt
  | insert i at_insert =>
    have hi : i.val = k := h.threads.created.counted i (by simp [at_insert, InitPc.inserted])
    have hi' : i.val + 1 = k' := threads.created.counted _ (by simp [InitPc.inserted])
    have unbuilt : ¬ s.Built := fun built => h.not_insert built i at_insert
    have head := h.growing unbuilt
    refine ends (fun built => absurd built unbuilt) ⟨fun w hw => ?_, .inl ?_⟩ fun _ => ?_
    · by_cases hwi : w = i
      · subst hwi
        simp [llAdd, head, hi]
      · have other : w.val ≠ i.val := fun e => hwi (Fin.ext e)
        simpa [llAdd, hwi] using h.listed.links w (by omega)
    · rw [← hi', newest_fin]
    · rw [← hi', newest_fin]
  | fail i at_create | done i all at_create =>
    obtain rfl := same (by simp [at_create])
    refine ends (fun _ => ⟨.inr (.inl rfl), id, rfl, fun _ => id⟩)
      (h.listed.same rfl rfl fun _ => id) fun unbuilt => ?_
    exact absurd (.inr (.inl rfl)) unbuilt

/-- A step of the queue's threads. -/
theorem Orderly.queue {a : Workqueue.Action n Unit J} (h : Orderly s k) {k' : ℕ}
    (runs : s.Runs a) (st : Workqueue.Step s.queue a v)
    (threads : Threads { s with queue := v } k')
    (same : (∀ i, s.queue.init = .insert i → v.init = .insert i) → k' = k) :
    Orderly { s with queue := v } k' := by
  rcases list_unchanged st runs with ⟨ok, rfl⟩ | ⟨workers, links, flags, init⟩
  · obtain ⟨at_init, -⟩ : s.server = .workqueueInit ∧ s.handlers .accept = [] := runs
    cases st with
    | init st => exact h.init at_init st threads same
  · obtain rfl := same fun i inserting => init ▸ inserting
    have grow (w : Fin n) (flag : s.queue.terminate w = true) : v.terminate w = true := by
      rwa [flags]
    have built : State.Built { s with queue := v } ↔ s.Built := by simp [State.Built, init]
    refine h.pass rfl (fun b => ⟨built.mpr b, id, rfl, grow⟩) threads
      (h.listed.same links workers grow) (fun unbuilt => ?_)
      (fun early => init.trans (h.early early)) (fun elsewhere => ?_) h.base
      (fun pc hpc => ?_) fun pc hpc => (h.serverTold pc hpc).mono grow
    · exact workers.trans (h.growing (built.not.mp unbuilt))
    · simpa [init] using h.settled elsewhere
    · simpa [init] using h.failed pc hpc

omit [DecidableEq J] in
/-- A step of `runServer` that leaves the queue alone. -/
theorem Orderly.move (h : Orderly s k) (threads : Threads u k)
    (queue : u.queue = s.queue) (handlers : u.handlers = s.handlers) (built : s.Built → u.Built)
    (leaving : s.Leaving → u.Leaving)
    (early : u.server.early = true → s.server.early = true)
    (settled : s.server = .workqueueInit → s.queue.init.isReturned = true)
    (base : u.server.hasBase = true → u.evbaseAccept = true)
    (other : ∀ pc, u.server ≠ .workqueueShutdown pc) : Orderly u k := by
  refine h.pass handlers (fun b => ⟨built b, leaving, rfl, fun w flag => queue ▸ flag⟩) threads
    (queue ▸ h.listed) (fun unbuilt => ?_) (fun e => ?_) (fun _ => ?_) base
    (fun pc hpc => absurd hpc (other pc)) fun pc hpc => absurd hpc (other pc)
  · rw [queue]
    exact h.growing fun b => unbuilt (built b)
  · rw [queue]
    exact h.early (early e)
  · rw [queue]
    by_cases at_init : s.server = .workqueueInit
    · exact .inr (settled at_init)
    · exact h.settled at_init

omit [DecidableEq J] in
/-- A step that a run does not take back. -/
theorem State.Leaving.server (h : s.Leaving) (st : ServerStep s u) : u.Leaving := by
  cases st with
  | listen pc at_listen next =>
    rcases next with rfl | rfl <;> simp_all [State.Leaving, ServerPc.finished]
  | _ => simp_all [State.Leaving, ServerPc.finished]

omit [DecidableEq J] in
/-- A step of `runServer`. -/
theorem Orderly.server (h : Orderly s k) (st : ServerStep s u) (threads : Threads u k)
    (live : ∀ w, s.server = .workqueueShutdown (.readNext w) → s.queue.freed w = false) :
    Orderly u k := by
  have leaves : s.Leaving → u.Leaving := fun leaving => leaving.server st
  have none_of_early (e : s.server.early = true) : k = 0 :=
    (h.threads.created.counted 0 (by simp [h.early e, InitPc.inserted])).symm
  cases st with
  | memset at_memset =>
    have zero := none_of_early (by simp [at_memset, ServerPc.early])
    subst zero
    have base := h.base (by simp [at_memset, ServerPc.hasBase])
    have unbuilt : ¬ s.Built := by
      have fresh := h.early (by simp [at_memset, ServerPc.early])
      simp [State.Built, at_memset, fresh, InitPc.isReturned]
    refine h.pass rfl (fun built => absurd built unbuilt) threads
      ⟨fun w hw => absurd hw (by omega), .inl rfl⟩ (fun _ => rfl) ?_ ?_ (fun _ => base) ?_ ?_ <;>
      simp [ServerPc.early]
  | shutdown pc pc' v at_shutdown st =>
    have returned := h.failed pc at_shutdown
    obtain ⟨listed, told⟩ := st.told h.listed (h.serverTold pc at_shutdown)
      fun w hw => live w (hw ▸ at_shutdown)
    have init := st.init
    have built' : State.Built { s with queue := v, server := .workqueueShutdown pc' } :=
      .inr (.inl (init ▸ returned))
    refine h.pass rfl (fun _ => ⟨built', leaves, rfl, st.terminate⟩) threads listed
      (fun unbuilt => ?_) ?_ (fun _ => ?_) ?_ (fun _ _ => init ▸ returned) fun pc hpc => ?_
    · exact absurd built' unbuilt
    · simp [ServerPc.early]
    · exact .inr (init ▸ returned)
    · simp [ServerPc.hasBase]
    · obtain rfl : pc' = pc := by simpa using hpc
      exact told
  | failed status at_init done =>
    have returned : s.queue.init.isReturned = true := by simp [done, InitPc.isReturned]
    refine h.pass rfl (fun _ => ⟨.inr (.inl returned), leaves, rfl, fun _ => id⟩) threads h.listed
      (fun unbuilt => ?_) ?_ (fun _ => .inr returned) ?_ (fun _ _ => returned) fun pc hpc => ?_
    · exact absurd (.inr (.inl returned)) unbuilt
    · simp [ServerPc.early]
    · simp [ServerPc.hasBase]
    · obtain rfl : ShutdownPc.traverse s.queue.workers = pc := by simpa using hpc
      exact h.listed.traverse h.threads.created.bound
  | listen pc at_listen next =>
    refine h.move threads rfl rfl ?_ leaves ?_ ?_ ?_ ?_ <;>
      rcases next with rfl | rfl <;>
      simp_all [State.Built, ServerPc.early, ServerPc.hasBase]
  | ready at_init done =>
    have base := h.base (by simp [at_init, ServerPc.hasBase])
    refine h.move threads rfl rfl ?_ leaves ?_ ?_ ?_ ?_ <;>
      simp_all [State.Built, ServerPc.early, ServerPc.hasBase, InitPc.isReturned]
  | eventAdd at_add =>
    have base := h.base (by simp [at_add, ServerPc.hasBase])
    refine h.move threads rfl rfl ?_ leaves ?_ ?_ ?_ ?_ <;>
      simp_all [State.Built, ServerPc.early, ServerPc.hasBase]
  | _ =>
    refine h.move threads rfl rfl ?_ leaves ?_ ?_ ?_ ?_ <;>
      simp_all [State.Built, ServerPc.early, ServerPc.hasBase]

omit [DecidableEq J] in
/-- A handler that has scheduled the exit, or has come too late to do so. -/
theorem Orderly.leaving_of_loopexit (h : Orderly s k) (built : s.Built) {ok : Bool}
    (scheduled : ok = false → s.evbaseAccept = false) :
    (s.exitScheduled || (s.evbaseAccept && ok)) = true ∨ s.server.finished = true ∨
      s.server = .testBase ∧ s.evbaseAccept = false := by
  cases hbase : s.evbaseAccept with
  | true => cases ok <;> simp_all
  | false =>
    refine .inr ?_
    have noBase : s.server.hasBase = false := by
      by_contra has
      simp [h.base (by simpa using has)] at hbase
    rcases built with ⟨e, -⟩ | returned | ⟨e, -⟩ | e | e
    · simp [e, ServerPc.hasBase] at noBase
    · have late : s.server.early = false := by
        by_contra e
        simp [h.early (by simpa using e), InitPc.isReturned] at returned
      cases hs : s.server <;> simp_all [ServerPc.early, ServerPc.hasBase, ServerPc.finished]
    · exact .inr ⟨e, rfl⟩
    · exact .inl (by simp [e, ServerPc.finished])
    · exact .inl (by simp [e, ServerPc.finished])

omit [DecidableEq J] in
/-- The handlers of one thread move on while everything is built. -/
theorem Orderly.handled (h : Orderly s k) (built : s.Built) (threads : Threads u k)
    {t : Thread n} {fs : List (Frame n)} (handlers : u.handlers = Function.update s.handlers t fs)
    (server : u.server = s.server) (base : u.evbaseAccept = s.evbaseAccept)
    (init : u.queue.init = s.queue.init) (listed : Listed u.queue k)
    (grow : ∀ w, s.queue.terminate w = true → u.queue.terminate w = true)
    (leaves : s.Leaving → u.Leaving) (leaving : ∀ frame ∈ fs, frame.pc ≠ .loopexit → u.Leaving)
    (told : ∀ frame ∈ fs, ∀ pc, frame.pc = .shutdown pc → Told u.queue k pc) : Orderly u k := by
  have built' : u.Built := by simpa [State.Built, server, base, init] using built
  exact {
    threads := threads
    listed := listed
    growing := fun unbuilt => absurd built' unbuilt
    early := fun e => init.trans (h.early (server ▸ e))
    settled := fun e => by simpa [init] using h.settled (server ▸ e)
    base := fun e => base.trans (h.base (server ▸ e))
    failed := fun pc e => by simpa [init] using h.failed pc (server ▸ e)
    late := fun _ _ => built'
    leaving := fun t' frame hframe past => by
      by_cases ht : t' = t
      · subst ht
        exact leaving frame (by simpa [handlers] using hframe) past
      · exact leaves (h.leaving t' frame (by simpa [handlers, ht] using hframe) past)
    told := fun t' frame hframe pc hpc => by
      by_cases ht : t' = t
      · subst ht
        exact told frame (by simpa [handlers] using hframe) pc hpc
      · exact (h.told t' frame (by simpa [handlers, ht] using hframe) pc hpc).mono grow
    serverTold := fun pc e => (h.serverTold pc (server ▸ e)).mono grow }

omit [DecidableEq J] in
theorem State.Leaving.handler {t : Thread n} {ok : Bool} (h : s.Leaving)
    (st : HandlerStep s t ok u) : u.Leaving := by
  cases st with
  | loopexit signal below top => exact h.imp_left fun exits => by simp [exits]
  | _ => exact h

omit [DecidableEq J] in
/-- A step of a handler. -/
theorem Orderly.handler {t : Thread n} {ok : Bool} (h : Orderly s k) (st : HandlerStep s t ok u)
    (threads : Threads u k)
    (scheduled : ∀ signal below, ok = false → s.handlers t = ⟨signal, .loopexit⟩ :: below →
      s.evbaseAccept = false)
    (live : ∀ signal w below, s.handlers t = ⟨signal, .shutdown (.readNext w)⟩ :: below →
      s.queue.freed w = false) : Orderly u k := by
  have busy {frame : Frame n} {below : List (Frame n)}
      (top : s.handlers t = frame :: below) : s.Built := h.late t (by simp [top])
  have leaves : s.Leaving → u.Leaving := fun leaving => leaving.handler st
  cases st with
  | loopexit signal below top =>
    have leaves' := h.leaving_of_loopexit (busy top) fun fails => scheduled signal below fails top
    refine h.handled (busy top) threads rfl rfl rfl rfl h.listed (fun _ => id) leaves
      (fun _ _ _ => leaves') fun frame hframe pc hpc => ?_
    rcases List.mem_cons.mp hframe with rfl | hframe
    · cases hpc
    · exact h.told t frame (by simp [top, hframe]) pc hpc
  | callShutdown signal below top =>
    refine h.handled (busy top) threads rfl rfl rfl rfl h.listed (fun _ => id) leaves
      (fun frame hframe past => ?_) fun frame hframe pc hpc => ?_
    · rcases List.mem_cons.mp hframe with rfl | hframe
      · exact h.leaving t ⟨signal, .callShutdown⟩ (by simp [top]) (by simp)
      · exact h.leaving t frame (by simp [top, hframe]) past
    · rcases List.mem_cons.mp hframe with rfl | hframe
      · obtain rfl : ShutdownPc.traverse s.queue.workers = pc := by simpa using hpc
        exact h.listed.traverse h.threads.created.bound
      · exact h.told t frame (by simp [top, hframe]) pc hpc
  | shutdown signal below pc pc' v top st =>
    have newest : (⟨signal, .shutdown pc⟩ : Frame n) ∈ s.handlers t := by simp [top]
    obtain ⟨listed, told⟩ := st.told h.listed (h.told t _ newest pc rfl)
      fun w hw => live signal w below (hw ▸ top)
    refine h.handled (busy top) threads rfl rfl rfl st.init listed st.terminate leaves
      (fun frame hframe past => ?_) fun frame hframe pc₁ hpc => ?_
    · rcases List.mem_cons.mp hframe with rfl | hframe
      · exact h.leaving t _ newest (by simp)
      · exact h.leaving t frame (by simp [top, hframe]) past
    · rcases List.mem_cons.mp hframe with rfl | hframe
      · obtain rfl : pc' = pc₁ := by simpa using hpc
        exact told
      · exact (h.told t frame (by simp [top, hframe]) pc₁ hpc).mono st.terminate
  | done signal below top =>
    refine h.handled (busy top) threads rfl rfl rfl rfl h.listed (fun _ => id) leaves
      (fun frame hframe => ?_) fun frame hframe => ?_
    · exact h.leaving t frame (by simp [top, hframe])
    · exact h.told t frame (by simp [top, hframe])

omit [DecidableEq J] in
theorem ServerStep.init (st : ServerStep s u) : u.queue.init = s.queue.init := by
  cases st with
  | shutdown pc pc' v at_shutdown st => exact st.init
  | _ => rfl

omit [DecidableEq J] in
theorem HandlerStep.init {t : Thread n} {ok : Bool} (st : HandlerStep s t ok u) :
    u.queue.init = s.queue.init := by
  cases st with
  | shutdown signal below pc pc' v top st => exact st.init
  | _ => rfl

/-- Every step of the program. -/
theorem Step.orderly {a : Action n J} (st : Step s a u) (h : Orderly s k)
    (keeps : s.KeepsRequest a) : ∃ k', Orderly u k' ∧ (s.Built → k' = k) := by
  obtain ⟨k', threads, same⟩ := st.threads h.threads
  cases st with
  | queue runs st =>
    refine ⟨k', h.queue runs st threads same, fun built => same fun i inserting => ?_⟩
    exact absurd inserting (h.not_insert built i)
  | server calm st =>
    obtain rfl := same fun i inserting => st.init.trans inserting
    exact ⟨k', h.server st threads fun w hw => keeps.serverReads _ _ w rfl hw, fun _ => rfl⟩
  | @deliver t signal alive unblocked =>
    obtain rfl := same fun i inserting => inserting
    refine ⟨k', h.handled (keeps.late t signal rfl) threads rfl rfl rfl rfl h.listed (fun _ => id)
      id (fun frame hframe past => ?_) (fun frame hframe pc hpc => ?_), fun _ => rfl⟩
    · rcases List.mem_cons.mp hframe with rfl | hframe
      · exact absurd rfl past
      · exact h.leaving t frame hframe past
    · rcases List.mem_cons.mp hframe with rfl | hframe
      · cases hpc
      · exact h.told t frame hframe pc hpc
  | @handler t ok junk u st =>
    obtain rfl := same fun i inserting => st.init.trans inserting
    refine ⟨k', h.handler st threads (fun signal below fails top => ?_)
      (fun signal w below => ?_), fun _ => rfl⟩
    · subst fails
      exact keeps.scheduled t _ signal below rfl top
    · exact keeps.handlerReads t ok junk signal w below rfl

/-- What is built stays built. -/
theorem Step.built {a : Action n J} (st : Step s a u) (h : s.Built) : u.Built := by
  cases st with
  | @queue a v runs st =>
    rcases list_unchanged st runs with ⟨ok, rfl⟩ | ⟨-, -, -, init⟩
    · obtain ⟨at_init, -⟩ : s.server = .workqueueInit ∧ s.handlers .accept = [] := runs
      have past : (∃ i, n ≤ i ∧ s.queue.init = .create i) ∨ s.queue.init.isReturned = true := by
        simpa [State.Built, at_init] using h
      cases st with
      | init st =>
        cases st with
        | done i all at_create => exact .inr (.inl rfl)
        | create i at_create | fail i at_create =>
          rcases past with ⟨j, hj, e⟩ | e
          · simp only [at_create, InitPc.create.injEq] at e
            omega
          · simp [at_create, InitPc.isReturned] at e
        | insert i at_insert => simp [at_insert, InitPc.isReturned] at past
    · simpa [State.Built, init] using h
  | server calm st =>
    have init := st.init
    cases st with
    | listen pc at_listen next =>
      rcases next with rfl | rfl <;> simp_all [State.Built]
    | _ => simp_all [State.Built, InitPc.isReturned]
  | deliver alive unblocked => exact h
  | handler st =>
    have init := st.init
    cases st <;> simp_all [State.Built, State.setHandlers]

/-- A run that is to leave its accept loop does not forget it. -/
theorem Step.leaving {a : Action n J} (st : Step s a u) (h : s.Leaving) : u.Leaving := by
  cases st with
  | queue runs st => exact h
  | server calm st => exact h.server st
  | deliver alive unblocked => exact h
  | handler st => exact h.handler st

/-- No flag is taken back. -/
theorem Step.terminate {a : Action n J} (st : Step s a u) (w : Fin n)
    (flag : s.queue.terminate w = true) : u.queue.terminate w = true := by
  cases st with
  | @queue a v runs st =>
    rcases list_unchanged st runs with ⟨ok, rfl⟩ | ⟨-, -, flags, -⟩
    · cases st with
      | init st => cases st <;> exact flag
    · exact flags ▸ flag
  | server calm st =>
    cases st with
    | shutdown pc pc' v at_shutdown st => exact st.terminate w flag
    | _ => exact flag
  | deliver alive unblocked => exact flag
  | handler st =>
    cases st with
    | shutdown signal below pc pc' v top st => exact st.terminate w flag
    | _ => exact flag

/-- A handler has returned. -/
structure Asked (s : State n J) (k : ℕ) : Prop where
  orderly : Orderly s k
  built : s.Built
  leaving : s.Leaving
  flags : ∀ w : Fin n, w.val < k → s.queue.terminate w = true

omit [DecidableEq J] in
theorem Asked.stops (h : Asked s k) : s.Stops := by
  constructor
  · rintro ⟨serving, quiet⟩
    simpa [State.Leaving, serving, quiet, ServerPc.finished] using h.leaving
  · exact fun _ w on => h.flags w (h.orderly.lt_of_started h.built on)

theorem Step.asked {a : Action n J} (st : Step s a u) (h : Asked s k)
    (keeps : s.KeepsRequest a) : Asked u k := by
  obtain ⟨k', orderly, same⟩ := st.orderly h.orderly keeps
  obtain rfl := same h.built
  exact ⟨orderly, st.built h.built, st.leaving h.leaving, fun w hw => st.terminate w (h.flags w hw)⟩

omit [DecidableEq J] in
/-- The last step of a handler. -/
theorem Orderly.asked (h : Orderly s k) {t : Thread n} {signal : Signal} {below : List (Frame n)}
    (top : s.handlers t = ⟨signal, .shutdown .returned⟩ :: below) : Asked s k where
  orderly := h
  built := h.late t (by simp [top])
  leaving := h.leaving t ⟨signal, .shutdown .returned⟩ (by simp [top]) (by simp)
  flags w hw := (h.told t ⟨signal, .shutdown .returned⟩ (by simp [top]) _ rfl).flags w hw trivial

/-- Once a handler has returned, on the main thread or on a worker, in a run in which every signal
came when all was built: the accept loop does not run without a scheduled exit, and once
`workqueue_init` has returned every worker is told to stop. -/
theorem shutdown_request_kept {s₀ t : State n J} {p r : List (State n J × Action n J)}
    {th : Thread n} {ok : Bool} {junk : Option (Fin n)} {signal : Signal} {below : List (Frame n)}
    (initial : Initial s₀) (run : (machine n J).Run s₀ (p ++ (t, .handler th ok junk) :: r) s)
    (returns : t.handlers th = ⟨signal, .shutdown .returned⟩ :: below)
    (keeps : Along State.KeepsRequest (p ++ (t, .handler th ok junk) :: r)) :
    ∀ v ∈ visited r s, v.Stops := by
  rw [along_append] at keeps
  obtain ⟨before, v, taken, after⟩ := run.at_step
  obtain ⟨k, orderly⟩ : ∃ k, Orderly t k := by
    refine before.invariant (I := fun s => ∃ k, Orderly s k) keeps.1 ⟨0, .of_initial initial⟩ ?_
    rintro s a u ⟨k, h⟩ keeps taken
    obtain ⟨k', h', -⟩ := (step_cases taken).orderly h keeps
    exact ⟨k', h'⟩
  have st : Step t (.handler th ok junk) v := step_cases taken
  have asked : Asked v k := st.asked (orderly.asked returns) (keeps.2 _ List.mem_cons_self)
  intro w hw
  obtain ⟨r', hp, run'⟩ := after.prefix_of_visited hw
  have later : Along State.KeepsRequest r' :=
    fun x hx => keeps.2 x (List.mem_cons_of_mem _ (hp.subset hx))
  have kept : Asked w k := by
    refine run'.invariant (I := fun s => Asked s k) later asked ?_
    rintro s a u h keeps taken
    exact (step_cases taken).asked h keeps
  exact kept.stops

/-- A test that settles `KeepsRequest` on a run whose start-up succeeds before any signal. -/
def keepsRequestTest (s : State n J) : Action n J → Bool
  | .deliver _ _ => s.queue.init.isReturned
  | .handler t ok _ => ok && match s.handlers t with
    | ⟨_, .shutdown (.readNext w)⟩ :: _ => !s.queue.freed w
    | _ => true
  | .server _ _ => match s.server with
    | .workqueueShutdown _ => false
    | _ => true
  | .queue _ => true

omit [DecidableEq J] in
theorem keepsRequest_of_test (s : State n J) (a : Action n J) (h : keepsRequestTest s a = true) :
    s.KeepsRequest a where
  late := by
    rintro t signal rfl
    exact .inr (.inl h)
  scheduled := by
    rintro t junk signal below rfl -
    simp [keepsRequestTest] at h
  handlerReads := by
    rintro t ok junk signal w below rfl top
    simp only [keepsRequestTest, top, Bool.and_eq_true, Bool.not_eq_true'] at h
    exact h.2
  serverReads := by
    rintro ok junk w rfl at_read
    simp [keepsRequestTest, at_read] at h

/-- One worker and a signal in the accept loop; the loop ends and `runServer` returns. -/
theorem shutdown_request_kept_serving :
    ∃ (p r : List (State 1 ℕ × Action 1 ℕ)) (t s : State 1 ℕ),
      (machine 1 ℕ).Run start (p ++ (t, .handler .accept true none) :: r) s ∧
      t.handlers .accept = [⟨.sigint, .shutdown .returned⟩] ∧ t.server = .dispatch ∧
      s.server = .returned ∧ ∀ v ∈ visited r s, v.Stops := by
  let first : List (Action 1 ℕ) := List.flatten [
    List.replicate 4 (.server true none), List.replicate 3 (.queue (.init true)),
    List.replicate 2 (.server true none), [.deliver .accept .sigint],
    List.replicate 9 (.handler .accept true none)]
  let second : List (Action 1 ℕ) :=
    .handler .accept true none :: List.replicate 3 (.server true none)
  have ends : ((machine 1 ℕ).exec start first).map (fun t => (t.handlers .accept, t.server)) =
      some ([⟨.sigint, .shutdown .returned⟩], .dispatch) := by decide +kernel
  obtain ⟨t, ht, h⟩ := Option.map_eq_some_iff.mp ends
  obtain ⟨returns, serving⟩ := Prod.mk.inj h
  have ends' : (((machine 1 ℕ).exec start first).bind fun t =>
      ((machine 1 ℕ).exec t second).map (·.server)) = some .returned := by decide +kernel
  rw [ht, Option.bind_some] at ends'
  obtain ⟨s, hs, ended⟩ := Option.map_eq_some_iff.mp ends'
  have run := (run_of_exec ht).append (run_of_exec hs)
  have test : ((machine 1 ℕ).exec start first).map
      (fun t => (machine 1 ℕ).check keepsRequestTest t second) = some true := by decide +kernel
  rw [ht] at test
  have begins : Along State.KeepsRequest ((machine 1 ℕ).trace start first) :=
    along_of_check keepsRequest_of_test (by decide +kernel)
  have keeps := (along_append _ _ _).mpr
    ⟨begins, along_of_check keepsRequest_of_test (Option.some.inj test)⟩
  exact ⟨_, _, t, s, run, returns, serving, ended,
    shutdown_request_kept start_initial run returns keeps⟩

/-- A signal before `evbase_accept` exists: the accept loop then runs without an exit, and the
worker that was not yet created is never told to stop. -/
theorem shutdown_request_lost :
    ∃ (p r : List (State 1 ℕ × Action 1 ℕ)) (t s : State 1 ℕ),
      (machine 1 ℕ).Run start (p ++ (t, .handler .accept true none) :: r) s ∧
      t.handlers .accept = [⟨.sigterm, .shutdown .returned⟩] ∧ t.server = .eventBaseNew ∧
      s.server = .dispatch ∧ s.exitScheduled = false ∧ s.queue.init = .returned 0 ∧
      s.queue.pc 0 = .lock ∧ s.queue.terminate 0 = false ∧ ¬ s.Stops := by
  let first : List (Action 1 ℕ) := List.flatten [
    [.server true none, .deliver .accept .sigterm],
    List.replicate 7 (.handler .accept true none)]
  let second : List (Action 1 ℕ) := List.flatten [
    [.handler .accept true none], List.replicate 3 (.server true none),
    List.replicate 3 (.queue (.init true)), List.replicate 2 (.server true none)]
  have ends : ((machine 1 ℕ).exec start first).map (fun t => (t.handlers .accept, t.server)) =
      some ([⟨.sigterm, .shutdown .returned⟩], .eventBaseNew) := by decide +kernel
  obtain ⟨t, ht, h⟩ := Option.map_eq_some_iff.mp ends
  obtain ⟨returns, early⟩ := Prod.mk.inj h
  have ends' : (((machine 1 ℕ).exec start first).bind fun t => ((machine 1 ℕ).exec t second).map
      fun s => (s.server, s.exitScheduled, s.queue.init, s.queue.pc 0, s.queue.terminate 0)) =
        some (.dispatch, false, .returned 0, .lock, false) := by decide +kernel
  rw [ht, Option.bind_some] at ends'
  obtain ⟨s, hs, h⟩ := Option.map_eq_some_iff.mp ends'
  obtain ⟨serving, h⟩ := Prod.mk.inj h
  obtain ⟨quiet, h⟩ := Prod.mk.inj h
  obtain ⟨returned, h⟩ := Prod.mk.inj h
  obtain ⟨on, unflagged⟩ := Prod.mk.inj h
  refine ⟨_, _, t, s, (run_of_exec ht).append (run_of_exec hs), returns, early, serving, quiet,
    returned, on, unflagged, fun stops => stops.1 ⟨serving, quiet⟩⟩

end JiaTuanServer.Signals

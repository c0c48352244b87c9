import JiaTuanServer.Server.Finishing

/-!
# Connections stranded by a shutdown

From the call of `workqueue_shutdown` on only connections in service are sure to be released:
it empties the list of waiting jobs without releasing their clients, the flagged workers leave
without taking what is added later, and nothing keeps `on_accept` from adding it.
-/

namespace JiaTuanServer.Server

open Transition Workqueue Machine

variable {n : ℕ}

/-- The `client_t` of connection `c` has been created and its descriptor is still open. -/
def Mem.IsOpen (m : Mem) (c : ℕ) : Prop :=
  (m.conn c).block .client = .live ∧ ∃ fd, m.descriptors fd = some c

/-- Each open connection has exactly one holder and will be closed and freed, in whatever order the
threads take their steps. -/
def State.StrandsNothing (s : State n) : Prop :=
  ∀ c, s.mem.IsOpen c → (∃! o, s.HeldBy c o) ∧
    (machine n).Inevitable ThreadStep (fun t => t.mem.IsReleased c) s

/-- `workqueue_shutdown` is called while every open connection is in service, and once it has been
called `on_accept` creates no client. -/
def State.StopsIdle (s : State n) : Action n → Prop
  | .queue .callShutdown => ∀ c, s.mem.IsOpen c → s.InService c
  | .onAccept true => ∀ c fd, s.accept = .mallocClient c fd → s.queue.shutdown = .notCalled
  | _ => True

variable {s u : State n} {k k' : ℕ} {l l' : List ℕ} {place place' : ℕ → Option (Owner n)} {c : ℕ}
  {a : Action n}

/-! ## A connection out of service -/

/-- While its calls succeed `on_accept` keeps its connection and does not give it up. -/
theorem onAccept_true (taken : onAcceptStep s true = some u) (sound : u.fault = none) :
    (u.accept.givesUp = some c → s.accept.givesUp = some c) ∧
      (s.accepting = some c → s.accept.givesUp ≠ some c → u.accepting = some c) := by
  have goes {op : Op Unit} {next : AcceptPc}
      (taken : perform s op (fun _ => .acceptGoto next) = some u) :
      u.accept = next ∧ u.queue = s.queue := by
    obtain ⟨x, m, rfl⟩ := perform_done taken sound
    exact ⟨rfl, rfl⟩
  cases hpc : s.accept <;> simp only [onAcceptStep, hpc, if_true] at taken
  case idle => cases taken
  case addJob d =>
    obtain ⟨q, moved, taken⟩ := Option.bind_eq_some_iff.mp taken
    obtain ⟨x, m, rfl⟩ := perform_done taken sound
    cases step_cases moved with
    | call started at_idle =>
      simp [AcceptPc.givesUp, State.accepting, hpc, AcceptPc.conn, beforeAdd]
  case adding d =>
    split at taken
    · rename_i returned
      obtain ⟨after, -⟩ := goes taken
      simp [after, AcceptPc.givesUp, State.accepting, hpc, returned, beforeAdd]
    · cases taken
  all_goals
    obtain ⟨after, same⟩ := goes taken
    simp_all [AcceptPc.givesUp, State.accepting, AcceptPc.conn]

/-- `on_accept` closes its descriptor only when it gives the connection up. -/
theorem AcceptPc.Stage.closes {pc : AcceptPc} {v : View} (h : pc.Stage c v)
    (keeps : pc.givesUp ≠ some c) (conn : pc.conn = some c) : v.2.closes = 0 := by
  have opened {fd : ℕ} {live : List Kind} (hv : Opened c fd live v) : v.2.closes = 0 := hv.2.closes
  cases pc <;> simp only [AcceptPc.Stage] at h
  case enable | mallocJob | setJob => exact h.elim fun _ => opened
  case addJob | adding => exact h.1.elim fun _ => opened
  case closing | freeing => exact absurd conn keeps
  all_goals exact opened h

/-- A connection that is out of service after the call of `workqueue_shutdown` stays so. -/
theorem Reached.outOfService (h : Reached s k l place) (h' : Reached u k' l' place')
    (taken : Server.step s a = some u) (confined : s.Confined u a)
    (called : s.queue.shutdown ≠ .notCalled) (out : ¬ s.InService c)
    (opened : (s.mem.conn c).closes = 0) (good : a ≠ .onAccept false)
    (past : ∀ w, a = .queue (.worker w) → s.queue.pc w = .testTerminate →
      s.queue.terminate w = true) :
    u.queue.shutdown ≠ .notCalled ∧ ¬ u.InService c ∧ (u.mem.conn c).closes = 0 := by
  have onQueue := h'.inv.onQueue taken
  -- the only code that `on_accept` may still run on this connection
  have accepts (ok : Bool) (ha : a = .onAccept ok) : onAcceptStep s true = some u := by
    subst ha
    cases ok with
    | false => exact absurd rfl good
    | true => simpa only [Server.step, h.inv.fault, if_true] using taken
  have keeps : u.accept.givesUp ≠ some c := by
    rcases accept_of_step taken with same | ⟨-, gives⟩ | ⟨ok, ha⟩
    · exact fun gives => out (.inr (.inl (same ▸ gives)))
    · simp [gives]
    · exact fun gives => out (.inr (.inl ((onAccept_true (accepts ok ha) h'.inv.fault).1 gives)))
  refine ⟨?_, ?_, ?_⟩
  · rcases onQueue with same | ⟨b, -, st⟩
    · exact same ▸ called
    · exact called_of_step st called
  · rintro (⟨w, has⟩ | gives | ⟨head, w, at_take⟩)
    · rcases onQueue with same | ⟨b, -, st⟩
      · exact out (.inl ⟨w, same ▸ has⟩)
      · rcases carried_of_step st has with has | ⟨at_take, head⟩
        · exact out (.inl ⟨w, has⟩)
        · exact out (.inr (.inr ⟨head, w, at_take⟩))
    · exact keeps gives
    · rcases onQueue with same | ⟨b, hb, st⟩
      · exact out (.inr (.inr (same ▸ ⟨head, w, at_take⟩)))
      · rcases takeJob_of_step st at_take with ⟨at_take, mine⟩ | ⟨rfl, at_test, clear⟩
        · obtain ⟨-, same⟩ :=
            st.head_of_takeJob h.inv.coherent.owned h.inv.coherent.workers at_take mine
          exact out (.inr (.inr ⟨same ▸ head, w, at_take⟩))
        · have ha : a = .queue (.worker w) := by
            rcases onQueue_cases hb with e | ⟨ok, c, -, e⟩ | ⟨v, -, -, e⟩
            · exact e
            · cases e
            · cases e
          simp [past w ha at_test] at clear
  · have carried {w : Fin n} (held : s.HeldBy c (.worker w)) : False :=
      out (.inl ⟨w, (h.inv.heldBy_iff c (.worker w)).mp held⟩)
    cases a with
    | queue b => exact confined.2.1 ▸ opened
    | accept fd => exact confined.2 ▸ opened
    | job w => exact confined.conn c carried ▸ opened
    | callback w cb => exact confined.conn c carried ▸ opened
    | onAccept ok =>
      by_cases mine : s.HeldBy c .accept
      · have accepting : s.accepting = some c := (h.inv.heldBy_iff c .accept).mp mine
        have still : u.accepting = some c :=
          (onAccept_true (accepts ok rfl) h'.inv.fault).2 accepting fun e => out (.inr (.inl e))
        have account := h'.inv.account c
        rw [(h'.inv.holds c .accept).mp still] at account
        obtain ⟨v, ⟨conn, -⟩, stage⟩ := account
        rw [conn]
        refine stage.closes keeps ?_
        cases hpc : u.accept <;> simp_all [State.accepting, AcceptPc.conn]
      · exact confined.conn c mine ▸ opened

/-- `on_accept` goes on in some way or other. -/
theorem onAccept_enabled {ok : Bool} (taken : onAcceptStep s ok = some u) :
    ∃ v, onAcceptStep s true = some v := by
  cases hpc : s.accept <;> simp only [onAcceptStep, hpc, if_true] at taken ⊢
  case idle => cases taken
  case addJob => exact ⟨u, taken⟩
  case adding =>
    split at taken
    · rename_i returned
      rw [if_pos returned]
      exact perform_some _ _ _
    · cases taken
  all_goals exact perform_some _ _ _

/-- The threads may go on so that a connection out of service is never released: first
`workqueue_shutdown` sets all flags, and then `on_accept` goes on without a failure. -/
theorem Reached.avoids (h : Reached s k l place) (lt : c < s.mem.accepted)
    (called : s.queue.shutdown ≠ .notCalled) (out : ¬ s.InService c)
    (opened : (s.mem.conn c).closes = 0) :
    ¬ (machine n).Inevitable ThreadStep (fun t => t.mem.IsReleased c) s := by
  refine Inevitable.not_of_avoid (B := fun s => ∃ k l place, Reached s k l place ∧
    c < s.mem.accepted ∧ s.queue.shutdown ≠ .notCalled ∧ ¬ s.InService c ∧
    (s.mem.conn c).closes = 0) ?_ ?_ ⟨k, l, place, h, lt, called, out, opened⟩
  · rintro s ⟨-, -, -, -, -, -, -, opened⟩ ⟨closes, -⟩
    omega
  rintro s ⟨k, l, place, h, lt, called, out, opened⟩ ⟨a, u, thread, taken⟩
  obtain ⟨b, v, thread, taken, good, past⟩ : ∃ b v, ThreadStep b ∧ Server.step s b = some v ∧
      b ≠ .onAccept false ∧ ∀ w, b = .queue (.worker w) → s.queue.pc w = .testTerminate →
        s.queue.terminate w = true := by
    by_cases traversed : s.queue.shutdown.traversed = true
    · have past (w : Fin n) (at_test : s.queue.pc w = .testTerminate) :
          s.queue.terminate w = true :=
        h.inv.coherent.workers.flag_of_traversed traversed (by simp [at_test])
      by_cases accepts : ∃ ok, a = .onAccept ok
      · obtain ⟨ok, rfl⟩ := accepts
        simp only [machine, Server.step, h.inv.fault, if_true] at taken
        obtain ⟨v, goes⟩ := onAccept_enabled taken
        exact ⟨.onAccept true, v, trivial,
          by simpa only [Server.step, h.inv.fault, if_true] using goes, by simp, by simp⟩
      · exact ⟨a, u, thread, taken, fun e => accepts ⟨false, e⟩, fun w _ => past w⟩
    · obtain ⟨q, moved⟩ : ∃ q, workqueueShutdown s.queue = some q := by
        cases hs : s.queue.shutdown <;> simp_all [workqueueShutdown, ShutdownPc.traversed]
      obtain ⟨v, taken⟩ := h.inv.queue_enabled (b := .shutdown) rfl moved
      exact ⟨.queue .shutdown, v, trivial, taken, by simp, by simp⟩
  obtain ⟨k', l', place', h', confined⟩ := h.step taken
  refine ⟨b, v, thread, taken, k', l', place', h', ?_,
    h.outOfService h' taken confined called out opened good past⟩
  rcases confined.accepted taken with same | ⟨more, -⟩ <;> omega

/-! ## The whole run -/

theorem Inv.lt_of_open (h : Inv s k l place) (opened : s.mem.IsOpen c) : c < s.mem.accepted := by
  by_contra late
  have nobody : place c = none := by
    by_contra held
    obtain ⟨o, ho⟩ := Option.ne_none_iff_exists'.mp held
    exact late (h.bound c o ho)
  have account := h.account c
  simp only [nobody, State.Account, late, if_false] at account
  obtain ⟨v, ⟨conn, -⟩, fresh⟩ := account
  have absent := conn ▸ opened.1
  simp [fresh.2.2] at absent

/-- In a reachable state nothing is stranded exactly when every open connection will be released. -/
theorem Reached.strandsNothing_iff (hn : 0 < n) (h : Reached s k l place) :
    s.StrandsNothing ↔ ∀ c, s.mem.IsOpen c → s.WillRelease c := by
  constructor
  · intro strands c opened
    by_contra lost
    simp only [State.WillRelease, not_or] at lost
    obtain ⟨fd, number⟩ := opened.2
    exact h.avoids (h.inv.lt_of_open opened) lost.1 lost.2 (h.inv.closes_of_open number)
      (strands c opened).2
  · intro safe c opened
    have lt := h.inv.lt_of_open opened
    obtain ⟨fd, number⟩ := opened.2
    obtain ⟨o, ho⟩ := Option.ne_none_iff_exists'.mp
      (h.inv.place_of_willRelease lt (safe c opened) fun released => released.2.1 fd number)
    have holds := (h.inv.holds c o).mpr ho
    refine ⟨⟨o, (h.inv.heldBy_iff c o).mpr holds, fun o' ho' => ?_⟩,
      h.inevitable hn lt (safe c opened)⟩
    exact h.inv.unique ((h.inv.heldBy_iff c o').mp ho') holds

/-- A connection that nobody holds keeps its contents. -/
theorem State.Confined.conn_of_unheld (h : s.Confined u a) (free : ∀ o, ¬ s.HeldBy c o) :
    u.mem.conn c = s.mem.conn c := by
  cases a with
  | onAccept ok => exact h.conn c (free _)
  | job w => exact h.conn c (free _)
  | callback w cb => exact h.conn c (free _)
  | queue b => rw [h.2.1]
  | accept fd => rw [h.2]

/-- A connection whose client is in use is open or in service. -/
theorem Inv.open_or_inService (h : Inv s k l place) (live : (s.mem.conn c).block .client = .live) :
    s.mem.IsOpen c ∨ s.InService c := by
  have opened {P : View → Prop} (shows : s.mem.Shows c P) (number : ∀ v, P v → v.1 ≠ none) :
      s.mem.IsOpen c := by
    obtain ⟨v, ⟨-, at_number⟩, hv⟩ := shows
    obtain ⟨fd, hfd⟩ := Option.ne_none_iff_exists'.mp (number v hv)
    exact ⟨live, fd, (at_number fd).mpr hfd⟩
  have dead {P : View → Prop} (shows : s.mem.Shows c P)
      (unused : ∀ v, P v → v.2.block .client ≠ .live) : s.mem.IsOpen c ∨ s.InService c := by
    obtain ⟨v, ⟨conn, -⟩, hv⟩ := shows
    exact absurd (conn ▸ live) (unused v hv)
  have ready (v : View) (hv : Ready c v) : v.1 ≠ none := by
    obtain ⟨⟨fd, number, -⟩, -⟩ := hv
    simp [number]
  have account := h.account c
  cases ho : place c with
  | none =>
    simp only [ho, State.Account] at account
    split at account
    · rcases account with released | ⟨-, waiting⟩
      · refine dead released ?_
        rintro v ⟨used, -, -, block⟩
        rw [block]
        simp only [List.not_mem_nil, if_false]
        split <;> simp
      · exact .inl (opened waiting ready)
    · exact dead account fun v hv => by simp [hv.2.2]
  | some o =>
    have holds := (h.holds c o).mpr ho
    rw [ho] at account
    cases o with
    | queue => exact .inl (opened account ready)
    | worker w => exact .inr (.inl ⟨w, holds⟩)
    | accept =>
      have number {fd : ℕ} {live : List Kind} (v : View) (hv : Opened c fd live v) :
          v.1 ≠ none := by simp [hv.1]
      change s.accepting = some c at holds
      change s.mem.Shows c (s.accept.Stage c) at account
      cases hpc : s.accept with
      | close d fd | closing d | freeing d =>
        exact .inr (.inr (.inl
          (by simpa [hpc, State.accepting, AcceptPc.conn, AcceptPc.givesUp] using holds)))
      | idle => simp [hpc, State.accepting, AcceptPc.conn] at holds
      | enable d | mallocJob d | setJob d =>
        exact .inl (opened (hpc ▸ account) fun v hv => hv.elim fun _ => number v)
      | addJob d | adding d =>
        rw [hpc] at account
        exact .inl (opened account ready)
      | _ => exact .inl (opened (hpc ▸ account) number)

/-- The call of `workqueue_shutdown` changes nothing else. -/
theorem callShutdown_step (taken : step s (.queue .callShutdown) = some u) :
    s.queue.shutdown = .notCalled ∧ u = { s with
      queue := { s.queue with shutdown := .traverse s.queue.workers }
      mem := { s.mem with touched := [] } } := by
  simp only [step, queueStep, ofQueue, if_true, Workqueue.step, jobsTouched, accessJobs] at taken
  split at taken
  on_goal 2 => cases taken
  split at taken
  · rename_i ready
    simp only [Option.bind_some] at taken
    exact ⟨ready.2, perform_pure taken⟩
  · cases taken

/-- A step of `on_accept` that opens a client leaves it on its way: only `mallocClient` makes one,
and only before `workqueue_shutdown` is called. -/
theorem Reached.safe_onAccept (h : Reached s k l place) {ok : Bool}
    (taken : onAcceptStep s ok = some u) (idle : s.StopsIdle (.onAccept ok))
    (holds : s.accepting = some c) (opened : u.mem.IsOpen c)
    (live : (s.mem.conn c).block .client ≠ .live) (onItsWay : s.WillRelease c → u.WillRelease c) :
    u.WillRelease c := by
  have account := h.inv.account c
  rw [(h.inv.holds c .accept).mp holds] at account
  obtain ⟨v, ⟨conn, -⟩, stage⟩ := account
  have inUse (block : v.2.block .client = .live) : u.WillRelease c :=
    absurd ((congrArg (Conn.block · .client) conn).trans block) live
  have built {fd : ℕ} {blocks : List Kind} (hv : Opened c fd blocks v)
      (mem : .client ∈ blocks) : v.2.block .client = .live := by
    rw [hv.2.block, if_pos mem]
  have quiet {next : AcceptPc}
      (taken : perform s (pure ()) (fun _ => .acceptGoto next) = some u) :
      u.WillRelease c := by
    have same : u.mem.conn c = s.mem.conn c := by rw [perform_pure taken]; rfl
    exact absurd (same ▸ opened.1) live
  have ready (hv : Ready c v) : u.WillRelease c :=
    inUse (hv.1.elim fun _ hv => built hv (by simp [allKinds]))
  cases hpc : s.accept <;> simp only [onAcceptStep, hpc] at taken <;> rw [hpc] at stage
  case idle => cases taken
  case setnonblock d fd => exact quiet taken
  case mallocClient d fd =>
    cases ok with
    | true => exact onItsWay (.inl (idle d fd hpc))
    | false => exact quiet taken
  case close d fd | freeing d =>
    exact onItsWay (.inr (.inr (.inl
      (by simpa [hpc, State.accepting, AcceptPc.conn, AcceptPc.givesUp] using holds))))
  case enable | mallocJob | setJob =>
    exact inUse (stage.elim fun _ hv => built hv (by simp [allKinds]))
  case addJob | adding => exact ready stage
  case closing =>
    obtain ⟨fd, blocks, mem, -, hv⟩ := stage
    exact inUse (built hv mem)
  all_goals exact inUse (built stage (by simp))

/-- A step that meets the condition keeps every open connection on its way to its release. -/
theorem Reached.safe_step (h : Reached s k l place) (safe : ∀ c, s.mem.IsOpen c → s.WillRelease c)
    (idle : s.StopsIdle a) (taken : Server.step s a = some u) :
    ∀ c, u.mem.IsOpen c → u.WillRelease c := by
  intro c opened
  obtain ⟨k', l', place', h', confined⟩ := h.step taken
  by_cases stops : a = .queue .callShutdown
  · subst stops
    obtain ⟨-, rfl⟩ := callShutdown_step taken
    exact .inr (idle c opened)
  have onItsWay (on : s.WillRelease c) : u.WillRelease c := by
    rcases h.willRelease h' taken stops on with on' | released
    · exact on'
    · obtain ⟨fd, number⟩ := opened.2
      exact absurd number (released.2.1 fd)
  by_cases live : (s.mem.conn c).block .client = .live
  · exact onItsWay ((h.inv.open_or_inService live).elim (safe c) .inr)
  -- the step creates the client, so it is one of `on_accept`
  have unchanged (same : u.mem.conn c = s.mem.conn c) : u.WillRelease c :=
    absurd (same ▸ opened.1) live
  cases ho : place c with
  | none =>
    refine unchanged (confined.conn_of_unheld fun o held => ?_)
    have placed := (h.inv.holds c o).mp ((h.inv.heldBy_iff c o).mp held)
    simp [ho] at placed
  | some o =>
    have holds := (h.inv.holds c o).mpr ho
    cases o with
    | queue =>
      have account := h.inv.account c
      rw [ho] at account
      exact absurd (Mem.Shows.live account (fun _ => .inl) .client) live
    | worker w => exact onItsWay (.inr (.inl ⟨w, holds⟩))
    | accept =>
      cases a with
      | queue b => exact unchanged (by rw [confined.2.1])
      | accept fd => exact unchanged (by rw [confined.2])
      | job w =>
        refine unchanged (confined.conn c fun held => ?_)
        have same : _ = Owner.accept := h.inv.unique ((h.inv.heldBy_iff c _).mp held) holds
        exact absurd same (by simp)
      | callback w cb =>
        refine unchanged (confined.conn c fun held => ?_)
        have same : _ = Owner.accept := h.inv.unique ((h.inv.heldBy_iff c _).mp held) holds
        exact absurd same (by simp)
      | onAccept ok =>
        simp only [Server.step, h.inv.fault, if_true] at taken
        exact h.safe_onAccept taken idle holds opened live onItsWay

/-- A step that breaks the condition strands a connection. -/
theorem Reached.stranded_step (h : Reached s k l place) (bad : ¬ s.StopsIdle a)
    (taken : Server.step s a = some u) : ¬ ∀ c, u.mem.IsOpen c → u.WillRelease c := by
  intro safe
  obtain ⟨k', l', place', h', confined⟩ := h.step taken
  cases a with
  | queue b =>
    cases b with
    | callShutdown =>
      obtain ⟨-, rfl⟩ := callShutdown_step taken
      simp only [State.StopsIdle, not_forall] at bad
      obtain ⟨c, opened, out⟩ := bad
      rcases safe c opened with calm | serves
      · cases hw : s.queue.workers <;> simp [hw, ShutdownPc.traverse] at calm
      · exact out serves
    | _ => exact bad trivial
  | onAccept ok =>
    cases ok with
    | false => exact bad trivial
    | true =>
      simp only [State.StopsIdle, not_forall] at bad
      obtain ⟨c, fd, at_malloc, called⟩ := bad
      simp only [Server.step, h.inv.fault, if_true, onAcceptStep, at_malloc] at taken
      obtain ⟨x, m, rfl⟩ := perform_done taken h'.inv.fault
      have mine : place' c = some .accept := (h'.inv.holds c .accept).mp rfl
      have account := h'.inv.account c
      rw [mine] at account
      obtain ⟨v, ⟨conn, at_number⟩, number, built⟩ := account
      have opened : m.IsOpen c := by
        refine ⟨?_, fd, (at_number fd).mpr number⟩
        exact (congrArg (Conn.block · .client) conn).trans (built.block .client)
      rcases safe c opened with calm | ⟨w, has⟩ | gives | ⟨head, -⟩
      · exact called calm
      · have other := (h'.inv.holds c (.worker w)).mp has
        simp [mine] at other
      · cases gives
      · obtain ⟨rest, hl⟩ := (head ▸ h'.inv.coherent.jobs.chain).of_some
        have other := (h'.inv.holds c .queue).mp (by simp [State.Holds, hl.1])
        simp [mine] at other
  | _ => exact bad trivial

/-- Exactly in the runs in which `workqueue_shutdown` is called while every open connection is in
service, and creates no client afterwards, each open connection has one holder and will be
released. -/
theorem shutdown_strands_nothing_iff (hn : 0 < n) {s₀ s : State n}
    {tr : List (State n × Action n)} (initial : Initial s₀) (run : (machine n).Run s₀ tr s) :
    (∀ u ∈ visited tr s, u.StrandsNothing) ↔ Along State.StopsIdle tr := by
  have safe : (∀ u ∈ visited tr s, ∀ c, u.mem.IsOpen c → u.WillRelease c) ↔
      Along State.StopsIdle tr := by
    refine run.forall_visited_iff (I := fun s => ∃ k l place, Reached s k l place)
      ⟨0, [], _, .of_initial initial⟩ ?_ ?_ ?_ ?_
    · intro c opened
      simp [Mem.IsOpen, (initial.conn c).2] at opened
    · rintro s a u ⟨k, l, place, h⟩ taken
      obtain ⟨k', l', place', h', -⟩ := h.step taken
      exact ⟨k', l', place', h'⟩
    · rintro s a u ⟨k, l, place, h⟩ safe idle taken
      exact h.safe_step safe idle taken
    · rintro s a u ⟨k, l, place, h⟩ bad taken
      exact h.stranded_step bad taken
  rw [← safe]
  refine forall₂_congr fun u visited => ?_
  obtain ⟨tr', -, run'⟩ := run.prefix_of_visited visited
  obtain ⟨k, l, place, h⟩ := reached_of_run initial run'
  exact h.strandsNothing_iff hn

instance (s : State n) (c : ℕ) : Decidable (s.InService c) :=
  inferInstanceAs (Decidable (_ ∨ _ ∨ _ ∧ _))

/-- A test that settles the condition along a run. -/
def State.stopsIdleTest (s : State n) : Action n → Bool
  | .queue .callShutdown => (List.range s.mem.accepted).all fun c =>
    decide ((s.mem.conn c).block .client = .live → s.InService c)
  | .onAccept true => match s.accept with
    | .mallocClient _ _ => decide (s.queue.shutdown = .notCalled)
    | _ => true
  | _ => true

theorem Reached.stopsIdle_of_test (h : Reached s k l place) (test : s.stopsIdleTest a = true) :
    s.StopsIdle a := by
  cases a with
  | queue b =>
    cases b with
    | callShutdown =>
      intro c opened
      have all := List.all_eq_true.mp test c (List.mem_range.mpr (h.inv.lt_of_open opened))
      exact of_decide_eq_true all opened.1
    | _ => trivial
  | onAccept ok =>
    cases ok with
    | true =>
      intro c fd at_malloc
      simpa [State.stopsIdleTest, at_malloc] using test
    | false => trivial
  | _ => trivial

/-- One worker is running the job of the only connection when the queue is stopped: the connection
stays with the worker, which closes and frees it. -/
theorem shutdown_strands_nothing_serving :
    ∃ (tr : List (State 1 × Action 1)) (s : State 1), (machine 1).Run start tr s ∧
      s.queue.shutdown = .returned ∧ s.job 0 = .dispatch 0 ∧
      ∀ u ∈ visited tr s, u.StrandsNothing := by
  let acts : List (Action 1) := List.flatten [
    List.replicate 3 (.queue (.init true)), [.accept (some 5)], List.replicate 9 (.onAccept true),
    List.replicate 4 (.queue (.caller () ∅)), [.onAccept true],
    List.replicate 6 (.queue (.worker 0)), List.replicate 2 (.job 0), [.queue .callShutdown],
    List.replicate 7 (.queue .shutdown)]
  have ends : ((machine 1).exec start acts).map (fun s => (s.queue.shutdown, s.job 0)) =
      some (.returned, .dispatch 0) := by decide +kernel
  obtain ⟨s, hs, h⟩ := Option.map_eq_some_iff.mp ends
  obtain ⟨returned, dispatch⟩ := Prod.mk.inj h
  have run := run_of_exec hs
  have tests : Along (fun s a => State.stopsIdleTest s a = true) ((machine 1).trace start acts) :=
    along_of_check (c := State.stopsIdleTest) (fun _ _ => id) (by decide +kernel)
  refine ⟨_, s, run, returned, dispatch,
    (shutdown_strands_nothing_iff (by omega) start_initial run).mpr fun x hx => ?_⟩
  have visited : x.1 ∈ visited ((machine 1).trace start acts) s :=
    List.mem_append_left _ (List.mem_map_of_mem hx)
  obtain ⟨tr', -, run'⟩ := run.prefix_of_visited visited
  obtain ⟨k, l, place, reached⟩ := reached_of_run start_initial run'
  exact reached.stopsIdle_of_test (tests x hx)

/-- The queue is stopped while a connection waits for the only worker: nobody holds it any more,
and its descriptor stays open. -/
theorem shutdown_strands_waiting :
    ∃ (tr : List (State 1 × Action 1)) (s : State 1), (machine 1).Run start tr s ∧
      s.queue.shutdown = .returned ∧ s.mem.IsOpen 0 ∧ (∀ o, ¬ s.HeldBy 0 o) ∧
      ¬ s.StrandsNothing := by
  let acts : List (Action 1) := List.flatten [
    List.replicate 3 (.queue (.init true)), [.accept (some 5)], List.replicate 9 (.onAccept true),
    List.replicate 4 (.queue (.caller () ∅)), [.onAccept true], [.queue .callShutdown],
    List.replicate 7 (.queue .shutdown)]
  have ends : ((machine 1).exec start acts).map (fun s =>
      ((s.queue.shutdown, s.queue.waitingJobs, s.queue.pc 0), s.accept,
        (s.mem.conn 0).block .client, s.mem.descriptors 5)) =
      some ((.returned, none, .lock), .idle, .live, some 0) := by decide +kernel
  obtain ⟨s, hs, h⟩ := Option.map_eq_some_iff.mp ends
  simp only [Prod.mk.injEq] at h
  obtain ⟨⟨returned, empty, at_lock⟩, idle, live, number⟩ := h
  have opened : s.mem.IsOpen 0 := ⟨live, 5, number⟩
  have nobody : ∀ o, ¬ s.HeldBy 0 o := by
    rintro o ⟨l, chain, holds⟩
    cases o with
    | accept => simp [State.Holds, State.accepting, idle, AcceptPc.conn] at holds
    | queue =>
      rw [empty] at chain
      simp [State.Holds, chain.of_none] at holds
    | worker w =>
      obtain rfl : w = 0 := Subsingleton.elim w 0
      simp [State.Holds, at_lock, carries] at holds
  refine ⟨_, s, run_of_exec hs, returned, opened, nobody, fun strands => ?_⟩
  obtain ⟨⟨o, held, -⟩, -⟩ := strands 0 opened
  exact nobody o held

end JiaTuanServer.Server

import JiaTuanServer.Server.QueueSteps

/-!
# The steps of on_accept

Each of the seven calls of `on_accept` that can fail leads on, or to one of the two ways of giving
up: `close(client_fd)` while there is no client, `closeAndFreeClient` from then on.
-/

namespace JiaTuanServer.Server

open Transition Workqueue LocalTriple

variable {n : ℕ} {s u : State n} {k : ℕ} {l : List ℕ} {place : ℕ → Option (Owner n)} {c d fd : ℕ}

theorem Takes.exists {α : Type} {op : Op α} {x : α} {P Q : ℕ → View → Prop}
    (h : ∀ fd, Takes c op (P fd) x (Q fd)) :
    Takes c op (fun v => ∃ fd, P fd v) x (fun v => ∃ fd, Q fd v) := by
  rintro v ⟨fd, hv⟩
  obtain ⟨v', does, hv'⟩ := h fd v hv
  exact ⟨v', does, fd, hv'⟩

/-- `on_accept` calls `evbuffer_new`, `event_base_new` or `bufferevent_new`. -/
theorem Inv.acquire (h : Inv s k l place) {pc : AcceptPc} (next : AcceptPc) {live : List Kind}
    {kind : Kind} {store : Option ℕ → Client → Client} {ok : Bool} (at_pc : s.accept = pc)
    (conn : pc.conn = some c) (early : ∀ c, pc ≠ .adding c)
    (stage : pc.Stage c = Opened c fd live) (hc : .client ∈ live) (hj : .job ∉ live)
    (hk : kind ≠ .client) (conn' : next.conn = some c) (early' : ∀ c, next ≠ .adding c)
    (stage' : ∀ v, Opened c fd (live ++ [kind]) v → next.Stage c v)
    (stored : ∀ x : Conn, x.Built c 0 fd live → store (some c) x.client =
      { fd := fd
        evbase := if .evbase ∈ live ++ [kind] then some c else none
        bufEv := if .bufEv ∈ live ++ [kind] then some c else none
        outputBuffer := if .outputBuffer ∈ live ++ [kind] then some c else none })
    (kept : ∀ x : Conn, x.Built c 0 fd live → store none x.client = x.client)
    (taken : perform s (acquire ok kind c store)
      (fun _ => .acceptGoto (if ok then next else .closing c)) = some u) :
    ∃ place', Inv u k l place' ∧ s.Within .accept u := by
  cases ok with
  | true =>
    exact h.acceptOp next at_pc conn early taken (stage ▸ acquire_takes hc hk stored)
      (.inr ⟨conn', early', stage'⟩)
  | false =>
    have code : Takes c (Server.acquire false kind c store) (pc.Stage c) () (Opened c fd live) := by
      rw [stage]
      exact acquire_fails hc kept
    exact h.acceptOp (.closing c) at_pc conn early taken code
      (.inr ⟨rfl, by simp, fun v hv => ⟨fd, live, hc, hj, hv⟩⟩)

/-- `on_accept` calls `workqueue_add_job`. -/
theorem Inv.call (h : Inv s k l place) (at_pc : s.accept = .addJob c)
    {q : Workqueue.State n Unit ℕ} (st : Step s.queue (.call () c) q) (touched : List (Kind × ℕ)) :
    ∃ k', Inv { s with queue := q, mem := { s.mem with touched := touched }
                       accept := .adding c } k' l place := by
  obtain ⟨k', l', coherent, -, change⟩ := st.coherent h.coherent trivial
  have hl : l' = l := by
    have jobs := (change.resolve_left fun hd => hd.1).2
    simpa [Workqueue.State.added, Workqueue.State.removed] using jobs.symm
  subst hl
  cases st with
  | call started at_idle =>
    refine ⟨k', h.fault, coherent, fun d o => ?_, h.bound, fun d => ?_, fun j hj => ?_, h.job⟩
    · rw [← h.holds d o]
      cases o with
      | accept =>
        simp [State.Holds, State.accepting, at_pc, AcceptPc.conn, beforeAdd]
      | queue => rfl
      | worker w => rfl
    · refine (h.account d).of_same (sameAt_touched _ _ _) Iff.rfl (fun e => ?_) (fun _ _ => rfl) id
      rw [at_pc]
      rfl
    · simp [callerJob] at hj
      simp [hj]

/-- `workqueue_add_job` has returned, and `on_accept` returns. -/
theorem Inv.acceptReturn (h : Inv s k l place) (at_pc : s.accept = .adding c)
    (returned : s.queue.caller () = .idle) (touched : List (Kind × ℕ)) :
    Inv { s with accept := .idle, mem := { s.mem with touched := touched } } k l place := by
  have nobody (d : ℕ) : place d ≠ some .accept := fun e => by
    have holds := (h.holds d .accept).mpr e
    simp [State.Holds, State.accepting, at_pc, returned, beforeAdd] at holds
  refine ⟨h.fault, h.coherent, fun d o => ?_, h.bound, fun d => ?_, fun j hj => ?_, h.job⟩
  · cases o with
    | accept =>
      exact iff_of_false (by simp [State.Holds, State.accepting, AcceptPc.conn]) (nobody d)
    | queue => exact h.holds d .queue
    | worker w => exact h.holds d (.worker w)
  · exact (h.account d).of_same (sameAt_touched _ _ _) Iff.rfl (fun e => absurd e (nobody d))
      (fun _ _ => rfl) id
  · simp [returned, callerJob] at hj

/-- Every step of `on_accept` keeps the invariant. -/
theorem Inv.onAccept (h : Inv s k l place) {ok : Bool} (taken : onAcceptStep s ok = some u) :
    ∃ k' l' place', Inv u k' l' place' ∧ s.Within .accept u := by
  have wrap (hu : ∃ place', Inv u k l place' ∧ s.Within .accept u) :
      ∃ k' l' place', Inv u k' l' place' ∧ s.Within .accept u :=
    ⟨k, l, hu⟩
  cases at_pc : s.accept with
  | idle => simp [onAcceptStep, at_pc] at taken
  | setnonblock c fd =>
    simp only [onAcceptStep, at_pc] at taken
    cases ok with
    | true => exact wrap (h.acceptOp (.mallocClient c fd) at_pc rfl (by simp) taken (.pure () _)
        (.inr ⟨rfl, by simp, fun _ => id⟩))
    | false => exact wrap (h.acceptOp (.close c fd) at_pc rfl (by simp) taken (.pure () _)
        (.inr ⟨rfl, by simp, fun _ => id⟩))
  | mallocClient c fd =>
    cases ok <;> simp only [onAcceptStep, at_pc, if_true, Bool.false_eq_true, if_false] at taken
    case true => exact wrap (h.acceptOp (.evbufferNew c fd) at_pc rfl (by simp) taken
        newClient_takes (.inr ⟨rfl, by simp, fun _ => id⟩))
    case false => exact wrap (h.acceptOp (.close c fd) at_pc rfl (by simp) taken (.pure () _)
        (.inr ⟨rfl, by simp, fun _ => id⟩))
  | evbufferNew c fd =>
    simp only [onAcceptStep, at_pc] at taken
    exact wrap (h.acquire (.eventBaseNew c fd) at_pc rfl (by simp) rfl (by simp) (by simp) (by simp)
      rfl (by simp) (fun _ => id) (fun x hx => by simp [hx.client])
      (fun x hx => by simp [hx.client]) taken)
  | eventBaseNew c fd =>
    simp only [onAcceptStep, at_pc] at taken
    exact wrap (h.acquire (.buffereventNew c fd) at_pc rfl (by simp) rfl (by simp) (by simp)
      (by simp) rfl (by simp) (fun _ => id) (fun x hx => by simp [hx.client])
      (fun x hx => by simp [hx.client]) taken)
  | buffereventNew c fd =>
    simp only [onAcceptStep, at_pc] at taken
    exact wrap (h.acquire (.enable c) at_pc rfl (by simp) rfl (by simp) (by simp) (by simp) rfl
      (by simp) (fun _ hv => ⟨fd, hv⟩) (fun x hx => by simp [hx.client])
      (fun x hx => by simp [hx.client]) taken)
  | enable c =>
    simp only [onAcceptStep, at_pc] at taken
    exact wrap (h.acceptOp (.mallocJob c) at_pc rfl (by simp) taken
      (.exists fun _ => enableClient_takes) (.inr ⟨rfl, by simp, fun _ => id⟩))
  | mallocJob c =>
    cases ok <;> simp only [onAcceptStep, at_pc, if_true, Bool.false_eq_true, if_false] at taken
    case true => exact wrap (h.acceptOp (.setJob c) at_pc rfl (by simp) taken
        (.exists fun _ => allocateJob_takes) (.inr ⟨rfl, by simp, fun _ => id⟩))
    case false => exact wrap (h.acceptOp (.closing c) at_pc rfl (by simp) taken (.pure () _)
        (.inr ⟨rfl, by simp, fun v ⟨fd, hv⟩ => ⟨fd, _, by simp, by simp, hv⟩⟩))
  | setJob c =>
    simp only [onAcceptStep, at_pc] at taken
    exact wrap (h.acceptOp (.addJob c) at_pc rfl (by simp) taken
      (fun v ⟨fd, hv⟩ => storeUserData_takes v hv) (.inr ⟨rfl, by simp, fun _ => id⟩))
  | addJob c =>
    simp only [onAcceptStep, at_pc] at taken
    obtain ⟨q, call, taken⟩ := Option.bind_eq_some_iff.mp taken
    rw [perform_pure taken]
    obtain ⟨k', h'⟩ := h.call at_pc (step_cases call) []
    exact ⟨k', l, place, h', by simp, fun _ _ => rfl, rfl⟩
  | adding c =>
    simp only [onAcceptStep, at_pc] at taken
    split at taken
    · rw [perform_pure taken]
      exact ⟨k, l, place, h.acceptReturn at_pc ‹_› [], by simp [State.acceptGoto],
        fun _ _ => rfl, rfl⟩
    · cases taken
  | close c fd =>
    simp only [onAcceptStep, at_pc] at taken
    exact wrap (h.acceptOp .idle at_pc rfl (by simp) taken close_takes
      (.inl ⟨rfl, fun _ hv => ⟨_, hv⟩⟩))
  | closing c =>
    simp only [onAcceptStep, at_pc] at taken
    refine wrap (h.acceptOp (.freeing c) at_pc rfl (by simp) taken
      (Q := fun v => ∃ live, .client ∈ live ∧ .job ∉ live ∧ Closed c live v) ?_
      (.inr ⟨rfl, by simp, fun _ => id⟩))
    rintro v ⟨fd, live, hc, hj, hv⟩
    obtain ⟨v', does, closed, -⟩ := closeClient_takes hc v.2.userData v ⟨hv, rfl⟩
    exact ⟨v', does, live, hc, hj, closed⟩
  | freeing c =>
    simp only [onAcceptStep, at_pc] at taken
    refine wrap (h.acceptOp .idle at_pc rfl (by simp) taken (Q := Released) ?_
      (.inl ⟨rfl, fun _ => id⟩))
    rintro v ⟨live, hc, hj, hv⟩
    obtain ⟨v', does, left⟩ := freeClient_takes hc v hv
    exact ⟨v', does, live, by simpa [hj] using left⟩

/-- `accept` returns a new connection. -/
theorem Inv.accept (h : Inv s k l place) (idle : s.accept = .idle)
    (unused : s.mem.descriptors fd = none) :
    Inv { s with
      mem := { s.mem with
        descriptors := Function.update s.mem.descriptors fd (some s.mem.accepted)
        accepted := s.mem.accepted + 1
        touched := [] }
      accept := .setnonblock s.mem.accepted fd } k l
      (Function.update place s.mem.accepted (some .accept)) := by
  have nowhere : place s.mem.accepted = none := by
    by_contra some
    obtain ⟨o, ho⟩ := Option.ne_none_iff_exists'.mp some
    exact absurd (h.bound _ o ho) (by simp)
  have nobody (d : ℕ) : place d ≠ some .accept := fun e => by
    have holds := (h.holds d .accept).mpr e
    simp [State.Holds, State.accepting, idle, AcceptPc.conn] at holds
  refine h.move s.mem.accepted (some .accept) h.fault h.coherent (fun o => ?_) (fun d hd o => ?_)
    (fun d o hd => ?_) ?_ (fun d hd old => ?_) (fun j hj => ?_) h.job
  · cases o with
    | accept => simp [State.Holds, State.accepting, AcceptPc.conn]
    | queue =>
      refine iff_of_false (fun ho => ?_) (by simp)
      have held := (h.holds s.mem.accepted .queue).mp ho
      simp [nowhere] at held
    | worker w =>
      refine iff_of_false (fun ho => ?_) (by simp)
      have held := (h.holds s.mem.accepted (.worker w)).mp ho
      simp [nowhere] at held
  · cases o with
    | accept => simp [State.Holds, State.accepting, AcceptPc.conn, idle, Ne.symm hd]
    | queue | worker w => rfl
  · rcases hd with ⟨rfl, -⟩ | hd
    · exact Nat.lt_succ_self _
    · exact Nat.lt_succ_of_lt hd
  · have fresh := h.account s.mem.accepted
    simp only [nowhere, State.Account, lt_irrefl, if_false] at fresh
    obtain ⟨⟨number, x⟩, ⟨conn, at_number⟩, rfl, closes, block⟩ := fresh
    refine ⟨(some fd, x), ⟨conn, fun i => ?_⟩, rfl, closes, 
      fun kind => (block kind).trans (by simp), by simp⟩
    by_cases hi : i = fd
    · simp [hi]
    · have other : s.mem.descriptors i ≠ some s.mem.accepted := fun e => by
        simpa using (at_number i).mp e
      simp [hi, other, Ne.symm hi]
  · refine old.of_same ⟨rfl, fun i => ?_⟩ ?_ (fun e => absurd e (nobody d)) (fun _ _ => rfl) id
    · by_cases hi : i = fd
      · simp [hi, unused, Ne.symm hd]
      · simp [hi]
    · change d < s.mem.accepted + 1 ↔ _
      omega
  · have adding := h.caller j hj
    simp [idle] at adding

end JiaTuanServer.Server

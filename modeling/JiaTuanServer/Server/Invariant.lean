import JiaTuanServer.Server.Ownership

/-!
# The invariant of the server

Every step keeps `Inv`. A step of `on_accept`, of a job function or of a callback works on the one
connection its thread holds (`Inv.acceptOp`, `Inv.jobOp`); a step of the queue changes no contents
and may hand one connection on (`Inv.queueStep`).
-/

namespace JiaTuanServer.Server

open Transition Workqueue LocalTriple

variable {n : ℕ} {s u : State n} {k : ℕ} {l : List ℕ} {place : ℕ → Option (Owner n)} {c d : ℕ}
  {P Q : View → Prop} {α : Type}

theorem Mem.Shows.frame {m m' : Mem} (h : m.Shows d P) (same : m.SameAt m' d) : m'.Shows d P := by
  obtain ⟨v, ⟨conn, number⟩, hv⟩ := h
  exact ⟨v, ⟨same.1.trans conn, fun i => (same.2 i).trans (number i)⟩, hv⟩

theorem Mem.Shows.imp {m : Mem} (h : m.Shows d P) (hpq : ∀ v, P v → Q v) : m.Shows d Q := by
  obtain ⟨v, sees, hv⟩ := h
  exact ⟨v, sees, hpq v hv⟩

/-- What a thread does in one step to the connection it works on. -/
structure Worked (s : State n) (c : ℕ) (Q : View → Prop) (m : Mem) : Prop where
  accepted : m.accepted = s.mem.accepted
  others : ∀ d, d ≠ c → s.mem.SameAt m d
  contents : m.Shows c Q
  touched : ∀ x ∈ m.touched, x.2 = c

theorem perform_takes {op : Op α} {next : α → State n → State n} {x : α}
    (taken : perform s op next = some u) (code : Takes c op P x Q) (contents : s.mem.Shows c P) :
    ∃ m, u = next x { s with mem := m } ∧ Worked s c Q m := by
  obtain ⟨v, sees, hv⟩ := contents
  obtain ⟨v', does, hv'⟩ := code v hv
  obtain ⟨m, run, ⟨accepted, others, touched⟩, sees'⟩ := does { s.mem with touched := [] } sees
  rw [perform, run] at taken
  refine ⟨m, (Option.some.inj taken).symm, accepted, others, ⟨v', sees', hv'⟩, fun y hy => ?_⟩
  exact (touched y hy).resolve_left (by simp)

/-- A step that leaves the memory alone, apart from forgetting what the last step used. -/
theorem perform_pure {next : Unit → State n → State n} (taken : perform s (pure ()) next = some u) :
    u = next () { s with mem := { s.mem with touched := [] } } := (Option.some.inj taken).symm

theorem sameAt_touched (m : Mem) (touched : List (Kind × ℕ)) (d : ℕ) :
    m.SameAt { m with touched := touched } d := ⟨rfl, fun _ => Iff.rfl⟩

/-- The account of a connection that the step does not concern. -/
theorem State.Account.of_same {o : Option (Owner n)} (h : s.Account d o)
    (mem : s.mem.SameAt u.mem d) (accepted : d < u.mem.accepted ↔ d < s.mem.accepted)
    (accept : o = some .accept → u.accept.Stage d = s.accept.Stage d)
    (worker : ∀ w, o = some (.worker w) → workerStage d (u.queue.pc w) (u.job w) =
      workerStage d (s.queue.pc w) (s.job w))
    (stop : dropped s.queue.shutdown = true → dropped u.queue.shutdown = true) :
    u.Account d o := by
  rcases o with - | ⟨- | - | w⟩
  · by_cases lt : d < s.mem.accepted
    · simp only [State.Account, accepted, lt, if_true] at h ⊢
      rcases h with gone | ⟨late, ready⟩
      · exact .inl (gone.frame mem)
      · exact .inr ⟨stop late, ready.frame mem⟩
    · simp only [State.Account, accepted, lt, if_false] at h ⊢
      exact h.frame mem
  · have kept := Mem.Shows.frame h mem
    rwa [← accept rfl] at kept
  · exact Mem.Shows.frame h mem
  · have kept := Mem.Shows.frame h mem
    rwa [← worker w rfl] at kept

/-- The step has used and changed only what belongs to connections that `o` holds. -/
structure State.Within (s : State n) (o : Owner n) (u : State n) : Prop where
  touched : ∀ x ∈ u.mem.touched, s.HeldBy x.2 o
  conn : ∀ c, ¬ s.HeldBy c o → u.mem.conn c = s.mem.conn c
  accepted : u.mem.accepted = s.mem.accepted

/-- What code does that works on a connection of `o`. -/
theorem Worked.within {o : Owner n} {m : Mem} (work : Worked s c Q m) (mine : s.HeldBy c o)
    (mem : u.mem = m) : s.Within o u := by
  subst mem
  refine ⟨fun x hx => work.touched x hx ▸ mine, fun d hd => ?_, work.accepted⟩
  have other : d ≠ c := fun e => hd (e ▸ mine)
  exact (work.others d other).1

theorem Inv.touched (h : Inv s k l place) (touched : List (Kind × ℕ)) :
    Inv { s with mem := { s.mem with touched := touched } } k l place :=
  ⟨h.fault, h.coherent, h.holds, h.bound, fun d => (h.account d).of_same (sameAt_touched _ _ _)
    Iff.rfl (fun _ => rfl) (fun _ _ => rfl) id, h.caller, h.job⟩

theorem Inv.heldBy_iff (h : Inv s k l place) (c : ℕ) (o : Owner n) :
    s.HeldBy c o ↔ s.Holds l c o :=
  ⟨fun ⟨_, chain, ho⟩ => h.coherent.jobs.chain.unique chain ▸ ho,
    fun ho => ⟨l, h.coherent.jobs.chain, ho⟩⟩

theorem Inv.unique (h : Inv s k l place) {o o' : Owner n} (ho : s.Holds l c o)
    (ho' : s.Holds l c o') : o = o' :=
  Option.some.inj (((h.holds c o).mp ho).symm.trans ((h.holds c o').mp ho'))

/-- The step concerns connection `c` only, which `o` holds afterwards. -/
theorem Inv.move (h : Inv s k l place) {k' : ℕ} {l' : List ℕ} (c : ℕ) (o : Option (Owner n))
    (fault : u.fault = none) (coherent : Coherent u.queue k' l')
    (held : ∀ o', u.Holds l' c o' ↔ o = some o')
    (others : ∀ d, d ≠ c → ∀ o', u.Holds l' d o' ↔ s.Holds l d o')
    (bound : ∀ d o', d = c ∧ o = some o' ∨ d < s.mem.accepted → d < u.mem.accepted)
    (mine : u.Account c o)
    (account : ∀ d, d ≠ c → s.Account d (place d) → u.Account d (place d))
    (caller : ∀ j, callerJob (u.queue.caller ()) = some j → u.accept = .adding j)
    (job : ∀ w, (∀ j, u.queue.pc w ≠ .run j) → u.job w = .load) :
    Inv u k' l' (Function.update place c o) := by
  refine ⟨fault, coherent, fun d o' => ?_, fun d o' hd => ?_, fun d => ?_, caller, job⟩
  all_goals
    by_cases hdc : d = c
    on_goal 1 => subst hdc; simp only [Function.update_self] at *
    on_goal 2 => simp only [Function.update_of_ne hdc] at *
  · exact held o'
  · rw [others d hdc o', h.holds]
  · exact bound d o' (.inl ⟨rfl, hd⟩)
  · exact bound d o' (.inr (h.bound d o' hd))
  · exact mine
  · exact account d hdc (h.account d)

/-- The accept thread holds the connection of `on_accept`, before it calls `workqueue_add_job`. -/
theorem accepting_of_conn {pc : AcceptPc} (at_pc : s.accept = pc) (conn : pc.conn = some c)
    (early : ∀ c, pc ≠ .adding c) : s.accepting = some c := by
  subst at_pc
  cases hp : s.accept <;> simp_all [State.accepting, AcceptPc.conn]

/-! ## The accept thread -/

/-- `on_accept` works on its connection and goes on to `next`, or returns after a failure. -/
theorem Inv.acceptOp (h : Inv s k l place) {pc : AcceptPc} (next : AcceptPc) (at_pc : s.accept = pc)
    (conn : pc.conn = some c) (early : ∀ c, pc ≠ .adding c) {op : Op Unit}
    (taken : perform s op (fun _ => .acceptGoto next) = some u)
    (code : Takes c op (pc.Stage c) () Q)
    (goal : next = .idle ∧ (∀ v, Q v → Released v) ∨
      next.conn = some c ∧ (∀ c, next ≠ .adding c) ∧ ∀ v, Q v → next.Stage c v) :
    ∃ place', Inv u k l place' ∧ s.Within .accept u := by
  have mine : s.accepting = some c := accepting_of_conn at_pc conn early
  have at_c : place c = some .accept := (h.holds c .accept).mp mine
  have contents : s.mem.Shows c (pc.Stage c) := by
    have account := h.account c
    rw [at_c] at account
    exact at_pc ▸ account
  obtain ⟨m, rfl, work⟩ := perform_takes taken code contents
  have within : s.Within .accept (State.acceptGoto next { s with mem := m }) :=
    work.within ((h.heldBy_iff c .accept).mpr mine) rfl
  obtain ⟨accepted, others, done, -⟩ := work
  have quiet (j : ℕ) (hj : callerJob (s.queue.caller ()) = some j) : False :=
    early j (at_pc.symm.trans (h.caller j hj))
  have only (d : ℕ) (hd : d ≠ c) : place d ≠ some .accept := fun e =>
    hd (Option.some.inj (((h.holds d .accept).mpr e).symm.trans mine))
  have account (d : ℕ) (hd : d ≠ c) (old : s.Account d (place d)) :
      (State.acceptGoto next { s with mem := m }).Account d (place d) :=
    old.of_same (others d hd) (by rw [← accepted]; rfl) (fun e => absurd e (only d hd))
      (fun _ _ => rfl) id
  have lt : c < m.accepted := accepted ▸ h.bound c _ at_c
  -- the accept thread holds `c` as long as it goes on with it
  have now : (State.acceptGoto next { s with mem := m }).accepting = next.conn := by
    rcases goal with ⟨rfl, -⟩ | ⟨conn', early', -⟩
    · rfl
    · exact (accepting_of_conn rfl conn' early').trans conn'.symm
  have goes (conn' : next.conn = some c) : next ≠ .idle := by
    rintro rfl
    simp [AcceptPc.conn] at conn'
  refine ⟨_, h.move c (if next = .idle then none else some .accept) h.fault h.coherent
    (fun o => ?_) (fun d hd o => ?_) (fun d o hd => ?_) ?_ account
    (fun j hj => (quiet j hj).elim) h.job, within⟩
  · have elsewhere {o : Owner n} (ho : s.Holds l c o) (ne : o ≠ .accept) : False :=
      ne (h.unique ho (mine : s.Holds l c .accept))
    cases o with
    | accept =>
      change (State.acceptGoto next { s with mem := m }).accepting = some c ↔ _
      rw [now]
      rcases goal with ⟨rfl, -⟩ | ⟨conn', -, -⟩
      · simp [AcceptPc.conn]
      · simp [conn', goes conn']
    | queue =>
      refine ⟨fun ho => (elsewhere (o := .queue) ho (by simp)).elim, fun e => ?_⟩
      split at e <;> simp at e
    | worker w =>
      refine ⟨fun ho => (elsewhere (o := .worker w) ho (by simp)).elim, fun e => ?_⟩
      split at e <;> simp at e
  · cases o with
    | accept =>
      have before : s.accepting ≠ some d := fun e => hd (Option.some.inj (e.symm.trans mine))
      have after : next.conn ≠ some d := by
        rcases goal with ⟨rfl, -⟩ | ⟨conn', -, -⟩
        · simp [AcceptPc.conn]
        · rw [conn']; simpa using Ne.symm hd
      change (State.acceptGoto next { s with mem := m }).accepting = some d ↔ s.accepting = some d
      rw [now]
      exact iff_of_false after before
    | queue => rfl
    | worker w => rfl
  · rcases hd with ⟨rfl, -⟩ | hd
    · exact lt
    · exact accepted ▸ hd
  · rcases goal with ⟨rfl, released⟩ | ⟨conn', -, stage⟩
    · simp only [State.Account, State.acceptGoto, if_true, lt]
      exact .inl (done.imp released)
    · simp only [goes conn', if_false]
      exact done.imp stage

/-! ## The job functions -/

/-- What memory holds for the connection whose job function runs. -/
theorem Inv.shows_of_run (h : Inv s k l place) {w : Fin n} (run : s.queue.pc w = .run c) :
    place c = some (.worker w) ∧ s.mem.Shows c ((s.job w).Stage c) := by
  have at_c : place c = some (.worker w) :=
    (h.holds c (.worker w)).mp (by simp [State.Holds, run, carries])
  have account := h.account c
  rw [at_c] at account
  simp only [State.Account, run, workerStage] at account
  exact ⟨at_c, account⟩

/-- `server_job_function`, or a callback in it, works on its connection. -/
theorem Inv.jobOp (h : Inv s k l place) {w : Fin n} (run : s.queue.pc w = .run c) {m : Mem}
    (work : Worked s c Q m) {pc : JobPc} (stage : ∀ v, Q v → pc.Stage c v) :
    Inv { s with mem := m, job := Function.update s.job w pc } k l place := by
  obtain ⟨accepted, others, done, -⟩ := work
  obtain ⟨at_c, -⟩ := h.shows_of_run run
  have only (d : ℕ) (hd : d ≠ c) : place d ≠ some (.worker w) := fun e => by
    have holds := (h.holds d (.worker w)).mpr e
    simp only [State.Holds, run, carries, Option.some.injEq] at holds
    exact hd holds.symm
  have moved := h.move (u := { s with mem := m, job := Function.update s.job w pc }) c
    (some (.worker w)) h.fault h.coherent (fun o => ?_) (fun d _ o => ?_) (fun d o hd => ?_) ?_
    (fun d hd old => ?_) h.caller (fun v hv => ?_)
  · rwa [← at_c, Function.update_eq_self] at moved
  · exact (h.holds c o).trans (by rw [at_c])
  · cases o <;> rfl
  · rcases hd with ⟨rfl, -⟩ | hd
    · exact accepted ▸ h.bound _ _ at_c
    · exact accepted ▸ hd
  · simp only [State.Account, run, workerStage, Function.update_self]
    exact done.imp stage
  · refine old.of_same (others d hd) (by rw [← accepted]) (fun _ => rfl) (fun v e => ?_) id
    have hv : v ≠ w := fun hvw => only d hd (hvw ▸ e)
    simp [hv]
  · have hvw : v ≠ w := fun e => hv c (e ▸ run)
    simpa [hvw] using h.job v hv

/-- `server_job_function` returns: nobody holds the connection any more. -/
theorem Inv.jobReturn (h : Inv s k l place) {w : Fin n} (run : s.queue.pc w = .run c)
    (at_end : s.job w = .returned) (touched : List (Kind × ℕ)) :
    ∃ k', Inv { s with
      queue := s.queue.goto w .lock
      mem := { s.mem with touched := touched }
      job := Function.update s.job w .load } k' l (Function.update place c none) := by
  obtain ⟨at_c, shows⟩ := h.shows_of_run run
  have only (d : ℕ) (hd : d ≠ c) : place d ≠ some (.worker w) := fun e => by
    have holds := (h.holds d (.worker w)).mpr e
    simp only [State.Holds, run, carries, Option.some.injEq] at holds
    exact hd holds.symm
  obtain ⟨k', l', coherent, -, change⟩ := (Step.jobReturns c run).coherent h.coherent trivial
  have hl : l' = l := by
    have jobs := (change.resolve_left fun hd => hd.1).2
    simpa [Workqueue.State.added, Workqueue.State.removed] using jobs.symm
  subst hl
  refine ⟨k', h.move c none h.fault coherent (fun o => ?_) (fun d hd o => ?_) (fun d o hd => ?_) ?_
    (fun d hd old => ?_) h.caller (fun v hv => ?_)⟩
  · refine iff_of_false (fun ho => ?_) (by simp)
    cases o with
    | worker v =>
      by_cases hv : v = w
      · subst hv
        simp [State.Holds, carries] at ho
      · have old : s.Holds l' c (.worker v) := by simpa [State.Holds, hv] using ho
        have same := h.unique old ((h.holds c (.worker w)).mpr at_c)
        exact hv (by simpa using same)
    | accept =>
      exact absurd (h.unique (o := .accept) ho ((h.holds c (.worker w)).mpr at_c)) (by simp)
    | queue =>
      exact absurd (h.unique (o := .queue) ho ((h.holds c (.worker w)).mpr at_c)) (by simp)
  · cases o with
    | worker v =>
      by_cases hv : v = w
      · subst hv
        simp [State.Holds, carries, run, Ne.symm hd]
      · simp [State.Holds, hv]
    | accept => rfl
    | queue => rfl
  · rcases hd with ⟨-, hd⟩ | hd
    · cases hd
    · exact hd
  · rw [at_end] at shows
    simp only [State.Account, h.bound c _ at_c, if_true]
    exact .inl ((Mem.Shows.frame shows (sameAt_touched _ _ _)).imp fun _ left => ⟨_, left⟩)
  · refine old.of_same (sameAt_touched _ _ _) Iff.rfl (fun _ => rfl) (fun v e => ?_) id
    have hv : v ≠ w := fun hvw => only d hd (hvw ▸ e)
    simp [hv]
  · by_cases hvw : v = w
    · subst hvw; simp
    · simpa [hvw] using h.job v (by simpa [hvw] using hv)

/-! ## The queue -/

/-- The job blocks that a step of the queue uses are in use. -/
theorem Mem.Shows.live {m : Mem} (h : m.Shows c P) (hp : ∀ v, P v → Ready c v ∨ HungUp c v)
    (kind : Kind) : (m.conn c).block kind = .live := by
  obtain ⟨v, ⟨conn, -⟩, hv⟩ := h
  rw [conn]
  exact (served_contents (hp v hv)).1 kind

theorem Inv.accepting_of_add (h : Inv s k l place) {c : Unit} {j : ℕ}
    (at_add : s.queue.caller c = .add j) : s.accept = .adding j ∧ s.Holds l j .accept := by
  have adding : s.accept = .adding j := h.caller j (by simp [at_add, callerJob])
  exact ⟨adding, by simp [State.Holds, State.accepting, adding, at_add, beforeAdd]⟩

theorem Inv.mayUse_of_jobsTouched (h : Inv s k l place) (a : Workqueue.Action n Unit ℕ) :
    ∀ j ∈ jobsTouched s.queue a, s.MayUse j (.queue a) := by
  intro j hj
  cases a with
  | caller c signalled =>
    cases hc : s.queue.caller c with
    | add i =>
      obtain rfl : j = i := by simpa [jobsTouched, hc] using hj
      exact (h.heldBy_iff j .accept).mpr (h.accepting_of_add hc).2
    | _ => simp [jobsTouched, hc] at hj
  | worker w =>
    cases hw : s.queue.pc w with
    | takeJob =>
      cases head : s.queue.waitingJobs with
      | none => simp [jobsTouched, hw, head] at hj
      | some i =>
        refine .inr ⟨(h.heldBy_iff j .queue).mpr ?_, ?_⟩
        · refine (head ▸ h.coherent.jobs).llRemoveWrites_subset j ?_
          simpa [jobsTouched, hw, head] using hj
        · exact (h.coherent.owned (.worker w)).mpr
            (by simp [Workqueue.State.holdsLock, hw, WorkerPc.holdsLock])
    | testJob job =>
      cases job with
      | none => simp [jobsTouched, hw] at hj
      | some i =>
        obtain rfl : j = i := by simpa [jobsTouched, hw] using hj
        exact .inl ((h.heldBy_iff j (.worker w)).mpr (by simp [State.Holds, hw, carries]))
    | _ => simp [jobsTouched, hw] at hj
  | _ => simp [jobsTouched] at hj

theorem Inv.jobs_live (h : Inv s k l place) (a : Workqueue.Action n Unit ℕ) :
    ∀ j ∈ jobsTouched s.queue a, (s.mem.conn j).block .job = .live := by
  intro j hj
  cases a with
  | caller c signalled =>
    cases hc : s.queue.caller c with
    | add i =>
      obtain ⟨adding, mine⟩ := h.accepting_of_add hc
      have shows := h.account i
      rw [(h.holds i .accept).mp mine] at shows
      simp only [State.Account, adding, AcceptPc.Stage] at shows
      obtain rfl : j = i := by simpa [jobsTouched, hc] using hj
      exact shows.live (fun _ => .inl) .job
    | _ => simp [jobsTouched, hc] at hj
  | worker w =>
    cases hw : s.queue.pc w with
    | takeJob =>
      cases head : s.queue.waitingJobs with
      | none => simp [jobsTouched, hw, head] at hj
      | some i =>
        have waiting : j ∈ l := by
          refine (head ▸ h.coherent.jobs).llRemoveWrites_subset j ?_
          simpa [jobsTouched, hw, head] using hj
        have shows := h.account j
        rw [(h.holds j .queue).mp waiting] at shows
        exact Mem.Shows.live shows (fun _ => .inl) .job
    | testJob job =>
      cases job with
      | none => simp [jobsTouched, hw] at hj
      | some i =>
        obtain rfl : j = i := by simpa [jobsTouched, hw] using hj
        have shows := h.account j
        rw [(h.holds j (.worker w)).mp (by simp [State.Holds, hw, carries])] at shows
        simp only [State.Account, hw, workerStage] at shows
        exact shows.live (fun _ => .inl) .job
    | _ => simp [jobsTouched, hw] at hj
  | _ => simp [jobsTouched] at hj

end JiaTuanServer.Server

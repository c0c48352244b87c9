import JiaTuanServer.Server.Invariant

/-!
# The steps of the queue inside the server

A step of the queue leaves the contents of every block alone. It hands a connection from the accept
thread to the queue when `LL_ADD` inserts its job, from the queue to a worker when `LL_REMOVE`
takes the job, and from the queue to nobody when `workqueue_shutdown` drops the waiting jobs.
-/

namespace JiaTuanServer.Server

open Transition Workqueue LocalTriple

variable {n : ℕ} {s u : State n} {k k' : ℕ} {l : List ℕ} {place : ℕ → Option (Owner n)} {c d : ℕ}
  {a : Workqueue.Action n Unit ℕ} {q : Workqueue.State n Unit ℕ}

/-- The worker carries the same job as before, and goes on running it if it did. -/
def SameLoad (pc pc' : WorkerPc ℕ) : Prop :=
  carries pc' = carries pc ∧ ∀ j, pc = .run j → pc' = .run j

theorem SameLoad.refl (pc : WorkerPc ℕ) : SameLoad pc pc := ⟨rfl, fun _ => id⟩

theorem SameLoad.stage {pc pc' : WorkerPc ℕ} {job : JobPc} (h : SameLoad pc pc')
    (hc : carries pc = some c) (early : (∀ j, pc ≠ .run j) → job = .load) :
    workerStage c pc' job = workerStage c pc job := by
  obtain ⟨same, running⟩ := h
  cases pc with
  | run j => rw [running j rfl]
  | unlock j | testJob j =>
    rw [early (by simp)]
    cases pc' <;> rfl
  | _ => simp [carries] at hc

theorem sameLoad_update {f : Fin n → WorkerPc ℕ} {w : Fin n} {pc : WorkerPc ℕ}
    (h : SameLoad (f w) pc) (v : Fin n) : SameLoad (f v) (Function.update f w pc v) := by
  by_cases hv : v = w
  · subst hv; simpa using h
  · simpa [hv] using SameLoad.refl (f v)

theorem sameLoad_wakeAll {q : Workqueue.State n Unit ℕ} {ws : Finset (Fin n)}
    (hws : ws ⊆ q.sleepers) (v : Fin n) : SameLoad (q.pc v) ((q.wakeAll ws).pc v) := by
  by_cases hv : v ∈ ws
  · simp [hv, mem_sleepers.mp (hws hv), SameLoad, carries]
  · simpa [hv] using SameLoad.refl (q.pc v)

/-- Only `LL_REMOVE` changes what a worker carries, and only the return of the job function ends
it. -/
theorem sameLoad_of_step (st : Step s.queue a q) (internal : ofQueue a = true)
    (kept : s.queue.removed a = none) (workers : Workers s.queue k) (w : Fin n) :
    SameLoad (s.queue.pc w) (q.pc w) := by
  cases st with
  | @worker v q st =>
    cases st with
    | acquire at_lock unowned =>
      refine sameLoad_update ?_ w
      rcases at_lock with e | e <;> simp [e, SameLoad, carries]
    | take job at_take head => simp [Workqueue.State.removed, at_take, head] at kept
    | _ => exact sameLoad_update (by simp [*, SameLoad, carries]) w
  | init st =>
    cases st with
    | create i at_create =>
      exact sameLoad_update (by simp [workers.notStarted at_create, SameLoad, carries]) w
    | _ => exact .refl _
  | wake at_wait => exact sameLoad_update (by simp [at_wait, SameLoad, carries]) w
  | caller st =>
    cases st with
    | signal job at_signal waiting one => exact sameLoad_wakeAll waiting w
    | _ => exact .refl _
  | shutdown st =>
    cases st with
    | broadcast at_broadcast => exact sameLoad_wakeAll subset_rfl w
    | _ => exact .refl _
  | jobReturns job at_run => simp [ofQueue] at internal
  | call started at_idle => simp [ofQueue] at internal
  | reuse => simp [ofQueue] at internal
  | callShutdown started at_start => exact .refl _

/-- The state after a step of the queue. -/
def State.withQueue (s : State n) (q : Workqueue.State n Unit ℕ) (touched : List (Kind × ℕ)) :
    State n := { s with queue := q, mem := { s.mem with touched := touched } }

/-- A step of the queue runs to its end and leaves the contents of memory alone. -/
theorem Inv.queueStep_eq (h : Inv s k l place) (internal : ofQueue a = true)
    (taken : Workqueue.step s.queue a = some q) : ∃ touched,
      queueStep s a = some (s.withQueue q touched) ∧
      ∀ x ∈ touched, x.2 ∈ jobsTouched s.queue a := by
  obtain ⟨touched, run, only⟩ := accessJobs_run (m := { s.mem with touched := [] }) (h.jobs_live a)
  refine ⟨touched, ?_, fun x hx => (only x hx).resolve_left (by simp)⟩
  simp only [queueStep, internal, if_true, taken, Option.bind_some, perform, run]
  rfl

/-- The accept thread adds a job only before the queue has it. -/
theorem Inv.ownsBlock (h : Inv s k l place) (internal : ofQueue a = true) :
    s.queue.OwnsBlock a := by
  cases a with
  | caller c signalled =>
    intro j at_add waiting
    obtain ⟨-, mine⟩ := h.accepting_of_add at_add
    have queued : s.Holds l j .queue :=
      (Workqueue.State.inQueue_iff h.coherent.jobs.chain j).mp waiting
    exact absurd (h.unique mine queued) (by simp)
  | reuse j prev next => simp [ofQueue] at internal
  | _ => trivial

theorem dropped_mono (st : Step s.queue a q) (h : dropped s.queue.shutdown = true) :
    dropped q.shutdown = true := by
  cases st with
  | shutdown st =>
    cases st <;> simp_all [dropped]
  | init st => cases st <;> exact h
  | worker st => cases st <;> exact h
  | caller st => cases st <;> exact h
  | callShutdown started at_start => simp [at_start, dropped] at h
  | _ => exact h

/-- The account of a connection that the step does not hand over. -/
theorem Inv.account_withQueue (h : Inv s k l place) (st : Step s.queue a q)
    (load : ∀ w, place d = some (.worker w) → SameLoad (s.queue.pc w) (q.pc w))
    (touched : List (Kind × ℕ)) : (s.withQueue q touched).Account d (place d) := by
  refine (h.account d).of_same (sameAt_touched _ _ _) Iff.rfl (fun _ => rfl) (fun w hw => ?_)
    (dropped_mono st)
  exact (load w hw).stage ((h.holds d (.worker w)).mpr hw) (h.job w)

theorem job_withQueue (h : Inv s k l place)
    (load : ∀ w j, s.queue.pc w = .run j → q.pc w = .run j) (w : Fin n)
    (hw : ∀ j, q.pc w ≠ .run j) : s.job w = .load :=
  h.job w fun j hj => hw j (load w j hj)

/-- A step that hands nothing over. -/
theorem Inv.queueSame (h : Inv s k l place) (st : Step s.queue a q) (coherent : Coherent q k' l)
    (load : ∀ w, SameLoad (s.queue.pc w) (q.pc w))
    (before : beforeAdd (q.caller ()) = beforeAdd (s.queue.caller ()))
    (caller : ∀ j, callerJob (q.caller ()) = some j → callerJob (s.queue.caller ()) = some j)
    (touched : List (Kind × ℕ)) : Inv (s.withQueue q touched) k' l place := by
  refine ⟨h.fault, coherent, fun d o => ?_, h.bound,
    fun d => h.account_withQueue st (fun w _ => load w) touched,
    fun j hj => h.caller j (caller j hj), fun w hw => ?_⟩
  · rw [← h.holds d o]
    cases o with
    | accept =>
      have same : (s.withQueue q touched).accepting = s.accepting := by
        simp only [State.accepting, State.withQueue, before]
      change (s.withQueue q touched).accepting = some d ↔ s.accepting = some d
      rw [same]
    | queue => rfl
    | worker w =>
      change carries (q.pc w) = some d ↔ carries (s.queue.pc w) = some d
      rw [(load w).1]
  · exact job_withQueue h (fun w => (load w).2) w hw

/-- `LL_REMOVE` hands the head of the queue to the worker. -/
theorem Inv.take (h : Inv s k l place) {w : Fin n} {j : ℕ} {l' : List ℕ} (st : Step s.queue a q)
    (at_take : s.queue.pc w = .takeJob) (coherent : Coherent q k' l') (hl : l = j :: l')
    (hpc : q.pc = Function.update s.queue.pc w (.unlock (some j)))
    (hc : q.caller = s.queue.caller) (touched : List (Kind × ℕ)) :
    Inv (s.withQueue q touched) k' l' (Function.update place j (some (.worker w))) := by
  have queued : s.Holds l j .queue := by simp [State.Holds, hl]
  have fresh : j ∉ l' := by
    have nodup := hl ▸ h.coherent.jobs.chain.nodup
    exact (List.nodup_cons.mp nodup).1
  have accepting : (s.withQueue q touched).accepting = s.accepting := by
    simp only [State.accepting, State.withQueue, hc]
  have load (v : Fin n) (hv : v ≠ w) : q.pc v = s.queue.pc v := by simp [hpc, hv]
  have mine : carries (q.pc w) = some j := by simp [hpc, carries]
  refine h.move j (some (.worker w)) h.fault coherent (fun o => ?_) (fun d hd o => ?_)
    (fun d o hd => ?_) ?_ (fun d hd _ => ?_) (fun i hi => h.caller i ?_) (fun v hv => ?_)
  · cases o with
    | accept =>
      change (s.withQueue q touched).accepting = some j ↔ _
      rw [accepting]
      refine iff_of_false (fun ho => ?_) (by simp)
      exact absurd (h.unique (o := .accept) ho queued) (by simp)
    | queue => exact iff_of_false fresh (by simp)
    | worker v =>
      change carries (q.pc v) = some j ↔ _
      by_cases hv : v = w
      · subst hv; simp [mine]
      · rw [load v hv]
        refine iff_of_false (fun ho => ?_) (by simpa using Ne.symm hv)
        exact absurd (h.unique (o := .worker v) ho queued) (by simp)
  · cases o with
    | accept =>
      change (s.withQueue q touched).accepting = some d ↔ s.accepting = some d
      rw [accepting]
    | queue => simp [State.Holds, hl, hd]
    | worker v =>
      change carries (q.pc v) = some d ↔ carries (s.queue.pc v) = some d
      by_cases hv : v = w
      · subst hv
        rw [mine, at_take]
        simp [carries, Ne.symm hd]
      · rw [load v hv]
  · rcases hd with ⟨rfl, -⟩ | hd
    · exact h.bound d .queue ((h.holds d .queue).mp queued)
    · exact hd
  · have ready := h.account j
    rw [(h.holds j .queue).mp queued] at ready
    have stage : workerStage j (q.pc w) (s.job w) = Ready j := by simp [hpc, workerStage]
    change s.mem.Shows j (Ready j) at ready
    change Mem.Shows _ j (workerStage j (q.pc w) (s.job w))
    rw [stage]
    exact ready.frame (sameAt_touched _ _ _)
  · refine h.account_withQueue st (fun v hv => ?_) touched
    have hvw : v ≠ w := fun e => by
      have holds := (h.holds d (.worker v)).mpr hv
      simp [State.Holds, e, at_take, carries] at holds
    rw [load v hvw]
    exact .refl _
  · exact hc ▸ hi
  · refine job_withQueue h (fun v i hi => ?_) v hv
    have hvw : v ≠ w := fun e => by simp [e, at_take] at hi
    exact (load v hvw).trans hi

/-- `LL_ADD` hands the connection of `on_accept` to the queue. -/
theorem Inv.add (h : Inv s k l place) {j : ℕ} (st : Step s.queue a q)
    (at_add : s.queue.caller () = .add j) (coherent : Coherent q k' (j :: l))
    (hpc : q.pc = s.queue.pc) (hc : q.caller () = .signal j) (touched : List (Kind × ℕ)) :
    Inv (s.withQueue q touched) k' (j :: l) (Function.update place j (some .queue)) := by
  obtain ⟨adding, mine⟩ := h.accepting_of_add at_add
  change s.accepting = some j at mine
  have after : (s.withQueue q touched).accepting = none := by
    simp [State.accepting, State.withQueue, adding, hc, beforeAdd]
  refine h.move j (some .queue) h.fault coherent (fun o => ?_) (fun d hd o => ?_)
    (fun d o hd => ?_) ?_ (fun d hd _ => ?_) (fun i hi => ?_) (fun v hv => ?_)
  · cases o with
    | accept =>
      change (s.withQueue q touched).accepting = some j ↔ _
      simp [after]
    | queue => simp [State.Holds]
    | worker v =>
      change carries (q.pc v) = some j ↔ _
      rw [hpc]
      refine iff_of_false (fun ho => ?_) (by simp)
      have same : Owner.worker v = .accept := h.unique ho mine
      exact absurd same (by simp)
  · cases o with
    | accept =>
      change (s.withQueue q touched).accepting = some d ↔ s.accepting = some d
      simp [after, mine, Ne.symm hd]
    | queue => simp [State.Holds, hd]
    | worker v =>
      change carries (q.pc v) = some d ↔ carries (s.queue.pc v) = some d
      rw [hpc]
  · rcases hd with ⟨rfl, -⟩ | hd
    · exact h.bound d .accept ((h.holds d .accept).mp mine)
    · exact hd
  · have ready := h.account j
    rw [(h.holds j .accept).mp mine] at ready
    simp only [State.Account, adding, AcceptPc.Stage] at ready
    exact Mem.Shows.frame ready (sameAt_touched _ _ _)
  · exact h.account_withQueue st (fun v _ => by rw [hpc]; exact .refl _) touched
  · change callerJob (q.caller ()) = some i at hi
    rw [hc] at hi
    cases hi
    exact adding
  · exact job_withQueue h (fun v i hi => (congrFun hpc v).trans hi) v hv

/-- `workqueue_shutdown` drops the waiting jobs: nobody holds their connections any more. -/
theorem Inv.drop (h : Inv s k l place) (st : Step s.queue a q) (coherent : Coherent q k' [])
    (hpc : q.pc = s.queue.pc) (hc : q.caller = s.queue.caller) (late : dropped q.shutdown = true)
    (touched : List (Kind × ℕ)) :
    Inv (s.withQueue q touched) k' []
      (fun d => if place d = some .queue then none else place d) := by
  have accepting : (s.withQueue q touched).accepting = s.accepting := by
    simp only [State.accepting, State.withQueue, hc]
  refine ⟨h.fault, coherent, fun d o => ?_, fun d o hd => ?_, fun d => ?_,
    fun i hi => h.caller i (hc ▸ hi), fun v hv => ?_⟩
  · have old := h.holds d o
    by_cases queued : place d = some .queue
    · rw [if_pos queued]
      refine iff_of_false (fun ho => ?_) (by simp)
      cases o with
      | accept =>
        change (s.withQueue q touched).accepting = some d at ho
        rw [accepting] at ho
        have same := old.mp ho
        simp [queued] at same
      | queue => cases ho
      | worker w =>
        change carries (q.pc w) = some d at ho
        rw [hpc] at ho
        have same := old.mp ho
        simp [queued] at same
    · rw [if_neg queued, ← old]
      cases o with
      | accept =>
        change (s.withQueue q touched).accepting = some d ↔ s.accepting = some d
        rw [accepting]
      | queue => exact iff_of_false (by simp [State.Holds]) fun ho => queued (old.mp ho)
      | worker w =>
        change carries (q.pc w) = some d ↔ carries (s.queue.pc w) = some d
        rw [hpc]
  · by_cases queued : place d = some .queue
    · simp [queued] at hd
    · exact h.bound d o (by simpa [queued] using hd)
  · have kept := h.account_withQueue (d := d) st (fun w _ => by rw [hpc]; exact .refl _) touched
    by_cases queued : place d = some .queue
    · rw [if_pos queued]
      rw [queued] at kept
      have lt : d < (s.withQueue q touched).mem.accepted := h.bound d .queue queued
      simp only [State.Account, lt, if_true]
      exact .inr ⟨late, kept⟩
    · rwa [if_neg queued]
  · exact job_withQueue h (fun v i hi => (congrFun hpc v).trans hi) v hv

/-- Every step that the queue takes by itself keeps the invariant. -/
theorem Inv.queue (h : Inv s k l place) (st : Step s.queue a q) (internal : ofQueue a = true)
    (touched : List (Kind × ℕ)) :
    ∃ k' l' place', Inv (s.withQueue q touched) k' l' place' := by
  obtain ⟨k', l', coherent, -, change⟩ := st.coherent h.coherent (h.ownsBlock internal)
  -- most steps hand nothing over
  have stay (kept : s.queue.removed a = none) (added : s.queue.added a = none)
      (keeps : ¬ s.queue.drops a) (caller : q.caller = s.queue.caller) :
      ∃ k' l' place', Inv (s.withQueue q touched) k' l' place' := by
    have jobs := (change.resolve_left fun hd => keeps hd.1).2
    obtain rfl : l' = l := by simpa [kept, added] using jobs.symm
    have load := sameLoad_of_step st internal kept h.coherent.workers
    exact ⟨k', l', place, h.queueSame st coherent load (by rw [caller])
      (by rw [caller]; exact fun _ => id) touched⟩
  have st' := st
  cases st with
  | @worker w q st =>
    cases st with
    | take j at_take head =>
      have jobs := (change.resolve_left fun hd => hd.1).2
      have hl : l = j :: l' := by
        simpa [Workqueue.State.removed, Workqueue.State.added, at_take, head] using jobs
      exact ⟨k', l', _, h.take st' at_take coherent hl rfl rfl touched⟩
    | acquire at_lock unowned =>
      exact stay (by rcases at_lock with e | e <;> simp [Workqueue.State.removed, e]) rfl id rfl
    | _ => exact stay (by simp [Workqueue.State.removed, *]) rfl id rfl
  | @caller c signalled q st =>
    have quiet {pc pc' : CallerPc ℕ} (at_pc : s.queue.caller c = pc)
        (at_pc' : q.caller = Function.update s.queue.caller c pc')
        (added : s.queue.added (.caller c signalled : Workqueue.Action n Unit ℕ) = none)
        (before : beforeAdd pc' = beforeAdd pc)
        (job : ∀ j, callerJob pc' = some j → callerJob pc = some j) :
        ∃ k' l' place', Inv (s.withQueue q touched) k' l' place' := by
      have jobs := (change.resolve_left fun hd => hd.1).2
      obtain rfl : l' = l := by simpa [added, Workqueue.State.removed] using jobs.symm
      have now : q.caller () = pc' := by rw [at_pc']; simp
      exact ⟨k', l', place, h.queueSame st' coherent
        (sameLoad_of_step st' internal rfl h.coherent.workers) (by rw [now, before, at_pc])
        (by rw [now, at_pc]; exact job) touched⟩
    cases st with
    | add j at_add =>
      have jobs := (change.resolve_left fun hd => hd.1).2
      obtain rfl : l' = j :: l := by
        simpa [Workqueue.State.removed, Workqueue.State.added, at_add] using jobs.symm
      exact ⟨k', _, _, h.add st' at_add coherent rfl (by simp) touched⟩
    | acquire j at_lock unowned =>
      exact quiet at_lock rfl (by simp [Workqueue.State.added, at_lock]) rfl fun _ => id
    | signal j at_signal waiting one =>
      exact quiet at_signal rfl (by simp [Workqueue.State.added, at_signal]) rfl fun _ => id
    | release j at_unlock =>
      exact quiet at_unlock rfl (by simp [Workqueue.State.added, at_unlock]) rfl
        (by simp [callerJob])
  | shutdown st =>
    cases st with
    | clearJobs at_clear =>
      have none : l' = [] := by
        rcases change with ⟨-, hl⟩ | ⟨keeps, -⟩
        · exact hl
        · exact absurd at_clear keeps
      subst none
      exact ⟨k', [], _, h.drop st' coherent rfl rfl rfl touched⟩
    | _ => exact stay rfl rfl (by simp [Workqueue.State.drops, *]) rfl
  | init st => cases st <;> exact stay rfl rfl id rfl
  | wake at_wait => exact stay rfl rfl id rfl
  | callShutdown started at_start => exact stay rfl rfl id rfl
  | _ => simp [ofQueue] at internal

end JiaTuanServer.Server

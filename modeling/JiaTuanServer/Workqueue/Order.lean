import JiaTuanServer.Workqueue.HandOff

/-!
# The order in which jobs are taken

`LL_ADD` inserts at the head of `waiting_jobs` and a worker removes the head, so the job list is a
stack: `Stacked` reads off the history of a run when each waiting job was added. Jobs are taken in
the order of their addition exactly in the runs where no worker ever has a choice.
-/

namespace JiaTuanServer.Workqueue

open Transition Linked Machine

variable {n : ℕ} {κ J : Type}

/-- The jobs that the workers removed, in order. -/
def taken (tr : List (State n κ J × Action n κ J)) : List J := (removals tr).map Prod.snd

/-- When `b` is added while `a` waits, `a` is taken before `b`. -/
def InArrivalOrder (tr : List (State n κ J × Action n κ J)) : Prop :=
  ∀ p x q y r z t a b, tr = p ++ x :: q ++ y :: r ++ z :: t →
    x.1.added x.2 = some a → a ∉ taken q → y.1.added y.2 = some b →
    b ∉ taken r → (z.1.removed z.2).map Prod.snd = some b → a ∈ taken r

/-- While a job waits, no more jobs are taken than were waiting when it was added. -/
def OvertakingBounded (tr : List (State n κ J × Action n κ J)) : Prop :=
  ∀ p x r t a, tr = p ++ x :: r ++ t → x.1.added x.2 = some a → a ∉ taken r →
    ∃ l, Chain x.1.jobLinks.next x.1.waitingJobs l ∧ (taken r).length ≤ l.length

/-- A worker that takes a job takes the last one waiting. -/
def State.TakesLast (s : State n κ J) (a : Action n κ J) : Prop :=
  ∀ w j, s.removed a = some (w, j) → s.jobLinks.next j = none

/-- What a step before any shutdown does to the jobs waiting. -/
inductive State.Changes (s : State n κ J) (a : Action n κ J) : List J → List J → Prop where
  | push {j : J} {l : List J} (added : s.added a = some j) : s.Changes a l (j :: l)
  | pop {w : Fin n} {j : J} {l : List J} (removed : s.removed a = some (w, j)) :
      s.Changes a (j :: l) l
  | keep {l : List J} (added : s.added a = none) (removed : s.removed a = none) : s.Changes a l l

/-- Each job of `l` was added after the jobs behind it, and none of these was taken since. -/
def Stacked : List J → List (State n κ J × Action n κ J) → Prop
  | [], _ => True
  | j :: rest, tr => ∃ p y r, tr = p ++ y :: r ∧ y.1.added y.2 = some j ∧
      (∀ k ∈ j :: rest, k ∉ taken r) ∧ Stacked rest p

variable {tr tr' : List (State n κ J × Action n κ J)} {s u : State n κ J} {a : Action n κ J}
  {l l' : List J}

@[simp] theorem taken_append : taken (tr ++ tr') = taken tr ++ taken tr' := by
  simp [taken, removals]

theorem taken_cons (x : State n κ J × Action n κ J) :
    taken (x :: tr) = ((x.1.removed x.2).map Prod.snd).toList ++ taken tr := by
  cases h : x.1.removed x.2 <;> simp [taken, removals, h]

theorem mem_taken {j : J} :
    j ∈ taken tr ↔ ∃ x ∈ tr, (x.1.removed x.2).map Prod.snd = some j := by
  simp only [taken, removals, List.mem_map, List.mem_filterMap, Option.map_eq_some_iff]
  grind

/-- No step both adds and removes. -/
theorem State.removed_of_added {j : J} (h : s.added a = some j) : s.removed a = none := by
  cases a <;> simp_all [State.added, State.removed]

theorem State.fresh_of_added {j : J} (own : s.OwnsBlock a) (added : s.added a = some j) :
    ¬ s.InQueue j := by
  cases a with
  | caller c signalled =>
    refine own j ?_
    simp only [State.added] at added
    split at added <;> simp_all
  | _ => simp [State.added] at added

theorem State.head_of_removed {w : Fin n} {j : J} (h : s.removed a = some (w, j)) :
    s.waitingJobs = some j := by
  cases a with
  | worker v =>
    simp only [State.removed] at h
    split at h
    · obtain ⟨i, head, e⟩ := Option.map_eq_some_iff.mp h
      rw [head, (Prod.mk.inj e).2]
    · cases h
  | _ => simp [State.removed] at h

/-- The history goes on without taking any of the jobs. -/
theorem Stacked.extend (h : Stacked l tr) (kept : ∀ k ∈ l, k ∉ taken tr') :
    Stacked l (tr ++ tr') := by
  cases l with
  | nil => trivial
  | cons j rest =>
    obtain ⟨p, y, r, rfl, added, untouched, behind⟩ := h
    refine ⟨p, y, r ++ tr', by simp, added, fun k hk => ?_, behind⟩
    rw [taken_append, List.mem_append, not_or]
    exact ⟨untouched k hk, kept k hk⟩

/-- The jobs behind the newest one. -/
theorem Stacked.tail {j : J} (h : Stacked (j :: l) tr) : Stacked l tr := by
  obtain ⟨p, y, r, rfl, added, untouched, behind⟩ := h
  refine behind.extend fun k hk => ?_
  rw [taken_cons, State.removed_of_added added]
  exact untouched k (List.mem_cons_of_mem _ hk)

theorem State.JobsChange.changes (change : s.JobsChange a l l') (keeps : ¬ s.drops a) :
    s.Changes a l l' := by
  have moved := (change.resolve_left fun hd => keeps hd.1).2
  cases hadd : s.added a with
  | some j =>
    obtain rfl : l' = j :: l := by simpa [hadd, removed_of_added hadd, eq_comm] using moved
    exact .push hadd
  | none =>
    cases hrem : s.removed a with
    | some x =>
      obtain rfl : l = x.2 :: l' := by simpa [hadd, hrem] using moved
      exact .pop hrem
    | none =>
      obtain rfl : l = l' := by simpa [hadd, hrem] using moved
      exact .keep hadd hrem

theorem Stacked.snoc (h : Stacked l tr) (distinct : l.Nodup) (change : s.Changes a l l') :
    Stacked l' (tr ++ [(s, a)]) := by
  cases change with
  | push added => exact ⟨tr, (s, a), [], rfl, added, by simp [taken, removals], h⟩
  | @pop w j _ removed =>
    refine h.tail.extend fun k hk => ?_
    have other : k ≠ j := fun e => (List.nodup_cons.mp distinct).1 (e ▸ hk)
    simpa [taken, removals, removed] using other
  | keep added removed => exact h.extend (by simp [taken, removals, removed])

/-- Before any shutdown, with the jobs `l` waiting. -/
def State.Waiting (s : State n κ J) (l : List J) : Prop :=
  (∃ k, Coherent s k l) ∧ s.shutdown = .notCalled

variable [DecidableEq κ] [DecidableEq J]

theorem State.Waiting.step (h : s.Waiting l) (own : s.OwnsBlock a) (calm : NoShutdown s a)
    (took : Workqueue.step s a = some u) : ∃ l', u.Waiting l' ∧ s.Changes a l l' := by
  obtain ⟨⟨k, coherent⟩, idle⟩ := h
  have st := step_cases took
  obtain ⟨k', l', coherent', -, change⟩ := st.coherent coherent own
  have keeps : ¬ s.drops a := by cases a <;> simp [State.drops, idle]
  exact ⟨l', ⟨⟨k', coherent'⟩, st.notCalled idle calm⟩, change.changes keeps⟩

/-- What is assumed of a run: jobs are added to a queue in service by callers that own the
blocks they add. -/
def State.InService (s : State n κ J) (a : Action n κ J) : Prop := s.OwnsBlock a ∧ NoShutdown s a

theorem stacked_of_run {s₀ : State n κ J} (initial : Initial s₀) (run : (machine n κ J).Run s₀ tr s)
    (serving : Along State.InService tr) : ∃ l, s.Waiting l ∧ Stacked l tr := by
  refine run.history (I := fun tr s => ∃ l, s.Waiting l ∧ Stacked l tr) serving ?_ ?_
  · exact ⟨[], ⟨⟨0, .of_initial initial⟩, initial.shutdown⟩, trivial⟩
  · rintro tr s a u ⟨l, waiting, stacked⟩ ⟨own, calm⟩ took
    obtain ⟨l', waiting', change⟩ := waiting.step own calm took
    obtain ⟨⟨k, coherent⟩, -⟩ := waiting
    exact ⟨l', waiting', stacked.snoc coherent.jobs.chain.nodup change⟩

/-- A job waits until a worker takes it. -/
theorem State.Waiting.stays {j : J} (h : s.Waiting l) (hj : j ∈ l)
    (run : (machine n κ J).Run s tr u) (serving : Along State.InService tr)
    (untouched : j ∉ taken tr) : ∃ l', u.Waiting l' ∧ j ∈ l' := by
  refine run.history (I := fun tr s => j ∉ taken tr → ∃ l, s.Waiting l ∧ j ∈ l) serving
    (fun _ => ⟨l, h, hj⟩) ?_ untouched
  rintro tr s a u ih ⟨own, calm⟩ took untouched
  rw [taken_append, List.mem_append, not_or] at untouched
  obtain ⟨l, waiting, hj⟩ := ih untouched.1
  obtain ⟨l', waiting', change⟩ := waiting.step own calm took
  refine ⟨l', waiting', ?_⟩
  cases change with
  | push => exact List.mem_cons_of_mem _ hj
  | @pop w i _ removed =>
    have other : j ≠ i := by simpa [taken, removals, removed] using untouched.2
    exact List.mem_of_ne_of_mem other hj
  | keep => exact hj

/-- A job that was added and not taken since is waiting. -/
theorem waiting_of_added {s₀ : State n κ J} {p r : List (State n κ J × Action n κ J)}
    {x : State n κ J × Action n κ J} {j : J} (initial : Initial s₀)
    (run : (machine n κ J).Run s₀ (p ++ x :: r) u) (serving : Along State.InService (p ++ x :: r))
    (added : x.1.added x.2 = some j) (untouched : j ∉ taken r) : ∃ l, u.Waiting l ∧ j ∈ l := by
  rw [along_append] at serving
  obtain ⟨first, second⟩ := serving
  obtain ⟨before, t, took, after⟩ := run.at_step
  obtain ⟨l, waiting, -⟩ := stacked_of_run initial before first
  obtain ⟨own, calm⟩ := second x List.mem_cons_self
  obtain ⟨l', waiting', change⟩ := waiting.step own calm took
  have there : j ∈ l' := by
    cases change with
    | push this =>
      rw [Option.some.inj (added.symm.trans this)]
      exact List.mem_cons_self
    | pop removed => cases removed.symm.trans (State.removed_of_added added)
    | keep nothing => cases nothing.symm.trans added
  exact waiting'.stays there after (fun y hy => second y (List.mem_cons_of_mem _ hy)) untouched

omit [DecidableEq κ] [DecidableEq J] in
/-- The job that is taken is the newest one, and alone if it is the last. -/
theorem State.Waiting.newest {w : Fin n} {j : J} (h : s.Waiting l)
    (removed : s.removed a = some (w, j)) :
    ∃ rest, l = j :: rest ∧ (s.jobLinks.next j = none ↔ rest = []) := by
  obtain ⟨⟨k, coherent⟩, -⟩ := h
  have jobs := coherent.jobs.chain
  rw [State.head_of_removed removed] at jobs
  obtain ⟨rest, rfl, behind⟩ := jobs.of_some
  refine ⟨rest, rfl, fun last => ?_, fun nothing => ?_⟩
  · rw [last] at behind
    exact behind.of_none
  · subst nothing
    exact behind

/-- In a run in arrival order nothing waits behind a job that is taken: it would be older. -/
theorem takesLast_of_inArrivalOrder {s₀ : State n κ J} (initial : Initial s₀)
    (run : (machine n κ J).Run s₀ tr s) (serving : Along State.InService tr)
    (order : InArrivalOrder tr) : Along State.TakesLast tr := by
  intro z hz w j removed
  obtain ⟨tr₁, t, rfl⟩ := List.append_of_mem hz
  obtain ⟨before, -⟩ := run.at_step
  obtain ⟨l, waiting, stacked⟩ := stacked_of_run initial before ((along_append _ _ _).mp serving).1
  obtain ⟨rest, rfl, last⟩ := waiting.newest removed
  rw [last]
  cases rest with
  | nil => rfl
  | cons i rest =>
    obtain ⟨_, y, r, rfl, added, untouched, p, x, q, rfl, added', untouched', -⟩ := stacked
    have early : i ∈ taken r := by
      refine order p x q y r z t i j (by simp) added' ?_ added ?_ (by rw [removed]; rfl)
      · exact untouched' i List.mem_cons_self
      · exact untouched j List.mem_cons_self
    exact absurd early (untouched i (by simp))

/-- Where only last jobs are taken, nothing is taken past a job that waits. -/
theorem taken_of_takesLast {s₀ : State n κ J} {p r : List (State n κ J × Action n κ J)}
    {x z : State n κ J × Action n κ J} {i j : J} (initial : Initial s₀)
    (run : (machine n κ J).Run s₀ (p ++ x :: r) z.1)
    (serving : Along State.InService (p ++ x :: r)) (last : z.1.TakesLast z.2)
    (added : x.1.added x.2 = some i) (removed : (z.1.removed z.2).map Prod.snd = some j)
    (untouched : i ∉ taken r) : i = j := by
  obtain ⟨l, waiting, hi⟩ := waiting_of_added initial run serving added untouched
  obtain ⟨⟨w, _⟩, took, rfl⟩ := Option.map_eq_some_iff.mp removed
  obtain ⟨rest, rfl, alone⟩ := waiting.newest took
  rw [alone.mp (last w _ took)] at hi
  exact List.mem_singleton.mp hi

/-- Jobs are taken in the order in which they were added, and so at most as many of them between
the addition of a job and its removal as were waiting before it, exactly when no worker takes a
job while another one waits. -/
theorem jobs_taken_in_arrival_order_iff {s₀ : State n κ J} (initial : Initial s₀)
    (run : (machine n κ J).Run s₀ tr s) (own : Along State.OwnsBlock tr)
    (calm : Along NoShutdown tr) :
    InArrivalOrder tr ∧ OvertakingBounded tr ↔ Along State.TakesLast tr := by
  have serving : Along State.InService tr := fun x hx => ⟨own x hx, calm x hx⟩
  refine ⟨fun ⟨order, _⟩ => takesLast_of_inArrivalOrder initial run serving order, fun last => ?_⟩
  constructor
  · rintro p x q y r z t i j rfl added kept added' kept' removed
    by_contra untouched
    have split : p ++ x :: q ++ y :: r ++ z :: t = p ++ x :: (q ++ y :: r) ++ z :: t := by simp
    rw [split] at run serving last
    have serving₁ := ((along_append _ _ _).mp serving).1
    have between : i ∉ taken (q ++ y :: r) := by
      simp [taken_cons, State.removed_of_added added', kept, untouched]
    -- the older job waits when the newer one is taken, so they are one job, added while it waits
    obtain rfl : i = j := taken_of_takesLast initial run.at_step.1 serving₁
      (last z (by simp)) added removed between
    rw [← List.cons_append, ← List.append_assoc] at run serving₁
    obtain ⟨older, newer⟩ := (along_append _ _ _).mp serving₁
    obtain ⟨l, waiting, hi⟩ := waiting_of_added initial run.at_step.1.at_step.1 older added kept
    obtain ⟨⟨k, coherent⟩, -⟩ := waiting
    refine State.fresh_of_added (newer y List.mem_cons_self).1 added' ⟨l, coherent.jobs.chain, hi⟩
  · rintro p x r t i rfl added untouched
    rw [List.append_assoc, List.cons_append] at run serving last
    have before := ((along_append _ _ _).mp serving).1
    obtain ⟨l, waiting, -⟩ := stacked_of_run initial run.at_step.1 before
    obtain ⟨⟨k, coherent⟩, -⟩ := waiting
    have nothing : taken r = [] := by
      refine List.eq_nil_iff_forall_not_mem.mpr fun j hj => ?_
      obtain ⟨z, hz, removed⟩ := mem_taken.mp hj
      obtain ⟨r₁, r₂, rfl⟩ := List.append_of_mem hz
      have split : p ++ x :: (r₁ ++ z :: r₂ ++ t) = p ++ x :: r₁ ++ z :: (r₂ ++ t) := by simp
      rw [split] at run serving last
      obtain rfl : i = j := taken_of_takesLast initial run.at_step.1
        ((along_append _ _ _).mp serving).1 (last z (by simp)) added removed
        fun hi => untouched (by simp [hi])
      exact untouched hj
    exact ⟨l, coherent.jobs.chain, by simp [nothing]⟩

/-- A test that settles `TakesLast` on a concrete run. -/
def takesLastTest (s : State n κ J) (a : Action n κ J) : Bool :=
  match s.removed a with
  | some (_, j) => (s.jobLinks.next j).isNone
  | none => true

omit [DecidableEq κ] [DecidableEq J] in
theorem takesLast_of_test (s : State n κ J) (a : Action n κ J) (h : takesLastTest s a = true) :
    s.TakesLast a := by
  intro w j removed
  simpa [takesLastTest, removed] using h

/-- Two workers; job 7 is added and taken, and then job 8. -/
theorem jobs_taken_in_arrival_order_twoWorkers :
    ∃ (tr : List (State 2 Unit ℕ × Action 2 Unit ℕ)) (s : State 2 Unit ℕ),
      (machine 2 Unit ℕ).Run start tr s ∧ taken tr = [7, 8] ∧
      InArrivalOrder tr ∧ OvertakingBounded tr := by
  let acts : List (Action 2 Unit ℕ) := List.flatten [
    List.replicate 5 (.init true), [.call () 7], List.replicate 4 (.caller () ∅),
    List.replicate 5 (.worker 0), [.call () 8], List.replicate 4 (.caller () ∅),
    List.replicate 5 (.worker 1)]
  have ends : ((machine 2 Unit ℕ).exec start acts).isSome = true := by decide +kernel
  obtain ⟨s, hs⟩ := Option.isSome_iff_exists.mp ends
  have own : Along State.OwnsBlock ((machine 2 Unit ℕ).trace start acts) :=
    along_of_check ownsBlock_of_addsToEmpty (by decide +kernel)
  have calm : Along NoShutdown ((machine 2 Unit ℕ).trace start acts) :=
    along_of_check noShutdown_of_test (by decide +kernel)
  have last : Along State.TakesLast ((machine 2 Unit ℕ).trace start acts) :=
    along_of_check takesLast_of_test (by decide +kernel)
  exact ⟨_, s, run_of_exec hs, by decide +kernel,
    (jobs_taken_in_arrival_order_iff start_initial (run_of_exec hs) own calm).mpr last⟩

/-- A test that settles `OwnsBlock` on runs that add to a queue of at most one other job. -/
def addsBesideOne (s : State n κ J) : Action n κ J → Bool
  | .caller c _ => match s.caller c, s.waitingJobs with
    | .add j, some head => head ≠ j ∧ s.jobLinks.next head = none
    | _, _ => true
  | .reuse _ _ _ => false
  | _ => true

omit [DecidableEq κ] in
theorem ownsBlock_of_addsBesideOne (s : State n κ J) (a : Action n κ J)
    (h : addsBesideOne s a = true) : s.OwnsBlock a := by
  cases a with
  | caller c signalled =>
    rintro j hj ⟨l, hl, hjl⟩
    cases head : s.waitingJobs with
    | none =>
      rw [head] at hl
      simp [hl.of_none] at hjl
    | some i =>
      obtain ⟨other, last⟩ : i ≠ j ∧ s.jobLinks.next i = none := by
        simpa [addsBesideOne, hj, head] using h
      rw [head] at hl
      obtain ⟨rest, rfl, behind⟩ := hl.of_some
      rw [last] at behind
      obtain rfl := behind.of_none
      exact other (List.mem_singleton.mp hjl).symm
  | reuse j prev next => simp [addsBesideOne] at h
  | _ => trivial

/-- One worker, busy elsewhere while jobs 7 and 8 are added, then takes 8 while 7 still waits. -/
theorem newer_job_taken_first :
    ∃ (tr : List (State 1 Unit ℕ × Action 1 Unit ℕ)) (s : State 1 Unit ℕ),
      (machine 1 Unit ℕ).Run start tr s ∧ Along State.OwnsBlock tr ∧ Along NoShutdown tr ∧
      ¬ InArrivalOrder tr ∧ ¬ OvertakingBounded tr := by
  let acts : List (Action 1 Unit ℕ) := List.flatten [
    List.replicate 3 (.init true), [.call () 7], List.replicate 4 (.caller () ∅),
    [.call () 8], List.replicate 4 (.caller () ∅), List.replicate 4 (.worker 0)]
  let tr := (machine 1 Unit ℕ).trace start acts
  have ends : ((machine 1 Unit ℕ).exec start acts).isSome = true := by decide +kernel
  obtain ⟨s, hs⟩ := Option.isSome_iff_exists.mp ends
  have run : (machine 1 Unit ℕ).Run start tr s := run_of_exec hs
  have own : Along State.OwnsBlock tr :=
    along_of_check ownsBlock_of_addsBesideOne (by decide +kernel)
  have calm : Along NoShutdown tr := along_of_check noShutdown_of_test (by decide +kernel)
  refine ⟨tr, s, run, own, calm, fun order => ?_, fun bounded => ?_⟩
  · have last := takesLast_of_inArrivalOrder start_initial run
      (fun x hx => ⟨own x hx, calm x hx⟩) order
    let x := tr.get ⟨16, by decide +kernel⟩
    have removed : x.1.removed x.2 = some (0, 8) := by decide +kernel
    have alone : x.1.jobLinks.next 8 = none := last x (List.get_mem _ _) 0 8 removed
    exact absurd alone (by decide +kernel)
  · let x := tr.get ⟨5, by decide +kernel⟩
    have split : tr = tr.take 5 ++ x :: tr.drop 6 ++ [] := by simp [x]
    obtain ⟨l, chain, bound⟩ := bounded _ x _ _ 7 split (by decide +kernel) (by decide +kernel)
    have empty : x.1.waitingJobs = none := by decide +kernel
    have one : (taken (tr.drop 6)).length = 1 := by decide +kernel
    rw [empty] at chain
    simp [chain.of_none, one] at bound

end JiaTuanServer.Workqueue

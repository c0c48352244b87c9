import JiaTuanServer.Workqueue.Steps

/-!
# The list of workers and the traversal of workqueue_shutdown

`workqueue_init` inserts the workers in the order in which it creates them, each in front, and
nothing changes the list before `workqueue_shutdown` empties it. So the list of `k` workers runs
from `k - 1` down to `0`, and where the traversal stands tells which `terminate` flags are set.
`Workers s k` records this together with what a thread that left its loop has done.
-/

namespace JiaTuanServer.Workqueue

open Transition

variable {n : ℕ} {κ J : Type}

/-- The head of the list that holds the first `i` workers. -/
def newest : ℕ → Option (Fin n)
  | 0 => none
  | i + 1 => if h : i < n then some ⟨i, h⟩ else none

/-- The traversal has set the flag of worker `w`. -/
def ShutdownPc.flagged : ShutdownPc n → Fin n → Prop
  | .notCalled, _ => False
  | .setTerminate v, w => v < w
  | .readNext v, w => v ≤ w
  | _, _ => True

/-- The traversal is over. -/
def ShutdownPc.traversed : ShutdownPc n → Bool
  | .notCalled | .setTerminate _ | .readNext _ => false
  | _ => true

/-- The thread has left its loop. -/
def WorkerPc.leaving : WorkerPc J → Bool
  | .free | .exit | .exited => true
  | _ => false

/-- The number of workers that `workqueue_init` has inserted, while it runs. -/
def InitPc.inserted : InitPc → Option ℕ
  | .create i => some i
  | .insert i => some i
  | .returned _ => none

theorem newest_fin (w : Fin n) : newest (w.val + 1) = some w := by simp [newest]

theorem flagged_traverse {i : ℕ} (hi : i ≤ n) (w : Fin n) :
    (ShutdownPc.traverse (newest i)).flagged w ↔ i ≤ w.val := by
  cases i with
  | zero => simp [newest, ShutdownPc.traverse, ShutdownPc.flagged]
  | succ i =>
    have hlt : i < n := by omega
    have behind : (ShutdownPc.traverse (newest (i + 1))).flagged w ↔ i < w.val := by
      simp [newest, hlt, ShutdownPc.traverse, ShutdownPc.flagged, Fin.lt_def]
    exact behind.trans Nat.lt_iff_add_one_le

/-- `k` workers are on the list, newest first; the flags are those the traversal has set; and only
flagged workers leave. -/
structure Workers (s : State n κ J) (k : ℕ) : Prop where
  bound : k ≤ n
  counted : ∀ i, s.init.inserted = some i → i = k
  started : ∀ w, s.pc w ≠ .notStarted ↔ w.val < k ∨ s.init = .insert w
  head : s.shutdown.traversed = false → s.workers = newest k
  next : ∀ w : Fin n, w.val < k → s.workerLinks.next w = newest w.val
  called : s.shutdown ≠ .notCalled → s.init.isReturned = true
  flags : ∀ w, s.terminate w = true ↔ w.val < k ∧ s.shutdown.flagged w
  cursor : ∀ w, s.shutdown = .setTerminate w ∨ s.shutdown = .readNext w → w.val < k
  leaving : ∀ w, (s.pc w).leaving = true → s.terminate w = true
  freed : ∀ w, s.freed w = true → (s.pc w).leaving = true

namespace Workers

variable {s u : State n κ J} {k : ℕ}

theorem of_initial (h : Initial s) : Workers s 0 where
  bound := Nat.zero_le n
  counted i hi := by simpa [h.init, InitPc.inserted] using hi.symm
  started w := by simp [h.pc w, h.init]
  head _ := h.workers
  next w hw := absurd hw (Nat.not_lt_zero _)
  called hc := absurd h.shutdown hc
  flags w := by simp [h.terminate w]
  cursor w hw := by simp [h.shutdown] at hw
  leaving w hw := by simp [h.pc w, WorkerPc.leaving] at hw
  freed w hw := by simp [h.freed w] at hw

/-- A step that only moves worker `w`, and not out of its loop. -/
theorem move (h : Workers s k) {w : Fin n} {p : WorkerPc J} (was : s.pc w ≠ .notStarted)
    (stays : p.leaving = true → s.terminate w = true) (on : p ≠ .notStarted)
    (keeps : (s.pc w).leaving = true → p.leaving = true)
    (hpc : u.pc = Function.update s.pc w p) (hi : u.init = s.init) (hs : u.shutdown = s.shutdown)
    (hw : u.workers = s.workers) (hl : u.workerLinks = s.workerLinks)
    (ht : u.terminate = s.terminate) (hf : ∀ v, u.freed v = true → s.freed v = true ∨
      v = w ∧ p.leaving = true) : Workers u k where
  bound := h.bound
  counted i := by rw [hi]; exact h.counted i
  started v := by
    rw [hi, hpc, ← h.started v]
    by_cases hv : v = w
    · subst hv; simp [was, on]
    · simp [hv]
  head := by rw [hs, hw]; exact h.head
  next v := by rw [hl]; exact h.next v
  called := by rw [hs, hi]; exact h.called
  flags v := by rw [ht, hs]; exact h.flags v
  cursor v := by rw [hs]; exact h.cursor v
  leaving v := by
    rw [ht, hpc]
    by_cases hv : v = w
    · subst hv; simpa using stays
    · simpa [hv] using h.leaving v
  freed v hv := by
    rw [hpc]
    by_cases hvw : v = w
    · subst hvw
      rcases hf v hv with old | ⟨-, new⟩
      · simpa using keeps (h.freed v old)
      · simpa using new
    · rcases hf v hv with old | ⟨new, -⟩
      · simpa [hvw] using h.freed v old
      · exact absurd new hvw

/-- A step that changes no program counter of a worker, no flag and no list of workers. -/
theorem same (h : Workers s k) (hpc : ∀ v, u.pc v = s.pc v ∨ s.pc v = .asleep ∧ u.pc v = .woken)
    (hi : u.init = s.init) (hs : u.shutdown = s.shutdown) (hw : u.workers = s.workers)
    (hl : u.workerLinks = s.workerLinks) (ht : u.terminate = s.terminate)
    (hf : u.freed = s.freed) : Workers u k where
  bound := h.bound
  counted i := by rw [hi]; exact h.counted i
  started v := by
    rw [hi, ← h.started v]
    rcases hpc v with e | ⟨e, e'⟩ <;> simp [*]
  head := by rw [hs, hw]; exact h.head
  next v := by rw [hl]; exact h.next v
  called := by rw [hs, hi]; exact h.called
  flags v := by rw [ht, hs]; exact h.flags v
  cursor v := by rw [hs]; exact h.cursor v
  leaving v hv := by
    rw [ht]
    rcases hpc v with e | ⟨-, e⟩
    · exact h.leaving v (e ▸ hv)
    · simp [e, WorkerPc.leaving] at hv
  freed v hv := by
    have hlv := h.freed v (hf ▸ hv)
    rcases hpc v with e | ⟨e, -⟩
    · exact e ▸ hlv
    · simp [e, WorkerPc.leaving] at hlv

theorem create (h : Workers s k) (i : Fin n) (at_create : s.init = .create i) :
    Workers { s.goto i .lock with init := .insert i } k := by
  have hk : i.val = k := h.counted i (by simp [at_create, InitPc.inserted])
  have off : s.pc i = .notStarted := by
    by_contra on
    rcases (h.started i).mp on with hlt | hins
    · omega
    · simp [at_create] at hins
  have calm : s.shutdown = .notCalled := by
    by_contra hc
    simpa [at_create, InitPc.isReturned] using h.called hc
  refine ⟨h.bound, ?_, fun w => ?_, h.head, h.next, fun hc => absurd calm hc, h.flags, h.cursor,
    fun w hw => ?_, fun w hw => ?_⟩
  · simp [InitPc.inserted, hk]
  · have hs := h.started w
    by_cases hw : w = i
    · subst hw; simp [State.goto]
    · have hne : i.val ≠ w.val := fun e => hw (Fin.ext e.symm)
      simp [State.goto, hw, hs, at_create, hne]
  · by_cases hwi : w = i
    · subst hwi; simp [State.goto, WorkerPc.leaving] at hw
    · exact h.leaving w (by simpa [State.goto, hwi] using hw)
  · by_cases hwi : w = i
    · subst hwi
      have hl := h.freed w hw
      simp [off, WorkerPc.leaving] at hl
    · simpa [State.goto, hwi] using h.freed w hw

theorem insert (h : Workers s k) (i : Fin n) (at_insert : s.init = .insert i) :
    Workers { s with workerLinks := (llAdd s.workerLinks i s.workers).1
                     workers := some i
                     init := .create (i + 1) } (k + 1) := by
  have hk : i.val = k := h.counted i (by simp [at_insert, InitPc.inserted])
  have calm : s.shutdown = .notCalled := by
    by_contra hc
    simpa [at_insert, InitPc.isReturned] using h.called hc
  have clear (w : Fin n) : s.terminate w = false := by
    simpa [calm, ShutdownPc.flagged] using h.flags w
  refine ⟨by omega, ?_, fun w => ?_, fun _ => ?_, fun w hw => ?_, fun hc => absurd calm hc,
    fun w => ?_, fun w hw => ?_, h.leaving, h.freed⟩
  · simp [InitPc.inserted, hk]
  · rw [h.started w, at_insert, ← hk]
    simp
    omega
  · rw [← hk, newest_fin]
  · by_cases hwi : w = i
    · subst hwi
      have hhead := h.head (by simp [calm, ShutdownPc.traversed])
      simp [llAdd, hhead, hk]
    · have hlt : w.val < k := by
        have : w.val ≠ i.val := fun e => hwi (Fin.ext e)
        omega
      simp [llAdd, hwi, h.next w hlt]
  · simp [clear w, calm, ShutdownPc.flagged]
  · simp [calm] at hw

variable [DecidableEq J]

omit [DecidableEq J] in
theorem init (h : Workers s k) (st : InitStep s u) :
    ∃ k', Workers u k' ∧ s.init.isReturned = false := by
  cases st with
  | create i at_create => exact ⟨k, h.create i at_create, by simp [at_create, InitPc.isReturned]⟩
  | insert i at_insert =>
    exact ⟨k + 1, h.insert i at_insert, by simp [at_insert, InitPc.isReturned]⟩
  | fail i at_create =>
    refine ⟨k, ⟨h.bound, by simp [InitPc.inserted], fun w => ?_, h.head, h.next,
      fun _ => rfl, h.flags, h.cursor, h.leaving, h.freed⟩, by simp [at_create, InitPc.isReturned]⟩
    rw [h.started w, at_create]; simp
  | done i all at_create =>
    refine ⟨k, ⟨h.bound, by simp [InitPc.inserted], fun w => ?_, h.head, h.next,
      fun _ => rfl, h.flags, h.cursor, h.leaving, h.freed⟩, by simp [at_create, InitPc.isReturned]⟩
    rw [h.started w, at_create]; simp

theorem worker (h : Workers s k) {w : Fin n} (st : WorkerStep s w u) : Workers u k := by
  cases st with
  | acquire at_lock unowned =>
    refine h.move (w := w) (p := .testJobs) ?_ ?_ ?_ ?_ rfl rfl rfl rfl rfl rfl (fun _ => .inl) <;>
      rcases at_lock with e | e <;> simp [e, WorkerPc.leaving]
  | breakOuter at_test flag =>
    refine h.move (w := w) (p := .free) ?_ ?_ ?_ ?_ rfl rfl rfl rfl rfl rfl (fun _ => .inl) <;>
      simp [at_test, WorkerPc.leaving, flag]
  | free at_free =>
    have flag := h.leaving w (by simp [at_free, WorkerPc.leaving])
    refine h.move (w := w) (p := .exit) ?_ ?_ ?_ ?_ rfl rfl rfl rfl rfl rfl (fun v hv => ?_)
    on_goal 5 =>
      by_cases hvw : v = w
      · exact .inr ⟨hvw, rfl⟩
      · exact .inl (by simpa [hvw] using hv)
    all_goals simp [at_free, WorkerPc.leaving, flag]
  | exit at_exit =>
    have flag := h.leaving w (by simp [at_exit, WorkerPc.leaving])
    refine h.move (w := w) (p := .exited) ?_ ?_ ?_ ?_ rfl rfl rfl rfl rfl rfl (fun _ => .inl) <;>
      simp [at_exit, WorkerPc.leaving, flag]
  | _ =>
    refine h.move (w := w) ?_ ?_ ?_ ?_ rfl rfl rfl rfl rfl rfl (fun _ => .inl) <;>
      simp [*, WorkerPc.leaving]

variable [DecidableEq κ]

theorem caller (h : Workers s k) {c : κ} {signalled : Finset (Fin n)}
    (st : CallerStep s c signalled u) : Workers u k := by
  cases st with
  | signal job at_signal waiting one =>
    refine h.same (fun v => ?_) rfl rfl rfl rfl rfl rfl
    by_cases hv : v ∈ signalled
    · exact .inr ⟨mem_sleepers.mp (waiting hv), by simp [State.callerGoto, State.wakeAll, hv]⟩
    · exact .inl (by simp [State.callerGoto, State.wakeAll, hv])
  | _ => exact h.same (fun _ => .inl rfl) rfl rfl rfl rfl rfl rfl

omit [DecidableEq κ] [DecidableEq J] in
theorem shutdown (h : Workers s k) (st : ShutdownStep s u) : Workers u k := by
  cases st with
  | setTerminate w at_set =>
    have hw := h.cursor w (.inl at_set)
    have ret := h.called (by simp [at_set])
    refine ⟨h.bound, h.counted, h.started, fun _ => h.head (by simp [at_set, ShutdownPc.traversed]),
      h.next, fun _ => ret, fun v => ?_, fun v hv => ?_, fun v hv => ?_, h.freed⟩
    · have old := h.flags v
      by_cases hv : v = w
      · subst hv; simp [ShutdownPc.flagged, hw]
      · have hlt : w ≤ v ↔ w < v := ⟨fun hle => lt_of_le_of_ne hle (Ne.symm hv), le_of_lt⟩
        simpa [hv, at_set, ShutdownPc.flagged, hlt] using old
    · simp at hv; exact hv ▸ hw
    · have old := h.leaving v hv
      by_cases hvw : v = w
      · simp [hvw]
      · simpa [hvw] using old
  | readNext w at_next =>
    have hw := h.cursor w (.inr at_next)
    have ret := h.called (by simp [at_next])
    have hnext := h.next w hw
    refine ⟨h.bound, h.counted, h.started,
      fun _ => h.head (by simp [at_next, ShutdownPc.traversed]), h.next, fun _ => ret,
      fun v => ?_, fun v hv => ?_, h.leaving, h.freed⟩
    · rw [h.flags v, at_next, hnext, flagged_traverse (by omega)]
      rfl
    · rw [hnext] at hv
      rcases hv' : newest (n := n) w.val with - | x
      · simp [hv', ShutdownPc.traverse] at hv
      · have hx : x.val < w.val := by
          cases hwv : w.val with
          | zero => simp [hwv, newest] at hv'
          | succ i =>
            simp only [hwv, newest] at hv'
            split at hv' <;> cases hv'
            simp
        simp [hv', ShutdownPc.traverse] at hv
        omega
  | broadcast at_broadcast =>
    have woken (v : Fin n) : (s.wakeAll s.sleepers).pc v = s.pc v ∨
        s.pc v = .asleep ∧ (s.wakeAll s.sleepers).pc v = .woken := by
      by_cases hv : v ∈ s.sleepers
      · exact .inr ⟨mem_sleepers.mp hv, by simp only [State.wakeAll, hv, if_true]⟩
      · exact .inl (by simp only [State.wakeAll, hv, if_false])
    have base : Workers (s.wakeAll s.sleepers) k := h.same woken rfl rfl rfl rfl rfl rfl
    have ret := h.called (by simp [at_broadcast])
    refine ⟨base.bound, base.counted, base.started, by simp [ShutdownPc.traversed], base.next,
      fun _ => ret, fun v => ?_, by simp, base.leaving, base.freed⟩
    simpa [at_broadcast, ShutdownPc.flagged, State.wakeAll] using base.flags v
  | _ =>
    have ret := h.called (by simp [*])
    exact ⟨h.bound, h.counted, h.started, by simp [ShutdownPc.traversed], h.next, fun _ => ret,
      fun v => by simpa [*, ShutdownPc.flagged] using h.flags v, by simp, h.leaving, h.freed⟩

/-- Every step keeps the list and the flags right, and `workqueue_init` alone adds workers. -/
theorem step (h : Workers s k) {a : Action n κ J} (st : Step s a u) :
    ∃ k', Workers u k' ∧ (s.init.isReturned = true → k' = k) := by
  cases st with
  | init st =>
    obtain ⟨k', hk, hr⟩ := h.init st
    exact ⟨k', hk, by simp [hr]⟩
  | worker st => exact ⟨k, h.worker st, fun _ => rfl⟩
  | @jobReturns w job at_run =>
    refine ⟨k, h.move (w := w) (p := .lock) ?_ ?_ ?_ ?_ rfl rfl rfl rfl rfl rfl (fun _ => .inl),
      fun _ => rfl⟩ <;> simp [at_run, WorkerPc.leaving]
  | @wake w at_wait =>
    refine ⟨k, h.move (w := w) (p := .woken) ?_ ?_ ?_ ?_ rfl rfl rfl rfl rfl rfl (fun _ => .inl),
      fun _ => rfl⟩ <;> simp [at_wait, WorkerPc.leaving]
  | call started at_idle =>
    exact ⟨k, h.same (fun _ => .inl rfl) rfl rfl rfl rfl rfl rfl, fun _ => rfl⟩
  | caller st => exact ⟨k, h.caller st, fun _ => rfl⟩
  | callShutdown started at_start =>
    have hhead := h.head (by simp [at_start, ShutdownPc.traversed])
    refine ⟨k, ⟨h.bound, h.counted, h.started, fun _ => hhead, h.next, fun _ => started,
      fun w => ?_, fun w hw => ?_, h.leaving, h.freed⟩, fun _ => rfl⟩
    · rw [h.flags w, at_start, hhead, flagged_traverse h.bound]
      simp [ShutdownPc.flagged]
    · rw [hhead] at hw
      cases k with
      | zero => simp [newest, ShutdownPc.traverse] at hw
      | succ k =>
        have hlt : k < n := h.bound
        simp only [newest, hlt, dite_true, ShutdownPc.traverse, ShutdownPc.setTerminate.injEq,
          reduceCtorEq, or_false] at hw
        subst hw
        exact Nat.lt_succ_self k
  | shutdown st => exact ⟨k, h.shutdown st, fun _ => rfl⟩
  | reuse => exact ⟨k, h.same (fun _ => .inl rfl) rfl rfl rfl rfl rfl rfl, fun _ => rfl⟩

end Workers

end JiaTuanServer.Workqueue

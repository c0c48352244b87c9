import JiaTuanServer.Server.InService

/-!
# What a number denotes

Only `accept` makes a number denote a connection; all other code can only close it. So the number
of a connection never changes while it is open.
-/

namespace JiaTuanServer.Server

open LocalTriple Workqueue

variable {α β : Type} {n : ℕ} {s u : State n}

/-- No number denotes a connection in `m'` that it does not denote in `m`. -/
def Mem.Sheds (m m' : Mem) : Prop := ∀ fd c, m'.descriptors fd = some c → m.descriptors fd = some c

/-- Code that lets no number denote another connection. -/
abbrev Shrinks (op : Op α) : Prop := Keeps Mem.Sheds op

theorem Shrinks.bind {op : Op α} {f : α → Op β} (first : Shrinks op) (rest : ∀ x, Shrinks (f x)) :
    Shrinks (op >>= f) :=
  Keeps.bind (fun _ _ _ h h' fd c e => h fd c (h' fd c e)) first rest

theorem Shrinks.pure (x : α) : Shrinks (pure x) := by
  refine Keeps.of_eq (fun _ _ _ => id) fun m y m' run => ?_
  cases run
  rfl

theorem Shrinks.get : Shrinks get := by
  refine Keeps.of_eq (fun _ _ _ => id) fun m y m' run => ?_
  cases run
  rfl

theorem Shrinks.modify {f : Mem → Mem} (same : ∀ m, (f m).descriptors = m.descriptors) :
    Shrinks (modify f) := by
  rintro m x m' run fd c h
  cases run
  exact same m ▸ h

theorem access_shrinks (kind : Kind) (c : ℕ) : Shrinks (access kind c) := by
  refine (Shrinks.modify (f := fun m => m.touch kind c) fun _ => rfl).bind fun _ =>
    Shrinks.get.bind fun m => ?_
  split
  · exact .pure ()
  · exact .throw _

theorem deref_shrinks (p : Option ℕ) : Shrinks (deref p) := by
  cases p with
  | none => exact .throw _
  | some c => exact .pure c

theorem allocate_shrinks (kind : Kind) (c : ℕ) : Shrinks (allocate kind c) := .modify fun _ => rfl

theorem release_shrinks (kind : Kind) (c : ℕ) : Shrinks (release kind c) :=
  (access_shrinks kind c).bind fun _ => .modify fun _ => rfl

theorem loadClient_shrinks (c : ℕ) : Shrinks (loadClient c) :=
  (access_shrinks .client c).bind fun _ => Shrinks.get.bind fun _ => .pure _

theorem storeClient_shrinks (c : ℕ) (x : Client) : Shrinks (storeClient c x) :=
  (access_shrinks .client c).bind fun _ => .modify fun _ => rfl

theorem loadUserData_shrinks (job : ℕ) : Shrinks (loadUserData job) :=
  (access_shrinks .job job).bind fun _ => Shrinks.get.bind fun _ => .pure _

theorem storeUserData_shrinks (job : ℕ) (x : Option ℕ) : Shrinks (storeUserData job x) :=
  (access_shrinks .job job).bind fun _ => .modify fun _ => rfl

theorem close_shrinks (fd : ℤ) : Shrinks (close fd) := by
  rintro m x m' run number c h
  simp only [close, StateT.run_bind, StateT.run_get, pure_bind] at run
  cases found : if 0 ≤ fd then m.descriptors fd.toNat else none with
  | none =>
    rw [found] at run
    cases run
  | some d =>
    rw [found] at run
    cases run
    by_cases hn : number = fd.toNat
    · simp [hn] at h
    · simpa [hn] using h

theorem closeClient_shrinks (client : Option ℕ) : Shrinks (closeClient client) := by
  cases client with
  | none => exact .pure ()
  | some c =>
    refine (loadClient_shrinks c).bind fun x => ?_
    split
    · exact (close_shrinks x.fd).bind fun _ => storeClient_shrinks c _
    · exact .pure ()

theorem releaseField_shrinks (c : ℕ) (kind : Kind) (field : Client → Option ℕ)
    (clear : Client → Client) : Shrinks (releaseField c kind field clear) := by
  refine (loadClient_shrinks c).bind fun x => ?_
  split
  · exact (release_shrinks kind _).bind fun _ => (loadClient_shrinks c).bind fun _ =>
      storeClient_shrinks c _
  · exact .pure ()

theorem freeClient_shrinks (client : Option ℕ) : Shrinks (freeClient client) := by
  cases client with
  | none => exact .pure ()
  | some c =>
    exact (releaseField_shrinks c _ _ _).bind fun _ => (releaseField_shrinks c _ _ _).bind fun _ =>
      (releaseField_shrinks c _ _ _).bind fun _ => release_shrinks .client c

theorem acquire_shrinks (ok : Bool) (kind : Kind) (c : ℕ) (store : Option ℕ → Client → Client) :
    Shrinks (acquire ok kind c store) := by
  have rest : Shrinks (do storeClient c (store (if ok then some c else none) (← loadClient c))) :=
    (loadClient_shrinks c).bind fun _ => storeClient_shrinks c _
  cases ok with
  | true => exact (allocate_shrinks kind c).bind fun _ => rest
  | false => exact rest

theorem newClient_shrinks (c fd : ℕ) : Shrinks (newClient c fd) :=
  (allocate_shrinks .client c).bind fun _ => storeClient_shrinks c _

theorem enableClient_shrinks (c : ℕ) : Shrinks (enableClient c) :=
  (loadClient_shrinks c).bind fun _ => (deref_shrinks _).bind fun _ => (access_shrinks _ _).bind
    fun _ => (loadClient_shrinks c).bind fun _ => (deref_shrinks _).bind fun _ => access_shrinks _ _

theorem enterDispatch_shrinks (client : Option ℕ) : Shrinks (enterDispatch client) :=
  (deref_shrinks client).bind fun _ => (loadClient_shrinks _).bind fun _ =>
    (deref_shrinks _).bind fun _ => (access_shrinks _ _).bind fun _ => .pure _

theorem callback_shrinks (c : ℕ) (cb : Callback) : Shrinks (cb.body c) := by
  cases cb with
  | onError => exact closeClient_shrinks (some c)
  | onRead written =>
    refine (access_shrinks .bufEv c).bind fun _ => (loadClient_shrinks c).bind fun _ =>
      (deref_shrinks _).bind fun _ => (access_shrinks .outputBuffer _).bind fun _ =>
      (access_shrinks .bufEv c).bind fun _ => ?_
    split
    · exact .pure ()
    · exact closeClient_shrinks (some c)

theorem accessJobs_shrinks (js : List ℕ) : Shrinks (accessJobs js) := by
  induction js with
  | nil => exact .pure ()
  | cons j js ih => exact (access_shrinks .job j).bind fun _ => ih

theorem perform_shrinks {op : Op α} {next : α → State n → State n}
    (taken : perform s op next = some u) (shrinks : Shrinks op)
    (keeps : ∀ x s, (next x s).mem = s.mem) :
    s.mem.Sheds u.mem := by
  unfold perform at taken
  split at taken
  · rename_i x m run
    cases taken
    intro fd c h
    rw [keeps] at h
    exact shrinks _ x m run fd c h
  · cases taken
    exact fun _ _ => id

theorem onAcceptStep_sheds {ok : Bool} (taken : onAcceptStep s ok = some u) :
    s.mem.Sheds u.mem := by
  cases at_pc : s.accept <;> simp only [onAcceptStep, at_pc] at taken
  case idle => cases taken
  case setnonblock => exact perform_shrinks taken (.pure ()) fun _ _ => rfl
  case mallocClient c fd =>
    split at taken
    · exact perform_shrinks taken (newClient_shrinks c fd) fun _ _ => rfl
    · exact perform_shrinks taken (.pure ()) fun _ _ => rfl
  case evbufferNew | eventBaseNew | buffereventNew =>
    exact perform_shrinks taken (acquire_shrinks _ _ _ _) fun _ _ => rfl
  case enable c => exact perform_shrinks taken (enableClient_shrinks c) fun _ _ => rfl
  case mallocJob c =>
    split at taken
    · exact perform_shrinks taken (allocate_shrinks .job c) fun _ _ => rfl
    · exact perform_shrinks taken (.pure ()) fun _ _ => rfl
  case setJob c => exact perform_shrinks taken (storeUserData_shrinks c _) fun _ _ => rfl
  case addJob c =>
    obtain ⟨q, -, taken⟩ := Option.bind_eq_some_iff.mp taken
    exact perform_shrinks taken (.pure ()) fun _ _ => rfl
  case adding c =>
    split at taken
    · exact perform_shrinks taken (.pure ()) fun _ _ => rfl
    · cases taken
  case close c fd => exact perform_shrinks taken (close_shrinks fd) fun _ _ => rfl
  case closing c => exact perform_shrinks taken (closeClient_shrinks _) fun _ _ => rfl
  case freeing c => exact perform_shrinks taken (freeClient_shrinks _) fun _ _ => rfl

theorem jobStep_sheds {w : Fin n} (taken : jobStep s w = some u) : s.mem.Sheds u.mem := by
  simp only [jobStep] at taken
  split at taken
  on_goal 2 => cases taken
  cases at_pc : s.job w <;> simp only [at_pc] at taken
  case load => exact perform_shrinks taken (loadUserData_shrinks _) fun _ _ => rfl
  case enter p => exact perform_shrinks taken (enterDispatch_shrinks p) fun _ _ => rfl
  case dispatch => exact perform_shrinks taken (.pure ()) fun _ _ => rfl
  case closing c => exact perform_shrinks taken (closeClient_shrinks _) fun _ _ => rfl
  case freeing c => exact perform_shrinks taken (freeClient_shrinks _) fun _ _ => rfl
  case freeJob => exact perform_shrinks taken (release_shrinks .job _) fun _ _ => rfl
  case returned =>
    obtain ⟨q, -, taken⟩ := Option.bind_eq_some_iff.mp taken
    exact perform_shrinks taken (.pure ()) fun _ _ => rfl

/-- A number that denotes a connection denoted it already, or `accept` has just returned it. -/
theorem step_sheds {a : Action n} (taken : step s a = some u) :
    s.mem.Sheds u.mem ∨ ∃ fd, a = .accept (some fd) ∧ u.accept = .setnonblock s.mem.accepted fd ∧
      u.mem.descriptors = Function.update s.mem.descriptors fd (some s.mem.accepted) := by
  simp only [step] at taken
  split at taken
  on_goal 2 => cases taken
  cases a with
  | queue b =>
    simp only [queueStep] at taken
    split at taken
    · obtain ⟨q, -, taken⟩ := Option.bind_eq_some_iff.mp taken
      exact .inl (perform_shrinks taken (accessJobs_shrinks _) fun _ _ => rfl)
    · cases taken
  | accept fd =>
    simp only [acceptStep] at taken
    split at taken
    on_goal 2 => cases taken
    cases fd with
    | none => exact .inl (perform_shrinks taken (.pure ()) fun _ _ => rfl)
    | some fd =>
      simp only at taken
      split at taken
      · cases taken
        exact .inr ⟨fd, rfl, rfl, rfl⟩
      · cases taken
  | onAccept ok => exact .inl (onAcceptStep_sheds taken)
  | job w => exact .inl (jobStep_sheds taken)
  | callback w cb =>
    simp only [callbackStep] at taken
    split at taken
    · exact .inl (perform_shrinks taken (callback_shrinks _ cb) fun _ _ => rfl)
    · cases taken

end JiaTuanServer.Server

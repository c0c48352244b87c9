import Mathlib.Tactic.Common

/-!
# Triples about a part of the state

Code in `StateT σ (Except ε)` that works on one part of a large state. `Sees s v` says that the part
has the contents `v` in the state `s`, and `Frame s s'` says that `s'` differs from `s` only in that
part. `Does op v x v'` is total correctness with the frame built in: from a state with the contents
`v` the code raises no error, returns `x`, leaves the contents `v'` and stays inside its part.

`Keeps R op` is partial correctness for a preorder: whatever the code does, if it raises no error it
takes a state only to one that `R` relates to it.

`Ends op` and `Fails op` forget the contents: from every state the code runs to its end, or raises
an error.
-/

namespace LocalTriple

universe u

variable {σ ε : Type u} {V : Type*} {α β : Type u}

/-- What it means to work on one part of the state. -/
structure Part (σ : Type u) (V : Type*) where
  Sees : σ → V → Prop
  Frame : σ → σ → Prop
  refl : ∀ s, Frame s s
  trans : ∀ s s' s'', Frame s s' → Frame s' s'' → Frame s s''

/-- The code runs to its end on the contents `v`, returns `x` and leaves the contents `v'`. -/
def Does (P : Part σ V) (op : StateT σ (Except ε) α) (v : V) (x : α) (v' : V) : Prop :=
  ∀ s, P.Sees s v → ∃ s', op.run s = .ok (x, s') ∧ P.Frame s s' ∧ P.Sees s' v'

variable {P : Part σ V} {v v' v'' : V} {x : α} {y : β}

theorem Does.pure (x : α) : Does P (pure x : StateT σ (Except ε) α) v x v :=
  fun s hs => ⟨s, rfl, P.refl s, hs⟩

theorem Does.bind {op : StateT σ (Except ε) α} {f : α → StateT σ (Except ε) β}
    (first : Does P op v x v') (second : Does P (f x) v' y v'') :
    Does P (op >>= f) v y v'' := by
  intro s hs
  obtain ⟨s', run, frame, hs'⟩ := first s hs
  obtain ⟨s'', run', frame', hs''⟩ := second s' hs'
  refine ⟨s'', ?_, P.trans _ _ _ frame frame', hs''⟩
  rw [StateT.run_bind, run]
  exact run'

/-- The contents may be written in another way. -/
theorem Does.of_eq {op : StateT σ (Except ε) α} (h : Does P op v x v') (e : v' = v'') :
    Does P op v x v'' := e ▸ h

/-- A run of two pieces of code that raises no error is a run of the first and one of the second. -/
theorem run_bind_ok {op : StateT σ (Except ε) α} {f : α → StateT σ (Except ε) β} {s s'' : σ}
    (run : (op >>= f).run s = .ok (y, s'')) :
    ∃ x s', op.run s = .ok (x, s') ∧ (f x).run s' = .ok (y, s'') := by
  rw [StateT.run_bind] at run
  cases step : op.run s with
  | error e =>
    rw [step] at run
    cases run
  | ok p =>
    rw [step] at run
    exact ⟨p.1, p.2, rfl, run⟩

theorem run_bind_of_ok {op : StateT σ (Except ε) α} {f : α → StateT σ (Except ε) β} {s s' : σ}
    (run : op.run s = .ok (x, s')) : (op >>= f).run s = (f x).run s' := by
  rw [StateT.run_bind, run]
  rfl

theorem run_bind_of_error {op : StateT σ (Except ε) α} {f : α → StateT σ (Except ε) β} {s : σ}
    {e : ε} (run : op.run s = .error e) : (op >>= f).run s = .error e := by
  rw [StateT.run_bind, run]
  rfl

/-! ## Preorders that code respects -/

section Keeps

variable {R : σ → σ → Prop}

/-- Every run that raises no error ends in a state that `R` relates to the first. -/
def Keeps (R : σ → σ → Prop) (op : StateT σ (Except ε) α) : Prop :=
  ∀ s x s', op.run s = .ok (x, s') → R s s'

theorem Keeps.of_eq {op : StateT σ (Except ε) α} (refl : ∀ s, R s s)
    (same : ∀ s x s', op.run s = .ok (x, s') → s' = s) : Keeps R op := by
  intro s x s' run
  rw [same s x s' run]
  exact refl s

theorem Keeps.bind {op : StateT σ (Except ε) α} {f : α → StateT σ (Except ε) β}
    (trans : ∀ s s' s'', R s s' → R s' s'' → R s s'') (first : Keeps R op)
    (rest : ∀ x, Keeps R (f x)) : Keeps R (op >>= f) := by
  intro s y s'' run
  obtain ⟨x, s', run₁, run₂⟩ := run_bind_ok run
  exact trans s s' s'' (first s x s' run₁) (rest x s' y s'' run₂)

theorem Keeps.throw (e : ε) : Keeps R (throw e : StateT σ (Except ε) α) := by
  rintro s x s' run
  cases run

end Keeps

/-! ## Running to the end -/

section Ends

variable {op : StateT σ (Except ε) α} {f : α → StateT σ (Except ε) β}

/-- From every state the code runs to its end. -/
def Ends (op : StateT σ (Except ε) α) : Prop := ∀ s, ∃ x s', op.run s = .ok (x, s')

/-- From every state the code raises an error. -/
def Fails (op : StateT σ (Except ε) α) : Prop := ∀ s, ∃ e, op.run s = .error e

theorem Ends.pure (x : α) : Ends (pure x : StateT σ (Except ε) α) := fun s => ⟨x, s, rfl⟩

theorem Ends.bind (first : Ends op) (rest : ∀ x, Ends (f x)) : Ends (op >>= f) := by
  intro s
  obtain ⟨x, s', run⟩ := first s
  obtain ⟨y, s'', run'⟩ := rest x s'
  refine ⟨y, s'', ?_⟩
  rw [StateT.run_bind, run]
  exact run'

theorem Fails.throw (e : ε) : Fails (throw e : StateT σ (Except ε) α) := fun _ => ⟨e, rfl⟩

theorem Fails.bind (first : Fails op) : Fails (op >>= f) := by
  intro s
  obtain ⟨e, run⟩ := first s
  refine ⟨e, ?_⟩
  rw [StateT.run_bind, run]
  rfl

/-- Code that is followed by code that fails. -/
theorem Fails.of_rest (rest : ∀ x, Fails (f x)) : Fails (op >>= f) := by
  intro s
  rw [StateT.run_bind]
  cases run : op.run s with
  | error e => exact ⟨e, rfl⟩
  | ok p => exact rest p.1 p.2

theorem Fails.not_ends (fails : Fails op) (s : σ) : ¬ ∃ x s', op.run s = .ok (x, s') := by
  rintro ⟨x, s', run⟩
  obtain ⟨e, error⟩ := fails s
  rw [run] at error
  cases error

/-- A step that does not touch the state and succeeds can be left out. -/
@[simp] theorem lift_ok_bind (x : α) : (liftM (Except.ok x : Except ε α) >>= f) = f x := rfl

@[simp] theorem lift_error_bind (e : ε) : (liftM (Except.error e : Except ε α) >>= f) = throw e :=
  rfl

end Ends

end LocalTriple

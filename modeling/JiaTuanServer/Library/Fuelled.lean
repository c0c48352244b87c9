import Mathlib.Tactic.Common

/-!
# Runs with fuel that may raise an error

Code in `OptionT (Except ε)`: `none` is a run that has not ended. `Ends x post err` says that the
run ends, with a result that meets `post` or with an error that meets `err`; `Gives x a`
that it ends with the result `a`. The rules follow the code, one for each way to put code together.
-/

namespace Fuelled

universe u

variable {ε : Type*} {α β : Type u}

/-- The run ends, with a result in `post` or an error in `err`. -/
def Ends (x : OptionT (Except ε) α) (post : α → Prop) (err : ε → Prop) : Prop :=
  match x.run with
  | .ok (some a) => post a
  | .ok none => False
  | .error e => err e

variable {x : OptionT (Except ε) α} {f : α → OptionT (Except ε) β} {post : α → Prop}
  {post' : β → Prop} {err : ε → Prop}

theorem Ends.pure {a : α} (h : post a) : Ends (pure a : OptionT (Except ε) α) post err := h

theorem Ends.bind (first : Ends x post err) (second : ∀ a, post a → Ends (f a) post' err) :
    Ends (x >>= f) post' err := by
  unfold Ends at *
  rw [OptionT.run_bind]
  cases hx : x.run with
  | error e =>
    rw [hx] at first
    exact first
  | ok result =>
    rw [hx] at first
    cases result with
    | none => exact first.elim
    | some a => exact second a first

theorem Ends.mono {post₁ : α → Prop} {err₁ : ε → Prop} (h : Ends x post err)
    (weaker : ∀ a, post a → post₁ a) (worse : ∀ e, err e → err₁ e) : Ends x post₁ err₁ := by
  unfold Ends at *
  cases hx : x.run with
  | error e =>
    rw [hx] at h
    exact worse e h
  | ok result =>
    rw [hx] at h
    cases result with
    | none => exact h
    | some a => exact weaker a h

/-- Code without fuel. -/
theorem Ends.lift {y : Except ε α}
    (h : match y with | .ok a => post a | .error e => err e) :
    Ends (liftM y : OptionT (Except ε) α) post err := by
  cases y with
  | ok a => exact h
  | error e => exact h

theorem Ends.lift_ok {y : Except ε α} {a : α} (run : y = .ok a) (h : post a) :
    Ends (liftM y : OptionT (Except ε) α) post err := by
  subst run
  exact h

/-- What the two ways to end are. -/
theorem Ends.cases (h : Ends x post err) :
    (∃ a, x.run = .ok (some a) ∧ post a) ∨ ∃ e, x.run = .error e ∧ err e := by
  unfold Ends at h
  cases hx : x.run with
  | error e =>
    rw [hx] at h
    exact .inr ⟨e, rfl, h⟩
  | ok result =>
    rw [hx] at h
    cases result with
    | none => exact h.elim
    | some a => exact .inl ⟨a, rfl, h⟩

/-! ## Runs with a known result -/

/-- The run ends with the result `a`. -/
def Gives (x : OptionT (Except ε) α) (a : α) : Prop := x.run = .ok (some a)

theorem Gives.pure (a : α) : Gives (pure a : OptionT (Except ε) α) a := rfl

/-- Code behind a run with a known result. -/
theorem Gives.bind_eq {a : α} (first : Gives x a) : x >>= f = f a := by
  apply OptionT.ext
  rw [OptionT.run_bind, show x.run = _ from first]
  rfl

theorem Gives.bind {a : α} {b : β} (first : Gives x a) (second : Gives (f a) b) :
    Gives (x >>= f) b := by
  rwa [first.bind_eq]

theorem Gives.ends {a : α} {err : ε → Prop} (h : Gives x a) (holds : post a) :
    Ends x post err := by
  unfold Ends
  rw [show x.run = _ from h]
  exact holds

theorem Gives.lift {y : Except ε α} {a : α} (run : y = .ok a) :
    Gives (liftM y : OptionT (Except ε) α) a := by
  subst run
  rfl

end Fuelled

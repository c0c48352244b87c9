import Mathlib.Tactic.Common

/-!
# Outcomes of fuelled code

Code that can fail and that runs with fuel comes to a value of `Except ε (Option α)`: an error,
`none` when the fuel did not suffice, or a result. What can be told of a result is a function of it,
and two outcomes that agree in that agree in whatever follows from it (`map_congr`).
-/

namespace Outcome

variable {ε α β γ τ : Type*}

theorem map_map (x : Except ε (Option α)) (f : α → β) (g : β → γ) :
    (x.map (Option.map f)).map (Option.map g) = x.map (Option.map fun a => g (f a)) := by
  cases x with
  | error e => rfl
  | ok x => cases x <;> rfl

theorem map_congr {x : Except ε (Option α)} {y : Except ε (Option β)} {f : α → γ} {g : β → γ}
    {f' : α → τ} {g' : β → τ} (agree : x.map (Option.map f) = y.map (Option.map g))
    (follows : ∀ a b, f a = g b → f' a = g' b) :
    x.map (Option.map f') = y.map (Option.map g') := by
  cases x with
  | error e =>
    cases y with
    | error e' => simpa [Except.map] using agree
    | ok y => simp [Except.map] at agree
  | ok x =>
    cases y with
    | error e => simp [Except.map] at agree
    | ok y =>
      cases x with
      | none => cases y <;> simp_all [Except.map]
      | some a =>
        cases y with
        | none => simp [Except.map] at agree
        | some b =>
          have same : f a = g b := by simpa [Except.map] using agree
          simp [Except.map, follows a b same]

/-- A result can be told of only where there is one. -/
theorem exists_of_map_eq {x : Except ε (Option α)} {f : α → β} {b : β}
    (h : x.map (Option.map f) = .ok (some b)) : ∃ a, x = .ok (some a) ∧ f a = b := by
  cases x with
  | error e => simp [Except.map] at h
  | ok x =>
    cases x with
    | none => simp [Except.map] at h
    | some a => exact ⟨a, rfl, by simpa [Except.map] using h⟩

end Outcome

import Mathlib.Logic.Function.Iterate

/-!
# Loops

A loop is a test and a body on one state. `run` executes it with fuel, and `none` is a loop that
has not ended yet. `EndsAfter s n` says the same without fuel: the test holds before each of the
first `n` iterations and fails after them. The two agree (`run_eq_some_iff`), and a loop whose test
never fails returns at no fuel.
-/

/-- `while (test) body` on states of type `σ`. -/
structure Loop (σ : Type*) where
  test : σ → Bool
  body : σ → σ

namespace Loop

variable {σ : Type*} (l : Loop σ)

/-- The loop with fuel for that many tests. -/
def run : ℕ → σ → Option σ
  | 0, _ => none
  | fuel + 1, s => if l.test s then run fuel (l.body s) else some s

/-- The state before test number `t`. -/
def after (s : σ) (t : ℕ) : σ := l.body^[t] s

/-- The loop makes exactly `n` iterations from `s`. -/
structure EndsAfter (s : σ) (n : ℕ) : Prop where
  continues : ∀ t < n, l.test (l.after s t) = true
  stops : l.test (l.after s n) = false

variable {l} {s s' : σ} {n fuel : ℕ}

@[simp] theorem after_zero : l.after s 0 = s := rfl

theorem after_succ (t : ℕ) : l.after s (t + 1) = l.body (l.after s t) :=
  Function.iterate_succ_apply' _ _ _

theorem after_body (t : ℕ) : l.after (l.body s) t = l.after s (t + 1) :=
  (Function.iterate_succ_apply _ _ _).symm

/-- One iteration in front. -/
theorem endsAfter_succ (again : l.test s = true) :
    l.EndsAfter s (n + 1) ↔ l.EndsAfter (l.body s) n := by
  constructor
  · rintro ⟨continues, stops⟩
    constructor
    · intro t ht
      rw [after_body]
      exact continues (t + 1) (by omega)
    · rwa [after_body]
  · rintro ⟨continues, stops⟩
    constructor
    · intro t ht
      cases t with
      | zero => exact again
      | succ t =>
        rw [← after_body]
        exact continues t (by omega)
    · rwa [← after_body]

/-- The fuelled loop returns exactly when it ends, in the state its iterations lead to. -/
theorem run_eq_some_iff :
    l.run fuel s = some s' ↔ ∃ n < fuel, l.EndsAfter s n ∧ s' = l.after s n := by
  induction fuel generalizing s with
  | zero => simp [run]
  | succ fuel ih =>
    cases again : l.test s with
    | false =>
      rw [run, again, if_neg (by simp), Option.some.injEq]
      constructor
      · rintro rfl
        exact ⟨0, by omega, ⟨fun t ht => absurd ht t.not_lt_zero, again⟩, rfl⟩
      · rintro ⟨n, -, ends, rfl⟩
        obtain rfl : n = 0 := by
          by_contra pos
          have first := ends.continues 0 (Nat.pos_of_ne_zero pos)
          simp [again] at first
        rfl
    | true =>
      rw [run, again, if_pos rfl, ih]
      constructor
      · rintro ⟨n, lt, ends, rfl⟩
        exact ⟨n + 1, by omega, (endsAfter_succ again).mpr ends, after_body n⟩
      · rintro ⟨n, lt, ends, rfl⟩
        cases n with
        | zero =>
          have stops := ends.stops
          simp [again] at stops
        | succ n => exact ⟨n, by omega, (endsAfter_succ again).mp ends, (after_body n).symm⟩

theorem EndsAfter.run (h : l.EndsAfter s n) (enough : n < fuel) :
    l.run fuel s = some (l.after s n) :=
  run_eq_some_iff.mpr ⟨n, enough, h, rfl⟩

/-- A loop whose test never fails does not return. -/
theorem run_eq_none (forever : ∀ t, l.test (l.after s t) = true) (fuel : ℕ) :
    l.run fuel s = none := by
  rw [Option.eq_none_iff_forall_ne_some]
  intro s' returns
  obtain ⟨n, -, ends, -⟩ := run_eq_some_iff.mp returns
  have stops := ends.stops
  simp [forever n] at stops

end Loop

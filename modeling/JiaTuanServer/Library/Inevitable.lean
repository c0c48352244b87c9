import JiaTuanServer.Library.Machine

/-!
# What a machine gets to in whatever order it goes on

`M.Inevitable A G s`: however the machine goes on from `s` with actions of the kind `A`, as long as
it takes any that it can, it gets to a state with `G`. A rank that every such action lowers proves
it (`Inevitable.of_rank`), and a set of states that the machine can stay in, or stop in, without
meeting `G` refutes it (`Inevitable.not_of_avoid`).
-/

namespace Transition

namespace Machine

variable {σ α : Type*} (M : Machine σ α)

/-- The goal is reached, or some action can be taken and each one leads on to it. -/
inductive Inevitable (A : α → Prop) (G : σ → Prop) : σ → Prop where
  | now {s : σ} (goal : G s) : Inevitable A G s
  | later {s : σ} (enabled : ∃ a u, A a ∧ M.step s a = some u)
      (rest : ∀ a u, A a → M.step s a = some u → Inevitable A G u) : Inevitable A G s

variable {M} {A : α → Prop} {G : σ → Prop} {s : σ}

/-- What is inevitable can be reached. -/
theorem Inevitable.leads (h : M.Inevitable A G s) : ∃ t, M.Leads A s t ∧ G t := by
  induction h with
  | now goal => exact ⟨_, .refl A _, goal⟩
  | later enabled rest ih =>
    obtain ⟨a, u, ha, taken⟩ := enabled
    obtain ⟨t, leads, goal⟩ := ih a u ha taken
    exact ⟨t, leads.head ha taken, goal⟩

/-- A ranking argument over every order of actions: short of the goal some action can be taken, and
each one keeps `P` and lowers the rank. -/
theorem Inevitable.of_rank {P : ℕ → σ → Prop}
    (progress : ∀ r s, P r s → ¬ G s → ∃ a u, A a ∧ M.step s a = some u)
    (lower : ∀ r s a u, P r s → ¬ G s → A a → M.step s a = some u → G u ∨ ∃ r' < r, P r' u)
    {r : ℕ} (start : P r s) : M.Inevitable A G s := by
  induction r using Nat.strongRecOn generalizing s with
  | _ r ih =>
    by_cases goal : G s
    · exact .now goal
    refine .later (progress r s start goal) fun a u ha taken => ?_
    rcases lower r s a u start goal ha taken with done | ⟨r', lt, hu⟩
    · exact .now done
    · exact ih r' lt hu

/-- The machine avoids the goal if it can stay in `B`, or stop there, short of the goal. -/
theorem Inevitable.not_of_avoid {B : σ → Prop} (short : ∀ s, B s → ¬ G s)
    (stay : ∀ s, B s → (∃ a u, A a ∧ M.step s a = some u) →
      ∃ a u, A a ∧ M.step s a = some u ∧ B u) (start : B s) : ¬ M.Inevitable A G s := by
  intro h
  induction h with
  | now goal => exact short _ start goal
  | later enabled rest ih =>
    obtain ⟨a, u, ha, taken, hu⟩ := stay _ start enabled
    exact ih a u ha taken hu

end Machine

end Transition

import JiaTuanServer.Library.Machine

/-!
# First in, first out

A queue takes things in at its end and gives them up at its front. In terms of what a step brings in
and takes out, that is one equation: `before ++ arrived = departed ++ after`. Steps that keep it
compose, so over a run everything that ever arrived is what departed, in order, and what is left.
-/

namespace Fifo

open Transition Machine

variable {σ α β : Type*}

/-- What the steps of a trace bring in or take out, in order. -/
def along (what : σ → α → List β) (tr : List (σ × α)) : List β := tr.flatMap fun x => what x.1 x.2

@[simp] theorem along_nil (what : σ → α → List β) : along what [] = [] := rfl

@[simp] theorem along_concat (what : σ → α → List β) (tr : List (σ × α)) (s : σ) (a : α) :
    along what (tr ++ [(s, a)]) = along what tr ++ what s a := by
  simp [along]

/-- One step of a queue after the other. -/
theorem trans {before middle after arrived arrived' departed departed' : List β}
    (first : before ++ arrived = departed ++ middle)
    (second : middle ++ arrived' = departed' ++ after) :
    before ++ (arrived ++ arrived') = departed ++ departed' ++ after := by
  rw [← List.append_assoc, first, List.append_assoc, second, List.append_assoc]

variable {M : Machine σ α} {C : σ → α → Prop} {I : σ → Prop} {s t : σ} {tr : List (σ × α)}

/-- The books of a run balance if those of each step do. -/
theorem run_balance (content : σ → List β) (arrived departed : σ → α → List β)
    (run : M.Run s tr t) (cond : Along C tr) (start : I s)
    (step : ∀ s a u, I s → C s a → M.step s a = some u →
      I u ∧ content s ++ arrived s a = departed s a ++ content u) :
    I t ∧ content s ++ along arrived tr = along departed tr ++ content t := by
  induction run with
  | nil => exact ⟨start, by simp⟩
  | snoc run taken ih =>
    rw [along_append, along_singleton] at cond
    obtain ⟨inv, balance⟩ := ih cond.1
    obtain ⟨inv', balance'⟩ := step _ _ _ inv cond.2 taken
    rw [along_concat, along_concat]
    exact ⟨inv', trans balance balance'⟩

end Fifo

import Mathlib.Data.List.Induction

/-!
# Guarded transition machines

A machine is an executable step function: `step s a` is the state after action `a`, and `none`
when `a` cannot be taken in `s`. A run carries the state before each of its actions, so that
histories, step conditions and the states passed through are all read off one list.

Safety results use `Run.invariant`. Results of the form "this can still happen" build a
continuation with `Leads`, which also records what kind of actions the continuation takes.
-/

namespace Transition

/-- States, the states a run may start in, and one partial step for each action. -/
structure Machine (σ α : Type*) where
  initial : σ → Prop
  step : σ → α → Option σ

namespace Machine

variable {σ α : Type*} (M : Machine σ α)

/-- `M.Run s tr t`: the machine goes from `s` to `t`, and `tr` lists each action taken with the
state it was taken in. -/
inductive Run : σ → List (σ × α) → σ → Prop where
  | nil (s : σ) : Run s [] s
  | snoc {s t u : σ} {tr : List (σ × α)} {a : α} :
      Run s tr t → M.step t a = some u → Run s (tr ++ [(t, a)]) u

/-- Every action of the trace is taken in a state where `C` allows it. -/
def Along (C : σ → α → Prop) (tr : List (σ × α)) : Prop := ∀ x ∈ tr, C x.1 x.2

/-- The states of a run, first to last. -/
def visited (tr : List (σ × α)) (s : σ) : List σ := tr.map Prod.fst ++ [s]

@[simp] theorem along_nil (C : σ → α → Prop) : Along C [] := by simp [Along]

@[simp] theorem along_append (C : σ → α → Prop) (tr tr' : List (σ × α)) :
    Along C (tr ++ tr') ↔ Along C tr ∧ Along C tr' := by
  simp [Along, or_imp, forall_and]

@[simp] theorem along_singleton (C : σ → α → Prop) (s : σ) (a : α) :
    Along C [(s, a)] ↔ C s a := by simp [Along]

theorem Along.mono {C D : σ → α → Prop} {tr : List (σ × α)} (h : Along C tr)
    (hcd : ∀ s a, C s a → D s a) : Along D tr := fun x hx => hcd _ _ (h x hx)

variable {M}

/-- An invariant may use that the step taken meets the run's condition. -/
theorem Run.invariant {C : σ → α → Prop} {I : σ → Prop} {s t : σ} {tr : List (σ × α)}
    (run : M.Run s tr t) (cond : Along C tr) (start : I s)
    (step : ∀ s a u, I s → C s a → M.step s a = some u → I u) : I t := by
  induction run with
  | nil => exact start
  | snoc _ taken ih =>
    rw [along_append, along_singleton] at cond
    exact step _ _ _ (ih cond.1) cond.2 taken

/-- What every step keeps, whatever the condition. -/
theorem Run.always {I : σ → Prop} {s t : σ} {tr : List (σ × α)} (run : M.Run s tr t) (start : I s)
    (step : ∀ s a u, I s → M.step s a = some u → I u) : I t :=
  run.invariant (C := fun _ _ => True) (fun _ _ => trivial) start fun s a u h _ => step s a u h

/-- The same rule for a property of the history and the state together. -/
theorem Run.history {C : σ → α → Prop} {I : List (σ × α) → σ → Prop} {s t : σ}
    {tr : List (σ × α)} (run : M.Run s tr t) (cond : Along C tr) (start : I [] s)
    (step : ∀ tr s a u, I tr s → C s a → M.step s a = some u → I (tr ++ [(s, a)]) u) :
    I tr t := by
  induction run with
  | nil => exact start
  | snoc _ taken ih =>
    rw [along_append, along_singleton] at cond
    exact step _ _ _ _ (ih cond.1) cond.2 taken

theorem Run.append {s t u : σ} {tr tr' : List (σ × α)} (first : M.Run s tr t)
    (second : M.Run t tr' u) : M.Run s (tr ++ tr') u := by
  induction second with
  | nil => simpa using first
  | snoc _ taken ih => rw [← List.append_assoc]; exact .snoc ih taken

theorem Run.single {s t : σ} {a : α} (taken : M.step s a = some t) : M.Run s [(s, a)] t :=
  .snoc (.nil s) taken

theorem Run.last {s u : σ} {tr : List (σ × α)} {x : σ × α} (run : M.Run s (tr ++ [x]) u) :
    M.Run s tr x.1 ∧ M.step x.1 x.2 = some u := by
  generalize h : tr ++ [x] = tr' at run
  cases run with
  | nil => simp at h
  | snoc run taken =>
    obtain ⟨rfl, last⟩ := List.append_inj' h rfl
    obtain rfl := List.singleton_inj.mp last
    exact ⟨run, taken⟩

/-- A run cut in two. -/
theorem Run.split {s u : σ} {tr tr' : List (σ × α)} (run : M.Run s (tr ++ tr') u) :
    ∃ t, M.Run s tr t ∧ M.Run t tr' u := by
  induction tr' using List.reverseRecOn generalizing u with
  | nil => exact ⟨u, by simpa using run, .nil u⟩
  | append_singleton tr' x ih =>
    rw [← List.append_assoc] at run
    obtain ⟨run, taken⟩ := run.last
    obtain ⟨t, first, second⟩ := ih run
    exact ⟨t, first, .snoc second taken⟩

/-- A run cut at one of its steps. -/
theorem Run.at_step {s u : σ} {tr tr' : List (σ × α)} {x : σ × α}
    (run : M.Run s (tr ++ x :: tr') u) :
    M.Run s tr x.1 ∧ ∃ t, M.step x.1 x.2 = some t ∧ M.Run t tr' u := by
  rw [List.append_cons] at run
  obtain ⟨t, first, second⟩ := run.split
  exact ⟨first.last.1, t, first.last.2, second⟩

/-- Every state passed through is the end of a run along a prefix of the trace. -/
theorem Run.prefix_of_visited {s t u : σ} {tr : List (σ × α)} (run : M.Run s tr t)
    (hu : u ∈ visited tr t) : ∃ tr', tr' <+: tr ∧ M.Run s tr' u := by
  induction run with
  | nil => exact ⟨[], List.nil_prefix, by simp_all [visited, Run.nil]⟩
  | @snoc t v tr a run taken ih =>
    simp only [visited, List.map_append, List.map_cons, List.map_nil, List.append_assoc,
      List.mem_append, List.mem_singleton] at hu ih
    rcases hu with hu | hu | rfl
    · obtain ⟨tr', hp, hr⟩ := ih (.inl hu)
      exact ⟨tr', hp.trans (List.prefix_append _ _), hr⟩
    · obtain ⟨tr', hp, hr⟩ := ih (.inr hu)
      exact ⟨tr', hp.trans (List.prefix_append _ _), hr⟩
    · exact ⟨_, List.prefix_rfl, .snoc run taken⟩

/-- When the condition is exactly what keeps `P` at each step, a run stays in `P` exactly when
all its steps meet the condition. `I` is an invariant of the machine that the two step facts may
use. -/
theorem Run.forall_visited_iff_of_kept {C : σ → α → Prop} {I P : σ → Prop} {s t : σ}
    {tr : List (σ × α)} (run : M.Run s tr t) (start : I s) (startP : P s)
    (step : ∀ s a u, I s → M.step s a = some u → I u)
    (keeps : ∀ s a u, I s → P s → C s a → M.step s a = some u → P u)
    (breaks : ∀ s a u, I s → P s → ¬ C s a → M.step s a = some u → ¬ P u) :
    (∀ u ∈ visited tr t, P u) ↔ Along C tr := by
  have inv {tr : List (σ × α)} {t : σ} (run : M.Run s tr t) : I t := run.always start step
  induction run with
  | nil => simpa [visited] using startP
  | @snoc t u tr a run taken ih =>
    have hvisited : visited (tr ++ [(t, a)]) u = visited tr t ++ [u] := by simp [visited]
    have last : t ∈ visited tr t := by simp [visited]
    rw [hvisited, along_append, along_singleton]
    constructor
    · intro h
      have before : ∀ v ∈ visited tr t, P v := fun v hv => h v (List.mem_append_left _ hv)
      refine ⟨ih.mp before, ?_⟩
      by_contra hc
      exact breaks t a u (inv run) (before t last) hc taken (h u (by simp))
    · rintro ⟨h, hc⟩ v hv
      rcases List.mem_append.mp hv with hv | hv
      · exact ih.mpr h v hv
      · rw [List.mem_singleton.mp hv]
        exact keeps t a u (inv run) (ih.mpr h t last) hc taken

/-- The same where breaking the condition breaks `P` whether or not it held before. -/
theorem Run.forall_visited_iff {C : σ → α → Prop} {I P : σ → Prop} {s t : σ}
    {tr : List (σ × α)} (run : M.Run s tr t) (start : I s) (startP : P s)
    (step : ∀ s a u, I s → M.step s a = some u → I u)
    (keeps : ∀ s a u, I s → P s → C s a → M.step s a = some u → P u)
    (breaks : ∀ s a u, I s → ¬ C s a → M.step s a = some u → ¬ P u) :
    (∀ u ∈ visited tr t, P u) ↔ Along C tr :=
  run.forall_visited_iff_of_kept start startP step keeps fun s a u h _ => breaks s a u h

/-- Two conditions that agree wherever the invariant holds agree along a run. -/
theorem Run.along_iff {C D : σ → α → Prop} {I : σ → Prop} {s t : σ} {tr : List (σ × α)}
    (run : M.Run s tr t) (start : I s) (step : ∀ s a u, I s → M.step s a = some u → I u)
    (each : ∀ s a u, I s → M.step s a = some u → (C s a ↔ D s a)) : Along C tr ↔ Along D tr := by
  induction run with
  | nil => simp
  | @snoc t u tr a run taken ih =>
    have inv : I t := run.always start step
    rw [along_append, along_append, along_singleton, along_singleton, ih, each t a u inv taken]

theorem Along.of_prefix {C : σ → α → Prop} {tr tr' : List (σ × α)} (h : Along C tr)
    (hp : tr' <+: tr) : Along C tr' := fun x hx => h x (hp.subset hx)

variable (M)

/-- Perform the listed actions; `none` when one of them cannot be taken. -/
def exec (s : σ) : List α → Option σ
  | [] => some s
  | a :: as => (M.step s a).bind (exec · as)

/-- The trace of the listed actions, as far as they can be taken. -/
def trace (s : σ) : List α → List (σ × α)
  | [] => []
  | a :: as => (s, a) :: ((M.step s a).map (trace · as)).getD []

variable {M}

theorem run_of_exec {s t : σ} {as : List α} (h : M.exec s as = some t) :
    M.Run s (M.trace s as) t := by
  induction as generalizing s with
  | nil => cases h; exact .nil _
  | cons a as ih =>
    obtain ⟨u, taken, rest⟩ := Option.bind_eq_some_iff.mp h
    have tail : M.Run u (M.trace u as) t := ih rest
    simpa [trace, taken] using (Run.single taken).append tail

variable (M)

/-- A boolean test of every step of the listed actions. -/
def check (c : σ → α → Bool) (s : σ) : List α → Bool
  | [] => true
  | a :: as => c s a && ((M.step s a).map (check c · as)).getD true

variable {M}

/-- A test that is enough for the condition settles it along a concrete run. -/
theorem along_of_check {c : σ → α → Bool} {C : σ → α → Prop} (hc : ∀ s a, c s a = true → C s a)
    {s : σ} {as : List α} (h : M.check c s as = true) : Along C (M.trace s as) := by
  induction as generalizing s with
  | nil => exact along_nil C
  | cons a as ih =>
    obtain ⟨first, rest⟩ := Bool.and_eq_true_iff.mp h
    intro x hx
    rcases List.mem_cons.mp hx with rfl | hx
    · exact hc _ _ first
    · cases taken : M.step s a with
      | none => simp [taken] at hx
      | some u => exact ih (s := u) (by simpa [taken] using rest) x (by simpa [taken] using hx)

variable (M)

/-- From `s` the machine can go on to `t` taking actions of the kind `A` only. -/
def Leads (A : α → Prop) (s t : σ) : Prop :=
  ∃ tr, M.Run s tr t ∧ Along (fun _ a => A a) tr

variable {M}

theorem Leads.refl (A : α → Prop) (s : σ) : M.Leads A s s := ⟨[], .nil s, along_nil _⟩

theorem Leads.trans {A : α → Prop} {s t u : σ} (h : M.Leads A s t) (k : M.Leads A t u) :
    M.Leads A s u := by
  obtain ⟨tr, run, kind⟩ := h
  obtain ⟨tr', run', kind'⟩ := k
  exact ⟨tr ++ tr', run.append run', (along_append _ _ _).mpr ⟨kind, kind'⟩⟩

theorem Leads.single {A : α → Prop} {s t : σ} {a : α} (ha : A a)
    (taken : M.step s a = some t) : M.Leads A s t :=
  ⟨_, .single taken, (along_singleton _ _ _).mpr ha⟩

/-- Put one more action in front of a continuation. -/
theorem Leads.head {A : α → Prop} {s t u : σ} {a : α} (ha : A a)
    (taken : M.step s a = some t) (rest : M.Leads A t u) : M.Leads A s u :=
  (Leads.single ha taken).trans rest

/-- A ranking argument: where the goal is not reached yet, an action of the kind keeps `P` and
lowers the rank. -/
theorem Leads.of_rank {A : α → Prop} {P G : σ → Prop} (rank : σ → ℕ)
    (progress : ∀ s, P s → G s ∨ ∃ a u, A a ∧ M.step s a = some u ∧ P u ∧ rank u < rank s)
    {s : σ} (start : P s) : ∃ t, M.Leads A s t ∧ G t := by
  induction hr : rank s using Nat.strongRecOn generalizing s with
  | _ r ih =>
    rcases progress s start with done | ⟨a, u, ha, taken, hu, lower⟩
    · exact ⟨s, .refl A s, done⟩
    · obtain ⟨t, rest, done⟩ := ih (rank u) (hr ▸ lower) hu rfl
      exact ⟨t, rest.head ha taken, done⟩

/-- A continuation keeps every property that its kind of action keeps. -/
theorem Leads.invariant {A : α → Prop} {I : σ → Prop} {s t : σ} (h : M.Leads A s t)
    (start : I s) (step : ∀ s a u, I s → A a → M.step s a = some u → I u) : I t := by
  obtain ⟨tr, run, kind⟩ := h
  exact run.invariant kind start step

end Machine

end Transition

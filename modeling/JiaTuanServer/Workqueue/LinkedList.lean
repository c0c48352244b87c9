import JiaTuanServer.Library.Chain

/-!
# The list macros of workqueue.c

`LL_ADD` and `LL_REMOVE` are used for two lists, the workers and the waiting jobs. Both kinds of
node have a `prev` and a `next` field; `Links` is the memory of these two fields for all nodes of
one kind, by address. The null pointer is `none`.

`LL_ADD` never writes the `prev` field of the old head, so what a list keeps is not the doubly
linked shape but `Pushed`: every node on it has a null `prev`.
-/

namespace JiaTuanServer.Workqueue

open Linked

variable {α : Type*} [DecidableEq α]

/-- The `prev` and `next` fields of the nodes of one kind. -/
structure Links (α : Type*) where
  prev : α → Option α
  next : α → Option α

/-- `LL_ADD(item, list)`: the new fields and the new value of the list variable. -/
def llAdd (m : Links α) (item : α) (list : Option α) : Links α × Option α :=
  ({ prev := Function.update m.prev item none, next := Function.update m.next item list },
    some item)

/-- `LL_REMOVE(item, list)`. Each statement reads the memory the statements before it left. -/
def llRemove (m : Links α) (item : α) (list : Option α) : Links α × Option α :=
  let m₁ : Links α := match m.prev item with
    | some p => { m with next := Function.update m.next p (m.next item) }
    | none => m
  let m₂ : Links α := match m₁.next item with
    | some q => { m₁ with prev := Function.update m₁.prev q (m₁.prev item) }
    | none => m₁
  let list' := if list = some item then m₂.next item else list
  ({ prev := Function.update m₂.prev item none, next := Function.update m₂.next item none }, list')

/-- The nodes whose fields `LL_REMOVE(item, list)` writes. -/
def llRemoveWrites (m : Links α) (item : α) : List α :=
  (m.prev item).toList ++ (m.next item).toList ++ [item]

/-- What the list variable and the node memory keep under `LL_ADD` and removal of the head. -/
structure Pushed (m : Links α) (list : Option α) (l : List α) : Prop where
  chain : Chain m.next list l
  prev : ∀ x ∈ l, m.prev x = none

omit [DecidableEq α] in
theorem pushed_nil (m : Links α) : Pushed m none [] := ⟨rfl, by simp⟩

theorem Pushed.llAdd {m : Links α} {list : Option α} {l : List α} {item : α}
    (h : Pushed m list l) (fresh : item ∉ l) :
    Pushed (llAdd m item list).1 (llAdd m item list).2 (item :: l) where
  chain := h.chain.push fresh
  prev x hx := by
    rcases List.mem_cons.mp hx with rfl | hx
    · exact Function.update_self _ _ _
    · exact (Function.update_of_ne (ne_of_mem_of_not_mem hx fresh) _ _).trans (h.prev x hx)

/-- Removing the head leaves the rest. The head's null `prev` keeps the first branch of
`LL_REMOVE` from being taken. -/
theorem Pushed.llRemove {m : Links α} {item : α} {l : List α} (h : Pushed m (some item) l) :
    ∃ rest, l = item :: rest ∧ (llRemove m item (some item)).2 = rest.head? ∧
      Pushed (llRemove m item (some item)).1 (llRemove m item (some item)).2 rest := by
  obtain ⟨rest, rfl, hrest⟩ := h.chain.of_some
  have hprev : m.prev item = none := h.prev item List.mem_cons_self
  have hitem : item ∉ rest := (List.nodup_cons.mp h.chain.nodup).1
  refine ⟨rest, rfl, ?_⟩
  cases rest with
  | nil =>
    have hnext : m.next item = none := hrest
    simp only [Workqueue.llRemove, hprev, hnext, List.head?_nil, if_true, true_and]
    exact ⟨rfl, by simp⟩
  | cons y ys =>
    have hnext : m.next item = some y := hrest.1
    have hy : y ≠ item := fun e => hitem (e ▸ List.mem_cons_self)
    simp only [Workqueue.llRemove, hprev, hnext, List.head?_cons, if_true, true_and]
    refine ⟨(hnext ▸ hrest).update hitem none, fun x hx => ?_⟩
    have hx' : x ≠ item := ne_of_mem_of_not_mem hx hitem
    by_cases hxy : x = y
    · subst hxy; simp [hx']
    · simpa [hx', hxy] using h.prev x (List.mem_cons_of_mem _ hx)

omit [DecidableEq α] in
/-- Everything `LL_REMOVE` of the head writes is on the list. -/
theorem Pushed.llRemoveWrites_subset {m : Links α} {item : α} {l : List α}
    (h : Pushed m (some item) l) : ∀ x ∈ llRemoveWrites m item, x ∈ l := by
  obtain ⟨rest, rfl, hrest⟩ := h.chain.of_some
  have hprev : m.prev item = none := h.prev item List.mem_cons_self
  intro x hx
  simp only [llRemoveWrites, hprev, Option.toList_none, List.nil_append, List.mem_append,
    Option.mem_toList, List.mem_singleton] at hx
  rcases hx with hx | rfl
  · rw [Option.mem_def.mp hx] at hrest
    obtain ⟨ys, rfl, -⟩ := hrest.of_some
    simp
  · simp

end JiaTuanServer.Workqueue

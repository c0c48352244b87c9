import Mathlib.Data.List.Nodup
import Mathlib.Logic.Function.Basic

/-!
# Chains of nodes

`Chain next head l` says what a singly linked traversal sees: starting from the pointer `head`
and following `next`, exactly the nodes of `l` in order, and then the null pointer. Nodes are
addresses of any type and the memory is a function, so a write is `Function.update`.

A chain determines its list and has no duplicates. Writing `next` of a node outside the chain
leaves it alone, which is the frame fact every list operation needs. `BackChain` is what the `prev`
pointers of a doubly linked list say about the same nodes.
-/

namespace Linked

variable {α : Type*}

/-- Following `next` from `head` meets the nodes of the list and then null. -/
def Chain (next : α → Option α) : Option α → List α → Prop
  | head, [] => head = none
  | head, x :: xs => head = some x ∧ Chain next (next x) xs

namespace Chain

variable {next : α → Option α} {head : Option α} {l l' : List α} {x : α}

@[simp] theorem nil_iff : Chain next head [] ↔ head = none := Iff.rfl

@[simp] theorem cons_iff :
    Chain next head (x :: l) ↔ head = some x ∧ Chain next (next x) l := Iff.rfl

theorem of_none (h : Chain next none l) : l = [] := by
  cases l with
  | nil => rfl
  | cons x xs => simp at h

theorem of_some (h : Chain next (some x) l) : ∃ xs, l = x :: xs ∧ Chain next (next x) xs := by
  cases l with
  | nil => simp at h
  | cons y ys =>
    obtain ⟨hy, rest⟩ := h
    cases hy
    exact ⟨ys, rfl, rest⟩

/-- The traversal is deterministic. -/
theorem unique (h : Chain next head l) (h' : Chain next head l') : l = l' := by
  induction l generalizing head l' with
  | nil =>
    cases h
    exact (of_none h').symm
  | cons x xs ih =>
    obtain ⟨rfl, rest⟩ := h
    obtain ⟨ys, rfl, rest'⟩ := of_some h'
    rw [ih rest rest']

/-- From a node of the chain the traversal sees what follows it. -/
theorem suffix (h : Chain next head l) (hx : x ∈ l) :
    ∃ pre post, l = pre ++ x :: post ∧ Chain next (next x) post := by
  induction l generalizing head with
  | nil => simp at hx
  | cons y ys ih =>
    obtain ⟨-, rest⟩ := h
    rcases List.mem_cons.mp hx with rfl | hx
    · exact ⟨[], ys, rfl, rest⟩
    · obtain ⟨pre, post, rfl, hpost⟩ := ih rest hx
      exact ⟨y :: pre, post, rfl, hpost⟩

theorem head?_eq (h : Chain next head l) : l.head? = head := by
  cases l with
  | nil => exact h.symm
  | cons x xs => exact h.1.symm

/-- What follows a node of the chain is on the chain. -/
theorem next_mem {y : α} (h : Chain next head l) (hx : x ∈ l) (follows : next x = some y) :
    y ∈ l := by
  obtain ⟨pre, post, rfl, hpost⟩ := h.suffix hx
  rw [follows] at hpost
  obtain ⟨ys, rfl, -⟩ := hpost.of_some
  simp

/-- A node that came twice would be followed by two lists of different lengths. -/
theorem nodup (h : Chain next head l) : l.Nodup := by
  induction l generalizing head with
  | nil => exact List.nodup_nil
  | cons x xs ih =>
    obtain ⟨-, rest⟩ := h
    refine List.nodup_cons.mpr ⟨fun hx => ?_, ih rest⟩
    obtain ⟨pre, post, heq, hpost⟩ := rest.suffix hx
    have hlen := congrArg List.length (rest.unique hpost)
    rw [heq, List.length_append, List.length_cons] at hlen
    omega

/-- Only the `next` fields of the chain's own nodes matter. -/
theorem congr {next' : α → Option α} (h : Chain next head l) (same : ∀ x ∈ l, next' x = next x) :
    Chain next' head l := by
  induction l generalizing head with
  | nil => exact h
  | cons x xs ih =>
    obtain ⟨hx, rest⟩ := h
    refine ⟨hx, ?_⟩
    rw [same x List.mem_cons_self]
    exact ih rest fun y hy => same y (List.mem_cons_of_mem _ hy)

variable [DecidableEq α]

/-- A write outside the chain is not seen by the traversal. -/
theorem update (h : Chain next head l) (hx : x ∉ l) (v : Option α) :
    Chain (Function.update next x v) head l :=
  h.congr fun _ hy => Function.update_of_ne (ne_of_mem_of_not_mem hy hx) _ _

/-- Link a node in front. -/
theorem push (h : Chain next head l) (hx : x ∉ l) :
    Chain (Function.update next x head) (some x) (x :: l) := by
  refine ⟨rfl, ?_⟩
  rw [Function.update_self]
  exact h.update hx head

/-- Cutting the chain after one of its nodes. -/
theorem cut {pre post : List α} (h : Chain next head (pre ++ x :: post)) :
    Chain (Function.update next x none) head (pre ++ [x]) := by
  have nodup := h.nodup
  induction pre generalizing head with
  | nil =>
    obtain ⟨rfl, -⟩ := h
    exact ⟨rfl, Function.update_self _ _ _⟩
  | cons y ys ih =>
    obtain ⟨rfl, rest⟩ := h
    obtain ⟨hy, hys⟩ := List.nodup_cons.mp nodup
    have other : y ≠ x := by
      rintro rfl
      exact hy (by simp)
    refine ⟨rfl, ?_⟩
    rw [Function.update_of_ne other]
    exact ih rest hys

end Chain

/-- The back pointers along the list: the first node points to `p`, every other one to the node
before it. -/
def BackChain (prev : α → Option α) : Option α → List α → Prop
  | _, [] => True
  | p, x :: xs => prev x = p ∧ BackChain prev (some x) xs

namespace BackChain

variable {prev : α → Option α} {p : Option α} {l : List α} {x y : α}

@[simp] theorem nil : BackChain prev p [] := trivial

@[simp] theorem cons_iff :
    BackChain prev p (x :: l) ↔ prev x = p ∧ BackChain prev (some x) l := Iff.rfl

/-- Only the `prev` fields of the list's own nodes matter. -/
theorem congr {prev' : α → Option α} (h : BackChain prev p l)
    (same : ∀ x ∈ l, prev' x = prev x) : BackChain prev' p l := by
  induction l generalizing p with
  | nil => exact nil
  | cons x xs ih =>
    obtain ⟨hx, rest⟩ := h
    refine ⟨?_, ih rest fun y hy => same y (List.mem_cons_of_mem _ hy)⟩
    rw [same x List.mem_cons_self, hx]

/-- A node points back to the list or to what stands before it. -/
theorem prev_mem (h : BackChain prev p l) (hx : x ∈ l) :
    prev x = p ∧ l.head? = some x ∨ ∃ y ∈ l, prev x = some y := by
  induction l generalizing p with
  | nil => simp at hx
  | cons y ys ih =>
    obtain ⟨hy, rest⟩ := h
    rcases List.mem_cons.mp hx with rfl | hx
    · exact .inl ⟨hy, rfl⟩
    · right
      rcases ih rest hx with ⟨back, -⟩ | ⟨z, hz, back⟩
      · exact ⟨y, List.mem_cons_self, back⟩
      · exact ⟨z, List.mem_cons_of_mem _ hz, back⟩

/-- Only the first node points to what stands before the list. -/
theorem head_of_prev (h : BackChain prev (some y) l) (hy : y ∉ l) (hx : x ∈ l)
    (back : prev x = some y) : l.head? = some x := by
  rcases h.prev_mem hx with ⟨-, head⟩ | ⟨z, hz, back'⟩
  · exact head
  · cases back.symm.trans back'
    exact absurd hz hy

/-- The two directions agree: a node behind `y` points back to `y` exactly when `y` points to it. -/
theorem prev_eq_iff {next : α → Option α} (h : BackChain prev (some y) l)
    (chain : Chain next (next y) l) (hy : y ∉ l) (hx : x ∈ l) :
    prev x = some y ↔ next y = some x := by
  rw [← chain.head?_eq]
  refine ⟨h.head_of_prev hy hx, fun head => ?_⟩
  obtain ⟨xs, rfl⟩ := List.head?_eq_some_iff.mp head
  exact h.1

/-- No node points to itself. -/
theorem prev_ne_self (h : BackChain prev p l) (outside : p ≠ some x) (hl : l.Nodup) (hx : x ∈ l) :
    prev x ≠ some x := by
  induction l generalizing p with
  | nil => simp at hx
  | cons y ys ih =>
    obtain ⟨hy, rest⟩ := h
    obtain ⟨hyl, hys⟩ := List.nodup_cons.mp hl
    rcases List.mem_cons.mp hx with rfl | later
    · rwa [hy]
    · apply ih rest _ hys later
      intro same
      cases same
      exact hyl later

end BackChain

end Linked

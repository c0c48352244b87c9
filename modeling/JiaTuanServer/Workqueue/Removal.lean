import JiaTuanServer.Library.Machine
import JiaTuanServer.Workqueue.LinkedList

/-!
# Removal anywhere

`LL_REMOVE` unlinks an item from its two neighbours, and on a list whose `prev` fields are right it
takes out any item (`DoublyLinked.llRemove`). But `LL_ADD` does not tell the old head of its new
predecessor, so the `prev` fields of a list built by the two macros are all null (`allNull_step`).
The list is doubly linked only as long as it never holds two items, and its traversal is right only
as long as every item removed is the head: any other one stays linked, and what follows it is lost.
-/

namespace JiaTuanServer.Workqueue

open Linked Transition

variable {α : Type*} [DecidableEq α]

/-! ## Removal from a doubly linked list -/

/-- The list variable starts a traversal of `l`, and every `prev` field points to the item before,
the head's to nothing. -/
structure DoublyLinked (m : Links α) (list : Option α) (l : List α) : Prop where
  chain : Chain m.next list l
  back : BackChain m.prev none l

section Fields

variable {m : Links α} {item : α} (list : Option α)

/-- No statement of `LL_REMOVE` reads what an earlier one wrote, unless the item is its own
neighbour. -/
theorem llRemove_eq (hp : m.prev item ≠ some item) :
    llRemove m item list =
      ({ prev := Function.update
          ((m.next item).elim m.prev fun q => Function.update m.prev q (m.prev item)) item none
         next := Function.update
          ((m.prev item).elim m.next fun p => Function.update m.next p (m.next item)) item none },
        if list = some item then m.next item else list) := by
  unfold llRemove
  cases back : m.prev item with
  | none => cases next : m.next item <;> simp [back, next]
  | some p =>
    have other : item ≠ p := by
      rintro rfl
      exact hp back
    cases next : m.next item <;> simp [back, next, other]

theorem llRemove_next (hp : m.prev item ≠ some item) (y : α) :
    (llRemove m item list).1.next y =
      if y = item then none else if m.prev item = some y then m.next item else m.next y := by
  rw [llRemove_eq list hp]
  cases m.prev item with
  | none => simp [Function.update_apply]
  | some p => simp only [Option.elim, Function.update_apply]; grind

theorem llRemove_prev (hp : m.prev item ≠ some item) (y : α) :
    (llRemove m item list).1.prev y =
      if y = item then none else if m.next item = some y then m.prev item else m.prev y := by
  rw [llRemove_eq list hp]
  cases m.next item with
  | none => simp [Function.update_apply]
  | some q => simp only [Option.elim, Function.update_apply]; grind

theorem llRemove_list (hp : m.prev item ≠ some item) :
    (llRemove m item list).2 = if list = some item then m.next item else list := by
  rw [llRemove_eq list hp]

end Fields

/-- Removal of the first node of a part of the list: the second one gets its predecessor. -/
theorem unlink_head {m : Links α} {x : α} (list : Option α) {p : Option α} {xs : List α}
    (hp : m.prev x ≠ some x) (chain : Chain m.next (m.next x) xs)
    (back : BackChain m.prev p (x :: xs)) (outside : ∀ y ∈ xs, p ≠ some y) (hx : x ∉ xs) :
    Chain (llRemove m x list).1.next (m.next x) xs ∧
      BackChain (llRemove m x list).1.prev p xs := by
  obtain ⟨first, back⟩ := back
  constructor
  · apply chain.congr
    intro y hy
    have other : y ≠ x := ne_of_mem_of_not_mem hy hx
    rw [llRemove_next list hp, if_neg other, first, if_neg (outside y hy)]
  · have nodup := chain.nodup
    cases xs with
    | nil => exact BackChain.nil
    | cons z zs =>
      obtain ⟨next, -⟩ := chain
      obtain ⟨-, back⟩ := back
      have other : z ≠ x := ne_of_mem_of_not_mem List.mem_cons_self hx
      constructor
      · rw [llRemove_prev list hp, if_neg other, if_pos next, first]
      · apply back.congr
        intro y hy
        have hyx : y ≠ x := ne_of_mem_of_not_mem (List.mem_cons_of_mem _ hy) hx
        have hyz : y ≠ z := ne_of_mem_of_not_mem hy (List.nodup_cons.mp nodup).1
        have notNext : some z ≠ some y := fun e => hyz (Option.some.inj e).symm
        rw [llRemove_prev list hp, if_neg hyx, next, if_neg notNext]

/-- Removal along a part of the list, from the node `head` that comes after `p`. -/
theorem unlink {m : Links α} {item : α} (list : Option α) {head p : Option α} {l : List α}
    (hp : m.prev item ≠ some item) (chain : Chain m.next head l) (back : BackChain m.prev p l)
    (outside : ∀ y ∈ l, p ≠ some y) (mem : item ∈ l) :
    Chain (llRemove m item list).1.next (if head = some item then m.next item else head)
        (l.erase item) ∧
      BackChain (llRemove m item list).1.prev p (l.erase item) := by
  have nodup := chain.nodup
  induction l generalizing head p with
  | nil => simp at mem
  | cons x xs ih =>
    obtain ⟨rfl, chain⟩ := chain
    obtain ⟨hx, hxs⟩ := List.nodup_cons.mp nodup
    by_cases found : x = item
    · subst found
      rw [if_pos rfl, List.erase_cons_head]
      exact unlink_head list hp chain back (fun y hy => outside y (List.mem_cons_of_mem _ hy)) hx
    · obtain ⟨first, back⟩ := back
      have later : item ∈ xs := (List.mem_cons.mp mem).resolve_left (Ne.symm found)
      obtain ⟨chain', back'⟩ := ih chain back (fun y hy e => hx (Option.some.inj e ▸ hy)) later hxs
      have neighbours := back.prev_eq_iff chain hx later
      have notNext : m.next item ≠ some x := fun follows => hx (chain.next_mem later follows)
      rw [if_neg fun e => found (Option.some.inj e), List.erase_cons_tail (by simpa using found)]
      -- `x` is followed by what now stands first behind it
      refine ⟨⟨rfl, ?_⟩, ?_, back'⟩
      · simpa only [llRemove_next list hp, if_neg found, neighbours] using chain'
      · rw [llRemove_prev list hp, if_neg found, if_neg notNext, first]

/-- `LL_REMOVE` of any item of a doubly linked list. -/
theorem DoublyLinked.llRemove {m : Links α} {list : Option α} {l : List α} {item : α}
    (h : DoublyLinked m list l) (mem : item ∈ l) :
    DoublyLinked (llRemove m item list).1 (llRemove m item list).2 (l.erase item) := by
  have hp : m.prev item ≠ some item := h.back.prev_ne_self (by simp) h.chain.nodup mem
  obtain ⟨chain, back⟩ := unlink list hp h.chain h.back (by simp) mem
  exact ⟨by rwa [llRemove_list list hp], back⟩

/-! ## What the two macros build -/

/-- The fields of the nodes, the list variable, and the list meant by it. -/
structure ListState (α : Type*) where
  links : Links α
  list : Option α
  reference : List α

inductive ListOp (α : Type*) where
  | add (item : α)
  | remove (item : α)

/-- An item is added that is not on the list, or removed that is. -/
def listStep (s : ListState α) : ListOp α → Option (ListState α)
  | .add item =>
    if item ∈ s.reference then none
    else some
      { links := (llAdd s.links item s.list).1
        list := (llAdd s.links item s.list).2
        reference := item :: s.reference }
  | .remove item =>
    if item ∈ s.reference then some
      { links := (llRemove s.links item s.list).1
        list := (llRemove s.links item s.list).2
        reference := s.reference.erase item }
    else none

/-- The list variable starts as `NULL`; the fields of the nodes may hold anything. -/
def listMachine : Machine (ListState α) (ListOp α) where
  initial s := s.list = none ∧ s.reference = []
  step := listStep

/-- Every `prev` field on the list is null. -/
def AllNull (s : ListState α) : Prop := ∀ x ∈ s.reference, s.links.prev x = none

theorem listStep_cases {s u : ListState α} {op : ListOp α}
    (taken : listMachine.step s op = some u) :
    (∃ item, op = .add item ∧ item ∉ s.reference ∧
      u = ⟨(llAdd s.links item s.list).1, (llAdd s.links item s.list).2, item :: s.reference⟩) ∨
    ∃ item, op = .remove item ∧ item ∈ s.reference ∧
      u = ⟨(llRemove s.links item s.list).1, (llRemove s.links item s.list).2,
        s.reference.erase item⟩ := by
  cases op with
  | add item =>
    simp only [listMachine, listStep] at taken
    split at taken
    · cases taken
    · rename_i fresh
      exact .inl ⟨item, rfl, fresh, (Option.some.inj taken).symm⟩
  | remove item =>
    simp only [listMachine, listStep] at taken
    split at taken
    · rename_i mem
      exact .inr ⟨item, rfl, mem, (Option.some.inj taken).symm⟩
    · cases taken

theorem allNull_step {s u : ListState α} {op : ListOp α} (h : AllNull s)
    (taken : listMachine.step s op = some u) : AllNull u := by
  intro x hx
  rcases listStep_cases taken with ⟨item, -, fresh, rfl⟩ | ⟨item, -, mem, rfl⟩
  · rcases List.mem_cons.mp hx with rfl | hx
    · exact Function.update_self _ _ _
    · have other : x ≠ item := ne_of_mem_of_not_mem hx fresh
      exact (Function.update_of_ne other _ _).trans (h x hx)
  · have hp : s.links.prev item ≠ some item := by simp [h item mem]
    -- the only `prev` field written is set to that of the item, which is null
    rw [llRemove_prev s.list hp, h item mem, h x (List.mem_of_mem_erase hx)]
    simp

/-! ## When the list is right -/

/-- An item other than the head stays linked, and what follows it is lost. -/
theorem Pushed.llRemove_other {m : Links α} {list : Option α} {pre post : List α} {item : α}
    (h : Pushed m list (pre ++ item :: post)) (notHead : list ≠ some item) :
    Chain (Workqueue.llRemove m item list).1.next (Workqueue.llRemove m item list).2
      (pre ++ [item]) := by
  have null : m.prev item = none := h.prev item (by simp)
  have hp : m.prev item ≠ some item := by simp [null]
  have written : (Workqueue.llRemove m item list).1.next = Function.update m.next item none := by
    funext y
    rw [llRemove_next list hp, null, Function.update_apply]
    simp
  rw [written, llRemove_list list hp, if_neg notHead]
  exact h.chain.cut

/-- The list is built on items one at a time. -/
def AddsWhenEmpty (s : ListState α) (op : ListOp α) : Prop := ∀ item, op = .add item → s.list = none

/-- The test for `AddsWhenEmpty`. -/
def addsWhenEmptyTest (s : ListState α) : ListOp α → Bool
  | .add _ => s.list.isNone
  | .remove _ => true

omit [DecidableEq α] in
theorem addsWhenEmpty_of_test (s : ListState α) (op : ListOp α)
    (h : addsWhenEmptyTest s op = true) : AddsWhenEmpty s op := by
  rintro item rfl
  exact Option.isNone_iff_eq_none.mp h

/-- Only the head is removed. -/
def RemovesHead (s : ListState α) (op : ListOp α) : Prop :=
  ∀ item, op = .remove item → s.list = some item

variable {s t : ListState α} {tr : List (ListState α × ListOp α)}

theorem allNull_initial (start : listMachine.initial s) : AllNull s := by
  intro x hx
  simp [start.2] at hx

/-- The forward traversal is the list meant exactly as long as only heads are removed. -/
theorem traversal_iff (run : listMachine.Run s tr t) (start : listMachine.initial s) :
    (∀ v ∈ Machine.visited tr t, Chain v.links.next v.list v.reference) ↔
      Machine.Along RemovesHead tr := by
  refine run.forall_visited_iff_of_kept (I := AllNull) (allNull_initial start) ?_
    (fun _ _ _ => allNull_step) ?_ ?_
  · simp [start.1, start.2]
  · intro s op u null chain heads taken
    rcases listStep_cases taken with ⟨item, -, fresh, rfl⟩ | ⟨item, rfl, -, rfl⟩
    · exact chain.push fresh
    · have head := heads item rfl
      have pushed : Pushed s.links (some item) s.reference := ⟨head ▸ chain, null⟩
      obtain ⟨rest, same, -, rest_pushed⟩ := pushed.llRemove
      simp only [head, same, List.erase_cons_head]
      exact rest_pushed.chain
  · intro s op u null chain other taken chain'
    obtain ⟨item, rfl, notHead⟩ : ∃ item, op = .remove item ∧ s.list ≠ some item := by
      simpa [RemovesHead] using other
    rcases listStep_cases taken with ⟨_, removed, -, -⟩ | ⟨_, removed, mem, rfl⟩
    · cases removed
    · cases removed
      obtain ⟨pre, post, split⟩ := List.append_of_mem mem
      have pushed : Pushed s.links s.list (pre ++ item :: post) := split ▸ ⟨chain, null⟩
      have same : s.reference.erase item = pre ++ [item] :=
        chain'.unique (pushed.llRemove_other notHead)
      have gone : item ∉ s.reference.erase item := chain.nodup.not_mem_erase
      simp [same] at gone

/-- The list stays doubly linked exactly as long as items are only added to the empty list. -/
theorem doublyLinked_iff (run : listMachine.Run s tr t) (start : listMachine.initial s) :
    (∀ v ∈ Machine.visited tr t, DoublyLinked v.links v.list v.reference) ↔
      Machine.Along AddsWhenEmpty tr := by
  refine run.forall_visited_iff (I := AllNull) (allNull_initial start) ?_
    (fun _ _ _ => allNull_step) ?_ ?_
  · rw [start.1, start.2]
    exact ⟨rfl, BackChain.nil⟩
  · intro s op u null linked empty taken
    rcases listStep_cases taken with ⟨item, rfl, -, rfl⟩ | ⟨item, -, mem, rfl⟩
    · have null := empty item rfl
      obtain nothing : s.reference = [] := (null ▸ linked.chain).of_none
      simp only [null, nothing]
      exact ⟨by simp [llAdd], by simp [llAdd]⟩
    · exact linked.llRemove mem
  · intro s op u null other taken linked
    obtain ⟨item, rfl, notEmpty⟩ : ∃ item, op = .add item ∧ s.list ≠ none := by
      simpa [AddsWhenEmpty] using other
    rcases listStep_cases taken with ⟨_, added, fresh, rfl⟩ | ⟨_, added, -, -⟩
    · cases added
      obtain ⟨head, old⟩ := Option.ne_none_iff_exists'.mp notEmpty
      obtain ⟨⟨-, chain⟩, -, back⟩ := linked
      simp only [llAdd, Function.update_self, old] at chain
      obtain ⟨rest, same, -⟩ := chain.of_some
      have mem : head ∈ s.reference := by simp [same]
      have other : head ≠ item := ne_of_mem_of_not_mem mem fresh
      -- the old head should point back to the item, but its `prev` is still null
      have null' : s.links.prev head = none := null head mem
      simp only [same, BackChain.cons_iff, llAdd, Function.update_of_ne other, null'] at back
      exact absurd back.1 (by simp)
    · cases added

/-- The empty list, in memory that is all zero. -/
def emptyList : ListState ℕ := ⟨⟨fun _ => none, fun _ => none⟩, none, []⟩

/-- One item, added, removed and added again. -/
theorem doublyLinked_iff_oneItem :
    ∃ tr t, listMachine.Run emptyList tr t ∧ t.reference = [2] ∧
      ∀ v ∈ Machine.visited tr t, DoublyLinked v.links v.list v.reference := by
  obtain ⟨t, ran, reference⟩ :
      ∃ t, listMachine.exec emptyList [.add 1, .remove 1, .add 2] = some t ∧ t.reference = [2] :=
    ⟨_, rfl, rfl⟩
  have run := Machine.run_of_exec ran
  have single : Machine.Along AddsWhenEmpty
      (listMachine.trace emptyList [.add 1, .remove 1, .add 2]) :=
    Machine.along_of_check addsWhenEmpty_of_test (by decide)
  exact ⟨_, t, run, reference, (doublyLinked_iff run ⟨rfl, rfl⟩).mpr single⟩

/-- Three items, and the one in the middle removed: it is still on the list, and the last one is
lost. -/
theorem llRemove_middle :
    ∃ t, listMachine.exec emptyList [.add 1, .add 2, .add 3, .remove 2] = some t ∧
      t.reference = [3, 1] ∧ Chain t.links.next t.list [3, 2] ∧
      ¬ DoublyLinked t.links t.list t.reference := by
  have seen : ∃ t, listMachine.exec emptyList [.add 1, .add 2, .add 3, .remove 2] = some t ∧
      t.reference = [3, 1] ∧ Chain t.links.next t.list [3, 2] :=
    ⟨_, rfl, rfl, rfl, rfl, rfl⟩
  obtain ⟨t, ran, reference, chain⟩ := seen
  refine ⟨t, ran, reference, chain, ?_⟩
  intro linked
  have same := chain.unique linked.chain
  simp [reference] at same

end JiaTuanServer.Workqueue

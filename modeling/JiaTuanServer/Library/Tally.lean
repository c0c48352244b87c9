import Mathlib.Algebra.BigOperators.Group.Finset.Basic
import Mathlib.Algebra.Order.BigOperators.Group.Finset
import Mathlib.Data.Fintype.Card

/-!
# Counting the members of a finite family

`tally p f` is the number of indices whose value satisfies `p`. Thread counts in an invariant are
tallies of program counters: a step that moves one index changes a tally by what it was and what
it becomes, and moving a whole set of indices into `p` adds the size of the set. Weights work the
same way: where one index moves, the sum of the weights changes by what that index weighed and
weighs now.
-/

namespace Counting

variable {ι β : Type*} [Fintype ι]

/-- The number of indices `i` with `p (f i)`. -/
def tally (p : β → Bool) (f : ι → β) : ℕ := (Finset.univ.filter fun i => p (f i) = true).card

theorem tally_pos {p : β → Bool} {f : ι → β} : 0 < tally p f ↔ ∃ i, p (f i) = true := by
  simp [tally, Finset.card_pos, Finset.Nonempty]

variable [DecidableEq ι]

/-- One index moves: the tally loses its old value and gains the new one. -/
theorem tally_update (p : β → Bool) (f : ι → β) (i : ι) (b : β) :
    tally p (Function.update f i b) + (p (f i)).toNat = tally p f + (p b).toNat := by
  have split (g : ι → β) : tally p g =
      (p (g i)).toNat + ((Finset.univ.erase i).filter fun j => p (g j) = true).card := by
    have hu : (Finset.univ : Finset ι) = insert i (Finset.univ.erase i) := by simp
    rw [tally, hu, Finset.filter_insert]
    split_ifs with hg
    · rw [Finset.card_insert_of_notMem (by simp), hg, Finset.erase_insert (by simp)]
      simp [Nat.add_comm]
    · simp [hg]
  have others : ((Finset.univ.erase i).filter fun j => p (Function.update f i b j) = true) =
      (Finset.univ.erase i).filter fun j => p (f j) = true := by
    refine Finset.filter_congr fun j hj => ?_
    rw [Function.update_of_ne (Finset.ne_of_mem_erase hj)]
  rw [split f, split (Function.update f i b), others, Function.update_self]
  omega

/-- A set of indices that were not counted is moved to a value that is. -/
theorem tally_override {p : β → Bool} {f : ι → β} {b : β} (s : Finset ι)
    (was : ∀ i ∈ s, p (f i) = false) (hb : p b = true) :
    tally p (fun i => if i ∈ s then b else f i) = tally p f + s.card := by
  have h : (Finset.univ.filter fun i => p (if i ∈ s then b else f i) = true) =
      (Finset.univ.filter fun i => p (f i) = true) ∪ s := by
    ext i
    by_cases hi : i ∈ s <;> simp [hi, hb]
  have disj : Disjoint (Finset.univ.filter fun i => p (f i) = true) s := by
    rw [Finset.disjoint_left]
    intro i hi his
    simp [was i his] at hi
  rw [tally, h, Finset.card_union_of_disjoint disj, tally]

/-- One index changes its weight. -/
theorem sum_of_move {f g : ι → ℕ} (i : ι) (others : ∀ j, j ≠ i → g j = f j) :
    ∑ j, g j + f i = ∑ j, f j + g i := by
  have rest : ∑ j ∈ Finset.univ.erase i, g j = ∑ j ∈ Finset.univ.erase i, f j :=
    Finset.sum_congr rfl fun j hj => others j (Finset.ne_of_mem_erase hj)
  have hf := Finset.add_sum_erase Finset.univ f (Finset.mem_univ i)
  have hg := Finset.add_sum_erase Finset.univ g (Finset.mem_univ i)
  omega

omit [DecidableEq ι] in
/-- No index gains more than `c`. -/
theorem sum_le_of_raise {f g : ι → ℕ} {c : ℕ} (raise : ∀ j, g j ≤ f j + c) :
    ∑ j, g j ≤ ∑ j, f j + Fintype.card ι * c := by
  calc ∑ j, g j ≤ ∑ j, (f j + c) := Finset.sum_le_sum fun j _ => raise j
    _ = ∑ j, f j + Fintype.card ι * c := by simp [Finset.sum_add_distrib]

end Counting

import Mathlib.Data.List.Basic
import Mathlib.Data.Nat.Notation
import Mathlib.Tactic.Common

/-!
# Ranges of a memory

A block of memory is a list of cells. `load` reads a range of it and `store` overwrites one. A
region grows at its end when something is stored right behind it, and shrinks at its front when its
start moves on.
-/

namespace Memory

variable {β : Type*} {m xs : List β} {start n k : ℕ}

def load (m : List β) (start n : ℕ) : List β := (m.drop start).take n

def store (m : List β) (start : ℕ) (xs : List β) : List β :=
  m.take start ++ xs ++ m.drop (start + xs.length)

theorem length_load (inside : start + n ≤ m.length) : (load m start n).length = n := by
  simp only [load, List.length_take, List.length_drop]
  omega

@[simp] theorem length_store (inside : start + xs.length ≤ m.length) :
    (store m start xs).length = m.length := by
  simp only [store, List.length_append, List.length_take, List.length_drop]
  omega

/-- Cutting the front off a region. -/
theorem load_add (m : List β) (start k n : ℕ) :
    load m (start + k) (n - k) = (load m start n).drop k := by
  rw [load, load, List.drop_take, List.drop_drop]

/-- What is stored right behind a region extends it. -/
theorem load_store_behind (inside : start + n + xs.length ≤ m.length) :
    load (store m (start + n) xs) start (n + xs.length) = load m start n ++ xs := by
  have region : (m.take (start + n)).drop start = load m start n := by
    rw [load, List.drop_take, Nat.add_sub_cancel_left]
  have length : (load m start n ++ xs).length = n + xs.length := by
    rw [List.length_append, length_load (by omega)]
  have le : start ≤ (m.take (start + n)).length := by
    rw [List.length_take]
    omega
  rw [store, load, List.append_assoc, List.drop_append_of_le_length le, region,
    ← List.append_assoc, ← length, List.take_left]

@[simp] theorem store_nil (m : List β) (start : ℕ) : store m start [] = m := by simp [store]

/-- Two stores one behind the other. -/
theorem store_store {ys : List β} (inside : start + xs.length ≤ m.length) :
    store (store m start xs) (start + xs.length) ys = store m start (xs ++ ys) := by
  have front : (m.take start ++ xs).length = start + xs.length := by
    simp only [List.length_append, List.length_take]
    omega
  simp only [store]
  rw [← front, List.take_left, List.drop_length_add_append, front, List.drop_drop,
    List.length_append, Nat.add_assoc]
  simp only [List.append_assoc]

/-- A region moved to the front. -/
theorem load_store_front (m xs : List β) : load (store m 0 xs) 0 xs.length = xs := by
  rw [load, store, List.take_zero, List.nil_append, List.drop_zero, List.take_left]

end Memory

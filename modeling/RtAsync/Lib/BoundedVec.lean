/-
# A vector of fixed capacity

A list of at most `N` elements, with the operations of a vector that never
grows: `push` fails when it is full, `remove(0)` keeps the order, `retain`
keeps the order of what it keeps, and `swap_remove` fills the hole with the
last element.

Key definitions: `BoundedVec`.
Key theorems: `BoundedVec.push_eq_some`, `BoundedVec.push_eq_none`,
`BoundedVec.removeFirst_eq_some`, `BoundedVec.perm_swapRemove`,
`BoundedVec.take_swapRemove`.
-/
import Mathlib.Data.Nat.Notation
import Mathlib.Data.List.Perm.Basic
import Mathlib.Order.Basic

/-- At most `N` elements, in order. -/
structure BoundedVec (α : Type*) (N : ℕ) where
  toList : List α
  length_le : toList.length ≤ N

namespace BoundedVec

variable {α : Type*} {N : ℕ}

def new : BoundedVec α N := ⟨[], Nat.zero_le N⟩

/-- At the end, if there is room. -/
def push (v : BoundedVec α N) (a : α) : Option (BoundedVec α N) :=
  if h : v.toList.length < N then some ⟨v.toList ++ [a], by rw [List.length_append]; exact h⟩ else none

/-- `remove(0)`, where there is a first element. -/
def removeFirst (v : BoundedVec α N) : Option (α × BoundedVec α N) :=
  match v with
  | ⟨[], _⟩ => none
  | ⟨a :: l, h⟩ => some (a, ⟨l, Nat.le_of_succ_le h⟩)

def retain (v : BoundedVec α N) (p : α → Bool) : BoundedVec α N :=
  ⟨v.toList.filter p, Nat.le_trans (List.length_filter_le p v.toList) v.length_le⟩

/-- `swap_remove(i)`: the last element takes the place of the one removed. -/
def swapRemove (v : BoundedVec α N) (i : ℕ) (h : i < v.toList.length) : BoundedVec α N :=
  ⟨(v.toList.set i (v.toList.getLast (List.ne_nil_of_length_pos (by omega)))).dropLast, by
    have := v.length_le
    simp only [List.length_dropLast, List.length_set]
    omega⟩

theorem push_eq_some {v w : BoundedVec α N} {a : α} (h : v.push a = some w) :
    v.toList.length < N ∧ w.toList = v.toList ++ [a] := by
  unfold push at h
  split at h
  · rename_i hlt
    exact ⟨hlt, by rw [← Option.some.inj h]⟩
  · cases h

theorem push_eq_none {v : BoundedVec α N} {a : α} : v.push a = none ↔ v.toList.length = N := by
  have := v.length_le
  unfold push
  split
  · simp only [reduceCtorEq, false_iff]
    omega
  · simp only [true_iff]
    omega

theorem removeFirst_eq_none {v : BoundedVec α N} (h : v.removeFirst = none) : v.toList = [] := by
  unfold removeFirst at h
  split at h
  · rfl
  · cases h

theorem removeFirst_eq_some {v w : BoundedVec α N} {a : α} (h : v.removeFirst = some (a, w)) :
    v.toList = a :: w.toList := by
  unfold removeFirst at h
  split at h
  · cases h
  · obtain ⟨rfl, rfl⟩ := Prod.mk.inj (Option.some.inj h)
    rfl

/-- Removing loses the element at `i` and no other. -/
theorem perm_swapRemove (v : BoundedVec α N) (i : ℕ) (h : i < v.toList.length) :
    v.toList.Perm (v.toList[i] :: (v.swapRemove i h).toList) := by
  obtain ⟨l, hl⟩ := v
  obtain ⟨as, z, rfl⟩ := List.eq_nil_or_concat l |>.resolve_left
    (List.ne_nil_of_length_pos (Nat.zero_lt_of_lt h))
  simp only [swapRemove, List.concat_eq_append, List.getLast_append_singleton]
  simp only [List.concat_eq_append, List.length_append, List.length_singleton] at h
  rcases Nat.lt_or_ge i as.length with hi | hi
  · rw [List.set_append_left i z hi, List.dropLast_concat, List.getElem_append_left hi]
    have hsplit : as = as.take i ++ as[i] :: as.drop (i + 1) := by simp
    have hset : as.set i z = as.take i ++ z :: as.drop (i + 1) := List.set_eq_take_append_cons_drop
      |>.trans (if_pos hi)
    rw [hset]
    nth_rewrite 1 [hsplit]
    rw [List.append_assoc, List.cons_append]
    refine List.perm_middle.trans (List.Perm.cons _ ?_)
    exact (List.Perm.append_left _ List.perm_append_comm)
  · obtain rfl : i = as.length := by omega
    rw [List.getElem_append_right (Nat.le_refl _), List.set_append_right _ z (Nat.le_refl _)]
    simp

theorem length_swapRemove (v : BoundedVec α N) (i : ℕ) (h : i < v.toList.length) :
    (v.swapRemove i h).toList.length + 1 = v.toList.length :=
  (v.perm_swapRemove i h).length_eq.symm

/-- What stands before the hole stays in place. -/
theorem take_swapRemove (v : BoundedVec α N) (i : ℕ) (h : i < v.toList.length) :
    (v.swapRemove i h).toList.take i = v.toList.take i := by
  have hmin : min i (v.toList.length - 1) = i := by omega
  simp only [swapRemove, List.dropLast_eq_take, List.length_set, List.take_take, hmin]
  rw [List.take_set_of_le (Nat.le_refl i)]

end BoundedVec
